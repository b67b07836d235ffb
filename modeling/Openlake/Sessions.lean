import Openlake.PartAttempt

/-!
# The file of a session

Every attempt reads the session files and goes by the data directory and the
code that more than half of the disks name. Two such answers agree, so the
attempts on a session agree as long as its files stay, whichever reads fail.
-/

set_option autoImplicit false

namespace Openlake.Sessions
open Openlake.Types XlMeta XlMetaRoundTrip LocalFs Promote Ops Multipart PartFiles PartAttempt
open Lib.FileTree Lib.Effects Lib.FanOut Lib.Outcomes

variable {K : Type} [DecidableEq K]

theorem majorityKey_count (threshold : ℕ) (seen ks : List K) (k : K)
    (h : majorityKey threshold seen ks = some k) : threshold ≤ seen.count k+ks.count k := by
  induction ks generalizing seen with
  | nil => cases h
  | cons x ks ih =>
    rw [majorityKey] at h
    split_ifs at h with hx
    · obtain rfl := Option.some.inj h
      rw [List.count_cons_self]
      omega
    · have := ih (x::seen) h
      rw [List.count_cons] at this ⊢
      omega

theorem majorityKey_found (threshold : ℕ) (seen ks : List K) (k : K) (hseen : seen.count k < threshold)
    (h : threshold ≤ seen.count k+ks.count k) : ∃ k', majorityKey threshold seen ks = some k' := by
  induction ks generalizing seen with
  | nil =>
    rw [List.count_nil] at h
    omega
  | cons x ks ih =>
    rw [majorityKey]
    split_ifs with hx
    · exact ⟨x,rfl⟩
    · apply ih
      · rw [List.count_cons]
        split_ifs with he
        · rw [beq_iff_eq] at he
          rw [he] at hx
          omega
        · omega
      · rw [List.count_cons] at h ⊢
        omega

theorem pickSession_count (session : String) (metas : List (Except IoError FileInfo))
    (fi : FileInfo) (h : pickSession session metas = .ok fi) :
    metas.length/2+1 ≤
      (metas.filterMap (fun r => r.toOption.map sessionKey)).count (sessionKey fi) := by
  simp only [pickSession] at h
  split at h
  · rename_i winner hw
    have hcount := majorityKey_count _ _ _ _ hw
    have hpos : 0 < ((metas.filterMap Except.toOption).map sessionKey).count winner := by
      rw [List.count_nil] at hcount
      omega
    obtain ⟨g,hg,hk⟩ := List.mem_map.mp (List.count_pos_iff.mp hpos)
    obtain ⟨g',hg'⟩ : ∃ g', (metas.filterMap Except.toOption).find?
        (fun fi => sessionKey fi = winner) = some g' := by
      rw [← Option.isSome_iff_exists, List.find?_isSome]
      exact ⟨g,hg,by simpa using hk⟩
    have hwin : sessionKey g' = winner := by simpa using List.find?_some hg'
    rw [hg'] at h
    obtain rfl := Except.ok.inj h
    rw [← List.map_filterMap, Option.getD_some, hwin]
    simpa using hcount
  · cases h

variable {n : ℕ} (c : MetaCodec) (session : String)

theorem filterMap_ofFn_congr {α β γ : Type} {f : α → Option γ} {g : β → Option γ} {xs : Fin n → α}
    {ys : Fin n → β} (h : ∀ i, f (xs i) = g (ys i)) :
    (List.ofFn xs).filterMap f = (List.ofFn ys).filterMap g := by
  rw [List.ofFn_eq_map, List.ofFn_eq_map, List.filterMap_map, List.filterMap_map]
  exact List.filterMap_congr fun i _ => h i

def keyOn (session : String) (t : Disk) : Option SessionKey :=
  match look t (metaPath multipartVol session) with
  | some (.file raw) => (versionFrom c multipartVol session raw none false).toOption.map sessionKey
  | _ => none

/-- More than half of the disks hold a session file with this data directory and code. -/
def Majority (session : String) (sk : SessionKey) (disks : Disks n) : Prop :=
  n/2+1 ≤ ((List.ofFn disks).filterMap (keyOn c session)).count sk

variable {disks : Disks n}

theorem Majority.unique {session : String} {sk sk' : SessionKey}
    (h : Majority c session sk disks) (h' : Majority c session sk' disks) : sk' = sk := by
  by_contra hne
  have hsum := Lib.Tally.count_add_count_le ((List.ofFn disks).filterMap (keyOn c session)) _ _ hne
  have hlen := List.length_filterMap_le (keyOn c session) (List.ofFn disks)
  rw [List.length_ofFn] at hlen
  rw [Majority] at h h'
  omega

theorem versionFrom_dataDir (raw : Bytes) (fi : FileInfo)
    (h : versionFrom c multipartVol session raw none false = .ok fi) :
    ∃ u, fi.dataDir = VersionIds.formatDataDirBytes u := by
  simp only [versionFrom, pickVersion, bind_eq_ok, mapError_eq_ok] at h
  obtain ⟨r,hr,hfi⟩ := h
  obtain rfl := Except.ok.inj hfi
  rw [decode, bind_eq_ok] at hr
  obtain ⟨rs,hrs,hr⟩ := hr
  cases rs with
  | nil => cases hr
  | cons r' rs =>
    obtain rfl := Except.ok.inj hr
    obtain ⟨v,-,hv⟩ := decodeAll_spelled c raw _ hrs r' List.mem_cons_self
    exact ⟨v.dataDir,hv⟩

variable {sk : SessionKey}

theorem Majority.dataDir {session : String}
    (h : Majority c session sk disks) (hne : sk.dataDir ≠ "") :
    ∃ u, sk.dataDir = VersionIds.formatUuidHex u := by
  have hpos : 0 < ((List.ofFn disks).filterMap (keyOn c session)).count sk := by
    rw [Majority] at h
    omega
  obtain ⟨t,-,ht⟩ := List.mem_filterMap.mp (List.count_pos_iff.mp hpos)
  rw [keyOn] at ht
  split at ht
  · rename_i raw _
    cases hv : versionFrom c multipartVol session raw none false with
    | error e => rw [hv] at ht; cases ht
    | ok fi =>
      rw [hv] at ht
      obtain rfl := Option.some.inj ht
      obtain ⟨u,hu⟩ := versionFrom_dataDir c session raw fi hv
      rw [VersionIds.formatDataDirBytes] at hu
      split_ifs at hu
      · exact absurd hu hne
      · exact ⟨u,hu⟩
  · cases ht

theorem Majority.fileName {session : String}
    (h : Majority c session sk disks) (hne : sk.dataDir ≠ "") : FileName sk.dataDir := by
  obtain ⟨u,hu⟩ := h.dataDir c hne
  rw [hu]
  exact fileName_formatUuidHex u

theorem readSessionFi_quiet (staging : Path) (session dataDir path : String) (faults : Fin n → Option IoError) :
    QuietOp (partsDir session dataDir) staging (readSessionFi c faults path) := by
  apply quietOp_bind (quietOp_onDisks _ _ fun i => quiet_readVersion c _ _ _ _)
  intro _
  apply quietOp_bind (quietOp_ofExcept _)
  intro fi
  split_ifs
  · exact quietOp_ofExcept (.error (invalid "session xl.meta missing data_dir"))
  · exact quietOp_ofExcept (.ok fi)

theorem keyOn_of_read (fault : Option IoError) (t : Disk) (k : SessionKey)
    (h : (value (attempt fault (readVersion c multipartVol session none false) t)).toOption.map
      sessionKey = some k) : keyOn c session t = some k := by
  cases fault with
  | some e => cases h
  | none =>
    cases hv : value (readVersion c multipartVol session none false t) with
    | error e => rw [attempt, hv] at h; cases h
    | ok fi =>
      rw [attempt, hv] at h
      obtain ⟨raw,hraw,hfrom⟩ := readVersion_ok c multipartVol session _ _ _ _ hv
      rw [keyOn, (readFile_eq_ok _ _ _).mp hraw]
      simp only [hfrom]
      exact h

theorem readSessionFi_ok (faults : Fin n → Option IoError)
    (disks disks' : Disks n) (fi : FileInfo)
    (h : (readSessionFi c faults session).run disks = .ok fi disks') :
    Majority c session (sessionKey fi) disks ∧ fi.dataDir ≠ "" := by
  rw [readSessionFi, Prog.run_bind, bind_of_ok (run_onDisks _ _ disks), Prog.run_bind,
    run_bind_eq_ok] at h
  obtain ⟨fi',d,hpick,h⟩ := h
  rw [Prog.run_ofExcept, lift_eq_ok] at hpick
  have hfi : fi' = fi ∧ fi'.dataDir ≠ "" := by
    split_ifs at h with hdir
    · cases h
    · exact ⟨((pure_eq_ok fi' fi _ _).mp h).1,hdir⟩
  obtain ⟨rfl,hdir⟩ := hfi
  refine ⟨?_,hdir⟩
  have hcount := pickSession_count _ _ _ hpick.1
  rw [List.length_ofFn] at hcount
  apply hcount.trans
  rw [List.ofFn_eq_map, List.ofFn_eq_map, List.count_filterMap, List.count_filterMap,
    List.countP_map, List.countP_map]
  apply List.countP_mono_left
  intro i _ hi
  simpa using keyOn_of_read c session (faults i) (disks i) _ (by simpa using hi)

theorem pickSession_found (metas : List (Except IoError FileInfo))
    (sk : SessionKey) (h : metas.length/2+1 ≤
      (metas.filterMap (fun r => r.toOption.map sessionKey)).count sk) :
    ∃ fi, pickSession session metas = .ok fi := by
  rw [← List.map_filterMap] at h
  obtain ⟨k,hk⟩ := majorityKey_found (metas.length/2+1) []
    ((metas.filterMap Except.toOption).map sessionKey) sk (by simp) (by simpa using h)
  simp only [pickSession, hk]
  exact ⟨_,rfl⟩

theorem readSessionFi_found (sk : SessionKey) (disks : Disks n)
    (hmaj : Majority c session sk disks) (hne : sk.dataDir ≠ "")
    (hvol : ∀ i, Passable (disks i) [multipartVol]) :
    ∃ fi d, (readSessionFi c (fun _ => none) session).run disks = .ok fi d ∧
      sessionKey fi = sk := by
  have hkeys : (List.ofFn (fun i => value (readVersion c multipartVol session none false
      (disks i)))).filterMap (fun r => r.toOption.map sessionKey) =
      (List.ofFn disks).filterMap (keyOn c session) := by
    refine filterMap_ofFn_congr fun i => ?_
    obtain ⟨s,hs,-⟩ := requireVol_progress multipartVol (by decide) (disks i) (hvol i)
    rw [readVersion_value c _ _ _ ⟨(),s,hs⟩, keyOn]
    cases hr : Lib.FileTree.readFile (disks i) (metaPath multipartVol session) with
    | ok raw =>
      rw [(readFile_eq_ok _ _ _).mp hr]
    | error e =>
      cases hk : look (disks i) (metaPath multipartVol session) with
      | none => rfl
      | some k =>
        cases k with
        | dir => rfl
        | file raw =>
          rw [(readFile_eq_ok _ _ _).mpr hk] at hr
          cases hr
  have hcount := hmaj
  rw [Majority, ← hkeys] at hcount
  obtain ⟨fi,hfi⟩ := pickSession_found session _ sk (by rw [List.length_ofFn]; exact hcount)
  have hpicked := pickSession_count session _ fi hfi
  rw [List.length_ofFn, hkeys] at hpicked
  have hkey : sessionKey fi = sk := hmaj.unique c hpicked
  have hdir : fi.dataDir ≠ "" := by
    rw [← hkey] at hne
    exact hne
  refine ⟨fi,fun i => left (readVersion c multipartVol session none false (disks i)),?_,hkey⟩
  rw [readSessionFi, Prog.run_bind, bind_of_ok (run_onDisks _ _ disks), Prog.run_bind]
  simp only [attempt, hfi]
  rw [Prog.run_ofExcept, bind_of_ok ((lift_eq_ok _ _ _ _).mpr ⟨rfl,rfl⟩), if_neg hdir]
  rfl

end Openlake.Sessions
