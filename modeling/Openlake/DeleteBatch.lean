import Openlake.Cluster
import Openlake.Consensus
import Openlake.Lib.Grouping
import Openlake.Lib.Outcomes

/-!
# Deleting many keys with one call

The keys are grouped by the set that holds them, each drive of a set gets one
batch with the set's keys, and the answers are counted key by key. The iteration
order of the hash map of groups and all answers of the drives are parameters.
-/

set_option autoImplicit false

namespace Openlake.DeleteBatch
open Openlake.Types Cluster Consensus Lib.Tally Lib.Grouping Lib.Outcomes

/-- What a drive answers to a batch: one result for each path, or an error for all of it. -/
abbrev Answer := Except IoError (List (Except IoError Unit))

/-- The answer may differ between the calls made for different sets and slots. -/
structure Backend where
  deleteBatch (set slot : ℕ) (volume : String) (paths : List String) (recursive : Bool) : Answer

structure KeyCounts where
  ok : ℕ := 0
  notFound : ℕ := 0
  firstErr : Option IoError := none
  deriving DecidableEq, Repr

def KeyCounts.count (k : KeyCounts) : Except IoError Unit → KeyCounts
  | .ok () => { k with ok := k.ok+1 }
  | .error (.fileNotFound ..) => { k with notFound := k.notFound+1 }
  | .error e =>
    match k.firstErr with
    | none => { k with firstErr := some (.io .other e.display) }
    | some _ => k

/-- Results past the keys of the batch are dropped, missing ones count for nothing. -/
def countKeys : List KeyCounts → List (Except IoError Unit) → List KeyCounts
  | k::ks, r::rs => k.count r::countKeys ks rs
  | ks, _ => ks

def countDrive (ks : List KeyCounts) : Answer → List KeyCounts
  | .ok perKey => countKeys ks perKey
  | .error _ => ks

def KeyCounts.result (quorum : ℕ) (bucket key : String) (k : KeyCounts) :
    Except StorageError Unit :=
  if quorum ≤ k.ok+k.notFound then .ok ()
  else
    match k.firstErr with
    | some e => .error (mapObjectMissing bucket key e)
    | none => .error (.objectNotFound bucket key)

section Request

variable (c : ClusterConfig) (sip : Bytes → UInt64) (backends : DiskAddr → Option Backend)
  (order : IterOrder (ℕ × List (String × ℕ))) (bucket : String) (keys : List String)

def bySet : List (ℕ × List (String × ℕ)) :=
  tally (fun e => c.setIndexFor sip bucket e.1) pushStep keys.zipIdx []

def perDrive (set : ℕ) (keyStrs : List String) : Option (List Answer) :=
  (c.setDisks set).map (fun disks => disks.zipIdx.filterMap (fun d =>
    (backends d.1).map (fun b => b.deleteBatch set d.2 bucket keyStrs true)))

def setResult (group : ℕ × List (String × ℕ)) : Option (List (String × ℕ) × List Answer) :=
  (perDrive c backends bucket group.1 (group.2.map Prod.fst)).map (fun answers =>
    (group.2,answers))

def keyResults (quorum : ℕ) (r : List (String × ℕ) × List Answer) :
    List (ℕ × Except StorageError Unit) :=
  List.zipWith (fun e k => (e.2,KeyCounts.result quorum bucket e.1 k)) r.1
    (r.2.foldl countDrive (List.replicate r.1.length {}))

/-- There is no result when the division in `num_sets` or the slice of a set panics. -/
def deleteObjects : Option (Except StorageError (List (Except StorageError Unit))) :=
  if keys.isEmpty then some (.ok [])
  else if c.totalDisks ≠ 0 ∧ c.setDriveCount = 0 then none
  else do
    let setResults ← (order.arrange (bySet c sip bucket keys)).mapM (setResult c backends bucket)
    return .ok (setResults.foldl
      (fun out r => (keyResults bucket c.writeQuorum r).foldl write out)
      (List.replicate keys.length (.ok ())))

end Request

def acknowledged : Except IoError Unit → Bool
  | .ok () => true
  | .error (.fileNotFound ..) => true
  | .error _ => false

def acknowledges (p : ℕ) : Answer → Bool
  | .ok perKey => perKey[p]?.any acknowledged
  | .error _ => false

section Counting

theorem total_count (k : KeyCounts) (r : Except IoError Unit) :
    (k.count r).ok+(k.count r).notFound =
      k.ok+k.notFound+if acknowledged r then 1 else 0 := by
  match r with
  | .ok () =>
    simp only [KeyCounts.count, acknowledged, if_true]
    omega
  | .error e =>
    cases e <;> simp only [KeyCounts.count, acknowledged, if_true, Bool.false_eq_true, if_false]
    case fileNotFound => omega
    all_goals cases k.firstErr <;> rfl

theorem getElem?_countKeys (ks : List KeyCounts) (rs : List (Except IoError Unit)) (p : ℕ) :
    (countKeys ks rs)[p]? =
      ks[p]?.map (fun k => rs[p]?.elim k (fun r => k.count r)) := by
  induction ks generalizing rs p with
  | nil => rfl
  | cons k ks ih =>
    cases rs with
    | nil => simp [countKeys]
    | cons r rs =>
      cases p with
      | zero => rfl
      | succ p => simpa [countKeys] using ih rs p

variable {ks : List KeyCounts} {p : ℕ}

theorem countDrive_total {k : KeyCounts} (h : ks[p]? = some k)
    (a : Answer) : ∃ k', (countDrive ks a)[p]? = some k' ∧
      k'.ok+k'.notFound = k.ok+k.notFound+if acknowledges p a then 1 else 0 := by
  match a with
  | .error e => exact ⟨k,h,rfl⟩
  | .ok perKey =>
    rw [countDrive, getElem?_countKeys, h]
    refine ⟨_,rfl,?_⟩
    cases hr : perKey[p]? with
    | none => simp [acknowledges, hr]
    | some r =>
      rw [acknowledges, hr]
      exact total_count k r

theorem foldl_countDrive (answers : List Answer) {k : KeyCounts}
    (h : ks[p]? = some k) : ∃ k', (answers.foldl countDrive ks)[p]? = some k' ∧
      k'.ok+k'.notFound = k.ok+k.notFound+answers.countP (acknowledges p) := by
  induction answers generalizing ks k with
  | nil => exact ⟨k,h,rfl⟩
  | cons a answers ih =>
    obtain ⟨k₁,h₁,ht₁⟩ := countDrive_total h a
    obtain ⟨k₂,h₂,ht₂⟩ := ih h₁
    refine ⟨k₂,h₂,?_⟩
    rw [ht₂, ht₁, List.countP_cons]
    omega

theorem result_eq_ok (quorum : ℕ) (bucket key : String) (k : KeyCounts) :
    k.result quorum bucket key = .ok () ↔ quorum ≤ k.ok+k.notFound := by
  rw [KeyCounts.result]
  split_ifs with h
  · simp [h]
  · cases k.firstErr <;> simp [h]

variable {entries : List (String × ℕ)}

theorem mem_keyResults {quorum : ℕ} {bucket : String}
    {answers : List Answer} {w : ℕ × Except StorageError Unit} :
    w ∈ keyResults bucket quorum (entries,answers) ↔ ∃ (p : ℕ) (e : String × ℕ) (k : KeyCounts),
      entries[p]? = some e ∧
      (answers.foldl countDrive (List.replicate entries.length {}))[p]? = some k ∧
      w = (e.2,k.result quorum bucket e.1) := by
  simp only [keyResults, List.mem_iff_getElem?, List.getElem?_zipWith_eq_some]
  constructor
  · rintro ⟨p,e,k,he,hk,rfl⟩
    exact ⟨p,e,k,he,hk,rfl⟩
  · rintro ⟨p,e,k,he,hk,rfl⟩
    exact ⟨p,e,k,he,hk,rfl⟩

/-- The result of the key at a position of a batch counts the drives that acknowledged it. -/
theorem keyResult_counts {e : String × ℕ}
    (he : entries[p]? = some e) (answers : List Answer) (quorum : ℕ) (bucket : String) :
    ∃ k, (answers.foldl countDrive (List.replicate entries.length {}))[p]? = some k ∧
      (k.result quorum bucket e.1 = .ok () ↔ quorum ≤ answers.countP (acknowledges p)) := by
  have hp : p < entries.length := (List.getElem?_eq_some_iff.mp he).1
  obtain ⟨k,hk,htotal⟩ := foldl_countDrive answers
    (show (List.replicate entries.length ({} : KeyCounts))[p]? = some {} by simp [hp])
  refine ⟨k,hk,?_⟩
  rw [result_eq_ok, htotal]
  simp

end Counting

section Groups

variable (c : ClusterConfig) (sip : Bytes → UInt64) (bucket : String) (keys : List String)

def batch (set : ℕ) : List String :=
  keys.filter (fun k => set = c.setIndexFor sip bucket k)

/-- How many keys before the `i`-th go to the same set. -/
def position (set i : ℕ) : ℕ :=
  (keys.take i).countP (fun k => set = c.setIndexFor sip bucket k)

def entriesOf (set : ℕ) : List (String × ℕ) :=
  keys.zipIdx.filter (fun e => set = c.setIndexFor sip bucket e.1)

variable {c sip bucket keys}

theorem mem_bySet {set : ℕ} {entries : List (String × ℕ)} :
    (set,entries) ∈ bySet c sip bucket keys ↔
      entries = entriesOf c sip bucket keys set ∧ entries ≠ [] := mem_tally_push _ _ _ _

theorem entriesOf_keys (set : ℕ) :
    (entriesOf c sip bucket keys set).map Prod.fst = batch c sip bucket keys set := by
  have h : (keys.zipIdx.map Prod.fst).filter (fun k => set = c.setIndexFor sip bucket k) =
      (entriesOf c sip bucket keys set).map Prod.fst := List.filter_map
  rw [← h, List.zipIdx_map_fst, batch]

theorem getElem?_entriesOf {set p i : ℕ} {key : String} :
    (entriesOf c sip bucket keys set)[p]? = some (key,i) ↔
      keys[i]? = some key ∧ c.setIndexFor sip bucket key = set ∧
        position c sip bucket keys set i = p := by
  have hcount : (keys.zipIdx.take i).countP
      (fun e => decide (set = c.setIndexFor sip bucket e.1)) =
      position c sip bucket keys set i := by
    have h : ((keys.zipIdx.take i).map Prod.fst).countP
        (fun k => decide (set = c.setIndexFor sip bucket k)) = _ := List.countP_map
    rw [List.map_take, List.zipIdx_map_fst] at h
    exact h.symm
  rw [entriesOf, getElem?_filter_iff]
  constructor
  · rintro ⟨j,hj,hset,rfl⟩
    obtain ⟨hkey,rfl⟩ : keys[j]? = some key ∧ j = i := by
      rw [List.getElem?_zipIdx] at hj
      obtain ⟨k,hk,he⟩ := Option.map_eq_some_iff.mp hj
      obtain ⟨rfl,hji⟩ := Prod.mk.inj he
      exact ⟨hk,by omega⟩
    exact ⟨hkey,(of_decide_eq_true hset).symm,hcount.symm⟩
  · rintro ⟨hkey,rfl,rfl⟩
    exact ⟨i,by simp [List.getElem?_zipIdx, hkey],by simp,hcount⟩

theorem getElem?_batch {i : ℕ} {key : String} (h : keys[i]? = some key) :
    let set := c.setIndexFor sip bucket key
    (batch c sip bucket keys set)[position c sip bucket keys set i]? = some key := by
  intro set
  rw [← entriesOf_keys, List.getElem?_map, getElem?_entriesOf.mpr ⟨h,rfl,rfl⟩]
  rfl

end Groups

section Results

variable {c : ClusterConfig} {sip : Bytes → UInt64} {backends : DiskAddr → Option Backend}
  {order : IterOrder (ℕ × List (String × ℕ))} {bucket : String} {keys : List String}

theorem setResult_eq_some {set : ℕ} {entries : List (String × ℕ)}
    {r : List (String × ℕ) × List Answer} :
    setResult c backends bucket (set,entries) = some r ↔
      perDrive c backends bucket set (entries.map Prod.fst) = some r.2 ∧ r.1 = entries := by
  obtain ⟨entries',answers⟩ := r
  simp only [setResult, Option.map_eq_some_iff, Prod.mk.injEq]
  constructor
  · rintro ⟨_,h,rfl,rfl⟩
    exact ⟨h,rfl⟩
  · rintro ⟨h,rfl⟩
    exact ⟨_,h,rfl,rfl⟩

theorem exists_result (hdrives : 0 < c.setDriveCount) (henough : c.setDriveCount ≤ c.totalDisks) :
    ∀ group ∈ order.arrange (bySet c sip bucket keys),
      ∃ r, setResult c backends bucket group = some r := by
  rintro ⟨set,entries⟩ hgroup
  obtain ⟨rfl,hne⟩ := mem_bySet.mp ((order.mem_arrange _ _).mp hgroup)
  obtain ⟨e,he⟩ := List.exists_mem_of_ne_nil _ hne
  have hset : set = c.setIndexFor sip bucket e.1 := of_decide_eq_true (List.mem_filter.mp he).2
  obtain ⟨disks,hdisks⟩ := setDisks_setIndexFor c sip hdrives henough bucket e.1
  exact ⟨_,by rw [setResult, perDrive, hset, hdisks]; rfl⟩

section Sets

variable {setResults : List (List (String × ℕ) × List Answer)}
  (h : (order.arrange (bySet c sip bucket keys)).mapM (setResult c backends bucket) =
    some setResults)

include h

theorem mem_setResults {r : List (String × ℕ) × List Answer} (hr : r ∈ setResults) :
    ∃ set, r.1 = entriesOf c sip bucket keys set ∧
      perDrive c backends bucket set (batch c sip bucket keys set) = some r.2 := by
  obtain ⟨⟨set,entries⟩,hgroup,hresult⟩ := (mem_of_mapM h).mp hr
  obtain ⟨rfl,-⟩ := mem_bySet.mp ((order.mem_arrange _ _).mp hgroup)
  obtain ⟨hanswers,hentries⟩ := setResult_eq_some.mp hresult
  exact ⟨set,hentries,by rwa [entriesOf_keys] at hanswers⟩

theorem exists_setResult {i : ℕ} {key : String} (hkey : keys[i]? = some key) :
    ∃ answers, perDrive c backends bucket (c.setIndexFor sip bucket key)
        (batch c sip bucket keys (c.setIndexFor sip bucket key)) = some answers ∧
      (entriesOf c sip bucket keys (c.setIndexFor sip bucket key),answers) ∈ setResults := by
  have hentry : (entriesOf c sip bucket keys (c.setIndexFor sip bucket key))[_]? = some (key,i) :=
    getElem?_entriesOf.mpr ⟨hkey,rfl,rfl⟩
  have hgroup : (c.setIndexFor sip bucket key,entriesOf c sip bucket keys
      (c.setIndexFor sip bucket key)) ∈ order.arrange (bySet c sip bucket keys) :=
    (order.mem_arrange _ _).mpr (mem_bySet.mpr ⟨rfl,fun hnil => by simp [hnil] at hentry⟩)
  obtain ⟨r,hresult⟩ := exists_mapM_iff.mp ⟨_,h⟩ _ hgroup
  have hr := (mem_of_mapM h).mpr ⟨_,hgroup,hresult⟩
  obtain ⟨hanswers,hentries⟩ := setResult_eq_some.mp hresult
  rw [entriesOf_keys] at hanswers
  exact ⟨r.2,hanswers,by rwa [← hentries]⟩

/-- The result written to the place of a key counts the drives of its set that acknowledged
it in its batch. -/
theorem getElem?_written {i : ℕ} {key : String} (hkey : keys[i]? = some key)
    (out : List (Except StorageError Unit)) (hout : out.length = keys.length) (quorum : ℕ) :
    let set := c.setIndexFor sip bucket key
    ∃ answers, perDrive c backends bucket set (batch c sip bucket keys set) = some answers ∧
      ∃ r, ((setResults.flatMap (keyResults bucket quorum)).foldl write out)[i]? = some r ∧
        (r = .ok () ↔ quorum ≤
          answers.countP (acknowledges (position c sip bucket keys set i))) := by
  intro set
  obtain ⟨answers,hanswers,hmem⟩ := exists_setResult h hkey
  have hentry : (entriesOf c sip bucket keys set)[_]? = some (key,i) :=
    getElem?_entriesOf.mpr ⟨hkey,rfl,rfl⟩
  obtain ⟨k,hk,hcount⟩ := keyResult_counts hentry answers quorum bucket
  refine ⟨answers,hanswers,k.result quorum bucket key,?_,hcount⟩
  apply getElem?_foldl_write
  · rw [hout]
    exact (List.getElem?_eq_some_iff.mp hkey).1
  · exact List.mem_flatMap.mpr ⟨_,hmem,mem_keyResults.mpr ⟨_,_,k,hentry,hk,rfl⟩⟩
  · intro w hw hi
    obtain ⟨⟨entries,answers'⟩,hr,hw⟩ := List.mem_flatMap.mp hw
    obtain ⟨set',hentries,hanswers'⟩ := mem_setResults h hr
    obtain rfl : entries = entriesOf c sip bucket keys set' := hentries
    obtain ⟨p,⟨key',j⟩,k',hentry',hk',rfl⟩ := mem_keyResults.mp hw
    obtain rfl : j = i := hi
    -- Both writes come from the entry of the same key.
    obtain ⟨hkey',hset,rfl⟩ := getElem?_entriesOf.mp hentry'
    obtain rfl := Option.some.inj (hkey.symm.trans hkey')
    obtain rfl : set = set' := hset
    obtain rfl : answers' = answers := Option.some.inj (hanswers'.symm.trans hanswers)
    rw [Option.some.inj (hk'.symm.trans hk)]

end Sets

variable (c sip backends order bucket keys)

/-- A batch delete returns in every cluster that has a set. It has one result for each key, in
the order of the keys, and a key is reported deleted exactly when a write quorum of the drives
of its set acknowledged it at its position in the batch. -/
theorem deleted_keys_acknowledged :
    (0 < c.setDriveCount → c.setDriveCount ≤ c.totalDisks →
      ∃ out, deleteObjects c sip backends order bucket keys = some out) ∧
    ∀ out, deleteObjects c sip backends order bucket keys = some out →
      ∃ results, out = .ok results ∧ results.length = keys.length ∧
        ∀ (i : ℕ) (key : String), keys[i]? = some key →
          let set := c.setIndexFor sip bucket key
          let p := position c sip bucket keys set i
          (batch c sip bucket keys set)[p]? = some key ∧
            ∃ answers,
              perDrive c backends bucket set (batch c sip bucket keys set) = some answers ∧
              ∃ r, results[i]? = some r ∧
                (r = .ok () ↔ c.writeQuorum ≤ answers.countP (acknowledges p)) := by
  constructor
  · intro hdrives henough
    rw [deleteObjects]
    split_ifs with hempty hpanic
    · exact ⟨_,rfl⟩
    · omega
    · obtain ⟨setResults,h⟩ := exists_mapM_iff.mpr (exists_result hdrives henough)
      exact ⟨_,by rw [h]; rfl⟩
  · intro out hout
    rw [deleteObjects] at hout
    split_ifs at hout with hempty hpanic
    · obtain rfl := Option.some.inj hout
      obtain rfl : keys = [] := List.isEmpty_iff.mp hempty
      exact ⟨[],rfl,rfl,by simp⟩
    · obtain ⟨setResults,h,hret⟩ := Option.bind_eq_some_iff.mp hout
      refine ⟨_,(Option.some.inj hret).symm,?_,fun i key hkey => ⟨getElem?_batch hkey,?_⟩⟩
      · rw [← List.foldl_flatMap, length_foldl_write, List.length_replicate]
      · rw [← List.foldl_flatMap]
        exact getElem?_written h hkey _ List.length_replicate _

end Results

def twoSets : ClusterConfig := ⟨[⟨0,2⟩,⟨1,2⟩],2,1⟩

def byLength (bytes : Bytes) : UInt64 := UInt64.ofNat bytes.length

/-- Every drive deletes its first key. One drive of the first set does not know its second
key, the other answers nothing for it. -/
def sampleDrive (_ : DiskAddr) : Option Backend :=
  some ⟨fun set slot volume paths _ => .ok (.ok () ::
    if set = 0 ∧ slot = 0 then paths.tail.map (fun p => .error (.fileNotFound volume p)) else [])⟩

def sampleDelete : Option (Except StorageError (List (Except StorageError Unit))) :=
  deleteObjects twoSets byLength sampleDrive (.insertion _) "b" ["aa","c","dd"]

example : sampleDelete =
    some (.ok [.ok (),.ok (),.error (.objectNotFound "b" "dd")]) := by
  decide +kernel

theorem sampleDelete_returns : 0 < twoSets.setDriveCount ∧
    twoSets.setDriveCount ≤ twoSets.totalDisks ∧ ∃ out, sampleDelete = some out := by
  have hdrives : 0 < twoSets.setDriveCount := by decide
  have henough : twoSets.setDriveCount ≤ twoSets.totalDisks := by decide
  exact ⟨hdrives,henough,(deleted_keys_acknowledged twoSets byLength sampleDrive (.insertion _)
    "b" ["aa","c","dd"]).1 hdrives henough⟩

end Openlake.DeleteBatch
