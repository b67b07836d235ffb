import Openlake.Completion
import Openlake.HeldParts

/-!
# Parts with a sidecar

One sidecar is enough for a part to be listed, and an attempt that fails can
leave one with fewer shards than the code needs. As long as each attempt clears
what is left of the one before, and has its shards on enough disks when it
leaves a sidecar, a part with a sidecar is held by one of the attempts.
-/

set_option autoImplicit false

namespace Openlake.ClearedParts
open Openlake.Types XlMeta LocalFs Promote Ec Multipart PartFiles PartAttempt Sessions PartRuns
open Lib.FileTree Lib.Effects

section Attempts

variable {n : ℕ} (c : MetaCodec) (sidecars : Rmp ObjectPartInfo) (md5 : Bytes → Bytes)
  (rs : ReedSolomon) (bucket key uploadId session : String) (sk : SessionKey)

/-- Disk `i` gets the shard and the sidecar of the attempt if it comes to its commit. -/
def Places (u : PartUpload n) (i : Fin n) : Prop :=
  (∀ j, u.faults.makeDir j = none) ∧ u.faults.renamePart i = none ∧ u.faults.writeMeta i = none

/-- The attempt leaves no older sidecar of its part, and if it leaves a sidecar
of its own it leaves no older shard and puts its shards on `D` disks. -/
structure Clears (u : PartUpload n) (disks : Disks n) : Prop where
  sidecars : ∀ i, look (disks i) (partsDir session sk.dataDir ++ [metaName u.partNumber]) = none ∨
    u.faults.deleteMeta i = none ∨ Places u i
  parts : (∃ i, Places u i) →
    (∀ i, look (disks i) (partsDir session sk.dataDir ++ [partName u.partNumber]) = none ∨
      u.faults.deletePart i = none ∨ u.faults.renamePart i = none) ∧
    sk.dataBlocks.toNat ≤ (List.finRange n).countP (fun i => u.faults.renamePart i = none)

structure HeldBy (disks : Disks n) (a : UInt32) (u : PartUpload n) (ec : Erasure) (etag : String)
    (sinks : List (PartSink n)) : Prop where
  number : u.partNumber = a
  inRange : checkPartNumber a = .ok ()
  code : Erasure.new sk.dataBlocks.toNat sk.parityBlocks.toNat = .ok ec
  encoded : u.encode md5 rs ec = .ok (etag,sinks)
  sidecar : ∀ i bytes, look (disks i) (partsDir session sk.dataDir ++ [metaName a]) =
    some (.file bytes) → sidecars.decode bytes = .ok (u.info ec etag)
  part : ∀ i, look (disks i) (partsDir session sk.dataDir ++ [partName a]) = none ∨
    look (disks i) (partsDir session sk.dataDir ++ [partName a]) = some (.file (shardOn sinks i))
  enough : sk.dataBlocks.toNat ≤ (List.finRange n).countP (fun i =>
    look (disks i) (partsDir session sk.dataDir ++ [partName a]) = some (.file (shardOn sinks i)))

def Whole (us : List (PartUpload n)) (disks : Disks n) : Prop :=
  ∀ a i, look (disks i) (partsDir session sk.dataDir ++ [metaName a]) ≠ none →
    ∃ u ∈ us, ∃ ec etag sinks, HeldBy sidecars md5 rs session sk disks a u ec etag sinks

variable {sidecars md5 rs session sk}

variable {us : List (PartUpload n)}

theorem Whole.congr {disks d : Disks n} (u : PartUpload n)
    (h : Whole sidecars md5 rs session sk us disks) (a : UInt32) (hlook : ∀ i x,
      x = partName a ∨ x = metaName a → look (d i) (partsDir session sk.dataDir ++ [x]) =
        look (disks i) (partsDir session sk.dataDir ++ [x])) (i : Fin n)
    (hsome : look (d i) (partsDir session sk.dataDir ++ [metaName a]) ≠ none) :
    ∃ v ∈ us ++ [u], ∃ ec etag sinks, HeldBy sidecars md5 rs session sk d a v ec etag sinks := by
  have hmeta := fun i => hlook i _ (.inr rfl)
  have hpart := fun i => hlook i _ (.inl rfl)
  rw [hmeta] at hsome
  obtain ⟨v,hv,ec,etag,sinks,held⟩ := h a i hsome
  refine ⟨v,List.mem_append_left _ hv,ec,etag,sinks,held.number,held.inRange,held.code,held.encoded,
    ?_,?_,?_⟩
  · intro i bytes hb
    rw [hmeta] at hb
    exact held.sidecar i bytes hb
  · intro i
    rw [hpart]
    exact held.part i
  · simp only [hpart]
    exact held.enough

variable {r : EStateM.Result StorageError (Disks n) ObjectPartInfo}

variable {u : PartUpload n}

theorem held_of_committed {ec : Erasure} {etag : String}
    {sinks : List (PartSink n)} {sidecar : Bytes} {disks : Disks n}
    (hnumber : checkPartNumber u.partNumber = .ok ())
    (hec : Erasure.new sk.dataBlocks.toNat sk.parityBlocks.toNat = .ok ec)
    (henc : u.encode md5 rs ec = .ok (etag,sinks))
    (hside : sidecars.encode (u.info ec etag) = .ok sidecar)
    (hnew : Committed session sk u ec etag sinks sidecar disks r) (hclears : Clears session sk u disks)
    (i : Fin n)
    (hsome : look (left r i) (partsDir session sk.dataDir ++ [metaName u.partNumber]) ≠ none) :
    HeldBy sidecars md5 rs session sk (left r) u.partNumber u ec etag sinks := by
  have hmeta : ∀ i, look (left r i) (partsDir session sk.dataDir ++ [metaName u.partNumber]) =
      some (.file sidecar) ∧ Places u i ∨
      look (left r i) (partsDir session sk.dataDir ++ [metaName u.partNumber]) = none := by
    intro i
    rw [(hnew.renewed i).metaEntry]
    split_ifs with hplaces hdel
    · exact .inl ⟨rfl,hplaces⟩
    · exact .inr rfl
    · exact .inr ((hclears.sidecars i).resolve_right fun h => h.elim hdel hplaces)
  have hplaces : Places u i := by
    rcases hmeta i with ⟨-,h⟩ | h
    · exact h
    · exact absurd h hsome
  obtain ⟨hold,hcount⟩ := hclears.parts ⟨i,hplaces⟩
  have hpart := fun i => (hnew.renewed i).partEntry
  refine ⟨rfl,hnumber,hec,henc,?_,?_,hcount.trans ?_⟩
  · intro j bytes hb
    rcases hmeta j with ⟨h,-⟩ | h
    · rw [h] at hb
      cases hb
      exact sidecars.round_trip _ _ hside
    · rw [h] at hb
      cases hb
  · intro j
    rw [hpart]
    split_ifs with hmoved hdel
    · exact .inr rfl
    · exact .inl rfl
    · exact .inl ((hold j).resolve_right fun h => h.elim hdel fun hr => hmoved ⟨hplaces.1,hr⟩)
  · apply List.countP_mono_left
    intro j _ hj
    rw [decide_eq_true_eq] at hj ⊢
    rw [hpart, if_pos ⟨hplaces.1,hj⟩]

theorem whole_next {disks : Disks n}
    (hnumber : checkPartNumber u.partNumber = .ok ())
    (hout : Outcome sidecars md5 rs session sk u disks r) (hclears : Clears session sk u disks)
    (h : Whole sidecars md5 rs session sk us disks) :
    Whole sidecars md5 rs session sk (us ++ [u]) (left r) := by
  intro a i hsome
  by_cases ha : a = u.partNumber
  · subst ha
    rcases hout with ⟨haside,-⟩ | ⟨ec,etag,sinks,sidecar,hec,henc,hside,hnew⟩
    · exact h.congr u _ (fun i x _ => (haside i).off _ (off_entry _ _ _ x [])) i hsome
    · exact ⟨u,by simp,ec,etag,sinks,
        held_of_committed hnumber hec henc hside hnew hclears i hsome⟩
  · apply h.congr u a _ i hsome
    intro i x hx
    have hother : x ≠ partName u.partNumber ∧ x ≠ metaName u.partNumber := by
      rcases hx with rfl | rfl
      · exact ⟨fun he => ha (partName_inj he),partName_ne_metaName _ _⟩
      · exact ⟨(partName_ne_metaName _ _).symm,fun he => ha (metaName_inj he)⟩
    apply hout.other i _ (off_entry _ _ _ _ [])
    · simpa using hother.1
    · simpa using hother.2

variable (sidecars md5 rs sk)

variable {start disks : Disks n}

theorem whole_attempts (hmaj : Majority c (sessionPath bucket key uploadId) sk start)
    (hfresh : ∀ i, Fresh (partsDir (sessionPath bucket key uploadId) sk.dataDir) (start i))
    (h : Attempts c sidecars md5 rs bucket key uploadId
      (Clears (sessionPath bucket key uploadId) sk) start us disks) :
    Whole sidecars md5 rs (sessionPath bucket key uploadId) sk us disks := by
  induction h with
  | start =>
    intro a i hsome
    exact absurd ((hfresh i).empty _) hsome
  | @next us disks u hrun hid hclears ih =>
    obtain ⟨hmaj',hroom'⟩ := hrun.session hmaj fun i => (hfresh i).roomy
    cases hnumber : checkPartNumber u.partNumber with
    | ok x =>
      exact whole_next hnumber
        (uploadPart_outcome c sidecars md5 rs bucket key uploadId hid _ hmaj' hroom') hclears ih
    | error e =>
      have hrefused : (uploadPart c sidecars md5 rs bucket key uploadId u).run disks =
          .error e disks := by
        rw [uploadPart, hnumber]
        rfl
      rw [hrefused]
      intro a i hsome
      exact ih.congr u a (fun _ _ _ => rfl) i hsome

variable {c sidecars md5 rs bucket key uploadId sk}

variable {ok : PartUpload n → Disks n → Prop}

/-- Attempts leave what is not in the directory of the parts or in a staging directory. -/
theorem attempts_keep (h : Attempts c sidecars md5 rs bucket key uploadId ok start us disks)
    (hmaj : Majority c (sessionPath bucket key uploadId) sk start)
    (hroom : ∀ i, Roomy (partsDir (sessionPath bucket key uploadId) sk.dataDir) (start i)) (q : Path)
    (hoff : ∀ id, Off (partsDir (sessionPath bucket key uploadId) sk.dataDir) (stagingDir id) q)
    (hentry : ∀ x, q ≠ partsDir (sessionPath bucket key uploadId) sk.dataDir ++ [x]) (i : Fin n) :
    look (disks i) q = look (start i) q := by
  induction h with
  | start => rfl
  | next u hrun hid _ ih =>
    obtain ⟨hmaj',hroom'⟩ := hrun.session hmaj hroom
    rw [← ih]
    exact (uploadPart_outcome c sidecars md5 rs bucket key uploadId hid _ hmaj' hroom').other i q
      (hoff _) (hentry _) (hentry _)

theorem off_user (session dataDir id : String) (hname : isSystemVol bucket = false) (r : Path) :
    Off (partsDir session dataDir) (stagingDir id) (bucket::r) := by
  have hmulti : bucket ≠ multipartVol := by rintro rfl; cases hname
  have hstage : bucket ≠ stagingVol := by rintro rfl; cases hname
  exact ⟨fun h => hmulti (List.cons_prefix_cons.mp h).1,
    fun h => hstage (List.cons_prefix_cons.mp h).1,fun h => hstage (List.cons_prefix_cons.mp h).1.symm⟩

theorem attempts_keep_bucket (hname : isSystemVol bucket = false)
    (h : Attempts c sidecars md5 rs bucket key uploadId ok start us disks)
    (hmaj : Majority c (sessionPath bucket key uploadId) sk start)
    (hroom : ∀ i, Roomy (partsDir (sessionPath bucket key uploadId) sk.dataDir) (start i))
    (r : Path) (i : Fin n) : look (disks i) (bucket::r) = look (start i) (bucket::r) := by
  apply attempts_keep h hmaj hroom _ (fun id => off_user _ _ _ hname r)
  rintro x he
  obtain rfl := (List.cons.inj he).1
  cases hname

end Attempts

end Openlake.ClearedParts
