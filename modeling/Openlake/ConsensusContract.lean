import Openlake.ConsensusVerdict
import Openlake.VersionIds

/-!
# What an accepted record shares with its quorum

The contract hash runs over a concatenation without lengths. A version id is
self-delimiting and the etag is fixed by the earlier vote, so those fields are
shared by every disk that voted for the accepted hash. The part table and the
erasure geometry are shared by the disks that agree on where the table ends.
-/

set_option autoImplicit false

namespace Openlake.ConsensusContract
open Openlake.Types Consensus ConsensusVerdict VersionIds Lib.ByteCodec Lib.Tally

def striped (fi : FileInfo) : Bool := !fi.deleted && fi.size ≠ 0

def SameLayout (fi r : FileInfo) : Prop :=
  r.parts.length = fi.parts.length ∨
    (striped r ∧ striped fi ∧ r.erasure.distribution.length = fi.erasure.distribution.length)

structure Agrees (fi r : FileInfo) : Prop where
  versionId : r.versionId = fi.versionId
  modTimeMs : r.modTimeMs = fi.modTimeMs
  etag : etagOf r = etagOf fi
  deleted : r.deleted = fi.deleted
  parts : SameLayout fi r →
    r.parts.map (fun p => (p.number,p.size)) = fi.parts.map (fun p => (p.number,p.size))
  striped : SameLayout fi r → striped r = striped fi
  geometry : SameLayout fi r → Openlake.ConsensusContract.striped fi →
    r.erasure.dataBlocks = fi.erasure.dataBlocks ∧
    r.erasure.parityBlocks = fi.erasure.parityBlocks ∧
    r.erasure.blockSize = fi.erasure.blockSize ∧
    r.erasure.distribution = fi.erasure.distribution

theorem length_partContract (p : ObjectPartInfo) : (partContract p).length = 12 := by
  simp [partContract]

theorem partContract_inj (p q : ObjectPartInfo) (h : partContract p = partContract q) :
    (p.number,p.size) = (q.number,q.size) := by
  obtain ⟨hn,hs⟩ := List.append_inj h (by simp)
  have hn' := leBytes_inj 4 _ _ p.number.toUInt32.toNat_lt q.number.toUInt32.toNat_lt hn
  have hs' := leBytes_inj 8 _ _ p.size.toUInt64.toNat_lt q.size.toUInt64.toNat_lt hs
  have hnum : p.number = q.number := by
    rw [← Int32.toInt32_toUInt32 p.number, UInt32.toNat_inj.mp hn', Int32.toInt32_toUInt32]
  have hsize : p.size = q.size := by
    rw [← Int64.toInt64_toUInt64 p.size, UInt64.toNat_inj.mp hs', Int64.toInt64_toUInt64]
  rw [hnum, hsize]

theorem length_parts (ps : List ObjectPartInfo) :
    (ps.flatMap partContract).length = 12*ps.length := by
  induction ps with
  | nil => rfl
  | cons p ps ih =>
    rw [List.flatMap_cons, List.length_append, ih, length_partContract, List.length_cons]
    omega

theorem parts_inj (ps qs : List ObjectPartInfo) (hlen : ps.length = qs.length)
    (h : ps.flatMap partContract = qs.flatMap partContract) :
    ps.map (fun p => (p.number,p.size)) = qs.map (fun p => (p.number,p.size)) := by
  induction ps generalizing qs with
  | nil =>
    obtain rfl := List.eq_nil_of_length_eq_zero hlen.symm
    rfl
  | cons p ps ih =>
    cases qs with
    | nil => simp at hlen
    | cons q qs =>
      rw [List.flatMap_cons, List.flatMap_cons] at h
      obtain ⟨hp,hps⟩ := List.append_inj h (by simp [length_partContract])
      rw [List.map_cons, List.map_cons, partContract_inj p q hp, ih qs (by simpa using hlen) hps]

theorem erasureContract_striped (fi : FileInfo) (h : striped fi) :
    erasureContract fi = [fi.erasure.dataBlocks,fi.erasure.parityBlocks] ++
      leBytes 4 fi.erasure.blockSize.toNat ++ fi.erasure.distribution := by
  rw [erasureContract]
  exact if_pos h

theorem erasureContract_not_striped (fi : FileInfo) (h : striped fi = false) :
    erasureContract fi = [] := by
  rw [erasureContract]
  exact if_neg (by simpa [striped] using h)

theorem length_erasureContract (fi : FileInfo) (h : striped fi) :
    (erasureContract fi).length = 6+fi.erasure.distribution.length := by
  rw [erasureContract_striped fi h]
  simp
  omega

theorem erasureContract_inj (r fi : FileInfo) (h : erasureContract r = erasureContract fi) :
    striped r = striped fi ∧ (striped fi →
      r.erasure.dataBlocks = fi.erasure.dataBlocks ∧
      r.erasure.parityBlocks = fi.erasure.parityBlocks ∧
      r.erasure.blockSize = fi.erasure.blockSize ∧
      r.erasure.distribution = fi.erasure.distribution) := by
  have hsame : striped r = striped fi := by
    cases hr : striped r <;> cases hf : striped fi
    · rfl
    · have := length_erasureContract fi hf
      rw [← h, erasureContract_not_striped r hr] at this
      simp at this
      omega
    · have := length_erasureContract r hr
      rw [h, erasureContract_not_striped fi hf] at this
      simp at this
      omega
    · rfl
  refine ⟨hsame,fun hf => ?_⟩
  rw [erasureContract_striped r (hsame ▸ hf), erasureContract_striped fi hf] at h
  obtain ⟨hhead,hdist⟩ := List.append_inj h (by simp)
  obtain ⟨hdp,hbs⟩ := List.append_inj hhead (by simp)
  obtain ⟨hd,hp⟩ := List.cons.inj hdp
  have hb := leBytes_inj 4 _ _ r.erasure.blockSize.toNat_lt fi.erasure.blockSize.toNat_lt hbs
  exact ⟨hd,(List.cons.inj hp).1,UInt32.toNat_inj.mp hb,hdist⟩

theorem layout_length (r fi : FileInfo) (h : SameLayout fi r)
    (hc : r.parts.flatMap partContract ++ erasureContract r =
      fi.parts.flatMap partContract ++ erasureContract fi) :
    r.parts.length = fi.parts.length := by
  rcases h with h | ⟨hr,hf,hd⟩
  · exact h
  · have hl := congrArg List.length hc
    rw [List.length_append, List.length_append, length_parts, length_parts,
      length_erasureContract r hr, length_erasureContract fi hf] at hl
    omega

theorem decodeContract_agrees (r fi : FileInfo) (a b : Uuid)
    (ha : r.versionId = formatVersionIdBytes a) (hb : fi.versionId = formatVersionIdBytes b)
    (he : etagOf r = etagOf fi) (h : decodeContract r = decodeContract fi) : Agrees fi r := by
  simp only [decodeContract, List.append_assoc, he, ha, hb] at h
  obtain ⟨hid,h⟩ := utf8_formatVersionIdBytes_append a b _ _ h
  obtain ⟨hmt,h⟩ := List.append_inj h (by simp)
  have h := List.append_cancel_left h
  obtain ⟨hdel,h⟩ := List.cons.inj h
  have hmt' := leBytes_inj 8 _ _ r.modTimeMs.toNat_lt fi.modTimeMs.toNat_lt hmt
  have hparts : SameLayout fi r →
      r.parts.flatMap partContract = fi.parts.flatMap partContract ∧
        erasureContract r = erasureContract fi := by
    intro hlay
    have hl := layout_length r fi hlay h
    exact List.append_inj h (by rw [length_parts, length_parts, hl])
  exact
    { versionId := by rw [ha, hb, hid]
      modTimeMs := UInt64.toNat_inj.mp hmt'
      etag := he
      deleted := (by decide : ∀ x y : Bool, x.toUInt8 = y.toUInt8 → x = y) _ _ hdel
      parts := fun hlay => parts_inj _ _ (layout_length r fi hlay h) (hparts hlay).1
      striped := fun hlay => (erasureContract_inj r fi (hparts hlay).2).1
      geometry := fun hlay => (erasureContract_inj r fi (hparts hlay).2).2 }

section Accepted

variable {H : Type} [DecidableEq H]

theorem voteRecords_ok (o : HashOrders H) (blake3 : Bytes → H) (bucket key : String)
    (results : Results) (i : ℕ) (fi : FileInfo)
    (h : voteRecords o blake3 bucket key (metasOf results) results.length = .ok (i,fi)) :
    ∃ p e, commonParity o.parities (metasOf results) results.length = some p ∧
      results[i]? = some (.ok fi) ∧ recordEtagMatches fi e ∧
      readQuorum results.length p ≤
        (hashBallots blake3 results e).count (decodeContractHash blake3 fi) := by
  rw [voteRecords] at h
  split at h
  · simp at h
  · rename_i p hp
    simp only at h
    split at h
    · simp at h
    · rename_i e he
      split at h
      · simp at h
      · rename_i h' c w hmax
        obtain ⟨-,hc,hw,hi,hm⟩ := contract_winner blake3 results e _ h' c w hmax
        split_ifs at h with hlt
        obtain rfl := Except.ok.inj h
        exact ⟨p,e,hp,hi,hm,by rw [← hw]; omega⟩

theorem readWithConsensus_ok (o : HashOrders H) (blake3 : Bytes → H) (bucket key : String)
    (results : Results) (i : ℕ) (fi : FileInfo)
    (h : readWithConsensus o blake3 bucket key results = .ok (i,fi)) :
    voteRecords o blake3 bucket key (metasOf results) results.length = .ok (i,fi) := by
  simp only [readWithConsensus] at h
  split at h
  · split_ifs at h
    exact h
  · exact h

theorem voted_parity_le (results : Results) (p : UInt8)
    (hp : LeadsAmong (readQuorum results.length) (parityBallots results) p) :
    p.toNat ≤ results.length := by
  have hq := hp.2.1
  have hc : (parityBallots results).count p ≤ results.length := by
    refine List.count_le_length.trans ?_
    rw [parityBallots, List.length_map]
    exact (List.length_filter_le _ _).trans (length_records_le results)
  have hlt := p.toNat_lt
  rw [readQuorum] at hq
  split_ifs at hq <;> omega

def votersOf (blake3 : Bytes → H) (results : Results) (e : String) (h : H) : List (ℕ × FileInfo) :=
  (contractBallots (metasOf results) e).filter (fun m => h = decodeContractHash blake3 m.2)

theorem length_votersOf (blake3 : Bytes → H) (results : Results) (e : String) (h : H) :
    (votersOf blake3 results e h).length = (hashBallots blake3 results e).count h := by
  rw [votersOf, length_filter_key, contractBallots_hash]

theorem nodup_votersOf (blake3 : Bytes → H) (results : Results) (e : String) (h : H) :
    ((votersOf blake3 results e h).map Prod.fst).Nodup := by
  have hz : ((metasOf results).zipIdx.map Prod.snd).Nodup := by
    rw [List.zipIdx_map_snd]
    exact List.nodup_range'
  have hsub : ((contractBallots (metasOf results) e).map Prod.fst).Sublist
      ((metasOf results).zipIdx.map Prod.snd) := by
    rw [contractBallots]
    induction (metasOf results).zipIdx with
    | nil => exact .slnil
    | cons m ms ih =>
      obtain ⟨m,k⟩ := m
      rw [List.filterMap_cons]
      cases m with
      | none => exact ih.cons k
      | some fi =>
        by_cases hm : recordEtagMatches fi e
        · simpa [hm] using ih.cons_cons k
        · simpa [hm] using ih.cons k
  exact ((List.filter_sublist.map Prod.fst).trans hsub).nodup hz

/-- An accepted record agrees, on the fields its hash covers, with the records
of at least `n - parity` disks. -/
theorem accepted_quorum_agrees (o : HashOrders H) (blake3 : Bytes → H) (bucket key : String)
    (results : Results) (i : ℕ) (fi : FileInfo)
    (hids : ∀ r ∈ records results, ∃ u, r.versionId = formatVersionIdBytes u)
    (hinj : ∀ r ∈ records results, ∀ s ∈ records results,
      blake3 (decodeContract r) = blake3 (decodeContract s) → decodeContract r = decodeContract s)
    (h : readWithConsensus o blake3 bucket key results = .ok (i,fi)) :
    ∃ p, commonParity o.parities (metasOf results) results.length = some p ∧
      p.toNat ≤ results.length ∧ ∃ disks : Finset ℕ, results.length-p.toNat ≤ disks.card ∧
        ∀ j ∈ disks, ∃ r, results[j]? = some (.ok r) ∧ Agrees fi r := by
  obtain ⟨p,e,hp,hi,hm,hq⟩ :=
    voteRecords_ok o blake3 bucket key results i fi (readWithConsensus_ok _ _ _ _ _ _ _ h)
  have hle := voted_parity_le results p (commonParity_some _ _ _ hp)
  have hrec : ∀ (j : ℕ) (r : FileInfo), results[j]? = some (.ok r) → r ∈ records results := by
    intro j r hj
    exact List.reduceOption_mem_iff.mpr (List.mem_map.mpr ⟨_,List.mem_of_getElem? hj,rfl⟩)
  refine ⟨p,hp,hle,((votersOf blake3 results e (decodeContractHash blake3 fi)).map
    Prod.fst).toFinset,?_,fun j hj => ?_⟩
  · rw [List.toFinset_card_of_nodup (nodup_votersOf _ _ _ _), List.length_map, length_votersOf]
    rwa [readQuorum, if_pos hle] at hq
  · rw [List.mem_toFinset, List.mem_map] at hj
    obtain ⟨⟨j',r⟩,hv,rfl⟩ := hj
    obtain ⟨hb,hh⟩ := List.mem_filter.mp hv
    obtain ⟨hj,hme⟩ := (mem_contractBallots results e j' r).mp hb
    obtain ⟨a,ha⟩ := hids r (hrec _ _ hj)
    obtain ⟨b,hbv⟩ := hids fi (hrec _ _ hi)
    have hhash : blake3 (decodeContract fi) = blake3 (decodeContract r) :=
      of_decide_eq_true hh
    have hc := hinj fi (hrec _ _ hi) r (hrec _ _ hj) hhash
    have he : etagOf r = etagOf fi := by
      rw [recordEtagMatches, decide_eq_true_eq] at hme hm
      rw [hme, hm]
    exact ⟨r,hj,decodeContract_agrees r fi a b ha hbv he hc.symm⟩

end Accepted

def plainOrders : HashOrders Bytes :=
  ⟨.insertion _,.insertion _,.insertion _,.insertion _⟩

def contractErasure (half : UInt8) (distribution : Bytes) (index : UInt8) : ErasureInfo :=
  { algorithm := "ReedSolomon", dataBlocks := half, parityBlocks := half,
    blockSize := UInt32.ofNat (half.toNat*1048576), index := index, distribution := distribution }

def contractRecord (half : UInt8) (distribution : Bytes) (index : UInt8) (size : Int64)
    (parts : List ObjectPartInfo) : FileInfo :=
  { volume := "photos", name := "a.bin", versionId := "null", isLatest := true, modTimeMs := 1,
    size := size, metadata := [("etag","0cc175b9c0f1b6a831c399e269772661")], parts := parts,
    erasure := contractErasure half distribution index, numVersions := 1 }

def mirrorRecord (index : UInt8) : FileInfo :=
  contractRecord 1 [1,2] index 1 [{ number := 1, size := 1, actualSize := 1, modTimeMs := 1 }]

def mirrorDigest (input : Bytes) : Bytes :=
  if input = decodeContract (mirrorRecord 1) then
    [217,217,203,80,51,39,2,226,227,10,4,144,44,215,232,204,81,34,78,125,180,163,171,35,161,
      122,58,169,195,174,115,156]
  else []

theorem mirror_quorum_agrees :
    ∃ p, commonParity plainOrders.parities
        (metasOf [.ok (mirrorRecord 1),.ok (mirrorRecord 2)]) 2 = some p ∧
      p.toNat ≤ 2 ∧ ∃ disks : Finset ℕ, 2-p.toNat ≤ disks.card ∧
        ∀ j ∈ disks, ∃ r, ([.ok (mirrorRecord 1),.ok (mirrorRecord 2)] : Results)[j]? =
          some (.ok r) ∧ Agrees (mirrorRecord 1) r :=
  accepted_quorum_agrees plainOrders mirrorDigest "photos" "a.bin"
    [.ok (mirrorRecord 1),.ok (mirrorRecord 2)] 0 (mirrorRecord 1)
    (fun r hr => ⟨VersionIds.nil,
      (by decide : ∀ r ∈ records [.ok (mirrorRecord 1),.ok (mirrorRecord 2)],
        r.versionId = formatVersionIdBytes VersionIds.nil) r hr⟩)
    (by decide) (by decide)

structure HashedFields where
  deleted : Bool
  versionId : String
  modTimeMs : UInt64
  etag : Option String
  parts : List (Int32 × Int64)
  dataBlocks : UInt8
  parityBlocks : UInt8
  blockSize : UInt32
  distribution : Bytes
  deriving DecidableEq

def hashedFields (fi : FileInfo) : HashedFields :=
  ⟨fi.deleted,fi.versionId,fi.modTimeMs,etagOf fi,fi.parts.map (fun p => (p.number,p.size)),
    fi.erasure.dataBlocks,fi.erasure.parityBlocks,fi.erasure.blockSize,fi.erasure.distribution⟩

structure DecodeFields where
  size : Int64
  actualSizes : List Int64
  hashed : HashedFields
  deriving DecidableEq

def decodeFields (fi : FileInfo) : DecodeFields :=
  ⟨fi.size,fi.parts.map ObjectPartInfo.actualSize,hashedFields fi⟩

def blurRecord (index : UInt8) (size : Int64) : FileInfo :=
  contractRecord 3 [1,2,3,4,5,6] index size
    [{ number := 1, size := 2, actualSize := size, modTimeMs := 1 }]

def blurEmpty (index : UInt8) : FileInfo :=
  contractRecord 3 [1,2,3,4,5,6] index 0
    [{ number := 1, size := 2, actualSize := 0, modTimeMs := 1 },
      { number := 771, size := 433757350076153904, actualSize := 0, modTimeMs := 1 }]

def blurSet : Results :=
  [.ok (blurRecord 1 1),.ok (blurRecord 2 2),.ok (blurEmpty 3),.ok (blurEmpty 4),
    .ok (blurEmpty 5),.ok (blurEmpty 6)]

/-- Six records with one contract hash. The accepted record has the size of no
other disk, and its part table, whose tail bytes can be read as one more part,
is that of one other disk. -/
theorem blurSet_accepted : Function.Injective (id : Bytes → Bytes) ∧
    readWithConsensus plainOrders id "photos" "a.bin" blurSet = .ok (0,blurRecord 1 1) ∧
    commonParity plainOrders.parities (metasOf blurSet) 6 = some 3 ∧
    (records blurSet).countP (fun r => decodeFields r = decodeFields (blurRecord 1 1)) < 6-3 ∧
    (records blurSet).countP (fun r => hashedFields r = hashedFields (blurRecord 1 1)) < 6-3 :=
  ⟨Function.injective_id,by decide,by decide,by decide,by decide⟩

end Openlake.ConsensusContract
