import Openlake.ObjectStreams
import Openlake.PartEncoding

/-!
# Reading the files of a part

A part is held when each disk's file of it, where there is one, is the disk's
shard of the part, and enough disks have theirs. Held parts drain in order, from
any stripe of the first one on, and the stream that is opened for an offset
starts at the stripe boundary before it.
-/

set_option autoImplicit false

namespace Openlake.HeldParts
open Openlake.Types LocalFs GetObject Promote Streams StripeWriter StripeReader PartRead
open MultiPartRead PartEncoding Ec Lib.Chunks Lib.Effects Lib.FileTree

def fileAt (bucket path : String) (t : Disk) : Option Bytes :=
  match value (requireVol bucket t),stat (left (requireVol bucket t)) (filePath bucket path) with
  | .ok _,.ok (.file bytes) => some bytes
  | _,_ => none

theorem divCeil_sub (a k m : ℕ) (hk : 0 < k) (h : divCeil a k = m+1) : divCeil (a-k) k = m := by
  rw [divCeil] at h ⊢
  have hle := Nat.div_mul_le_self (a+k-1) k
  have hlt := Nat.lt_div_mul_add (a := a+k-1) hk
  rw [h, Nat.succ_mul] at hle hlt
  rcases Nat.le_total k a with hka | hak
  · rw [show a-k+k-1 = a-1 by omega]
    exact Nat.div_eq_of_lt_le (by omega) (by rw [Nat.succ_mul]; omega)
  · have hm : m = 0 := by
      by_contra hm
      have : k ≤ m*k := Nat.le_mul_of_pos_left k (Nat.pos_of_ne_zero hm)
      omega
    subst hm
    rw [show a-k+k-1 = k-1 by omega]
    exact Nat.div_eq_of_lt (by omega)

theorem pieces_spec (k m : ℕ) (hk : 0 < k) (xs : Bytes) (hm : divCeil xs.length k = m) :
    (pieces k m xs).flatten = xs ∧ ∀ f ∈ pieces k m xs, f ≠ [] := by
  induction m generalizing xs with
  | zero =>
    have hle := le_divCeil_mul xs.length k hk
    rw [hm, Nat.zero_mul] at hle
    obtain rfl := List.eq_nil_of_length_eq_zero (Nat.le_zero.mp hle)
    simp [pieces]
  | succ m ih =>
    have hne : xs ≠ [] := by
      rintro rfl
      rw [List.length_nil, divCeil, Nat.div_eq_of_lt (by omega)] at hm
      cases hm
    obtain ⟨hflat,hpieces⟩ := ih (xs.drop k) (by rw [List.length_drop]; exact divCeil_sub _ k m hk hm)
    refine ⟨by rw [pieces, List.flatten_cons, hflat, List.take_append_drop],fun f hf => ?_⟩
    rcases List.mem_cons.mp hf with rfl | hf
    · simp [hne, hk.ne']
    · exact hpieces f hf

theorem contents_fileStream (bytes : Bytes) (offset length : ℕ) :
    contents (fileStream bytes offset length) = (bytes.drop offset).take length := by
  obtain ⟨hflat,hpieces⟩ := pieces_spec streamChunkBytes _ (by decide)
    ((bytes.drop offset).take length) rfl
  rw [fileStream, contents_rope _ hpieces, hflat]

theorem delivered_fileAt (bucket path : String) (t : Disk) (offset length : ℕ) :
    (∀ bytes, fileAt bucket path t = some bytes →
      (shardReader t bucket path offset length).toOption.map contents =
        some ((bytes.drop offset).take length)) ∧
    (fileAt bucket path t = none →
      ∀ b, (shardReader t bucket path offset length).toOption.map contents = some b → b = []) := by
  have hreader : shardReader t bucket path offset length =
      match value (requireVol bucket t) with
      | .ok _ => openFile bucket path offset length (left (requireVol bucket t))
      | .error e => .error e := by
    simp only [shardReader, readFileStream, bind, EStateM.bind]
    rcases requireVol bucket t with ⟨u,s⟩ | ⟨e,s⟩
    · simp only [value, left, probe, lift]
      cases openFile bucket path offset length s <;> rfl
    · rfl
  rw [hreader, fileAt]
  rcases value (requireVol bucket t) with e | u
  · simp [Except.toOption]
  · simp only [openFile]
    rcases stat (left (requireVol bucket t)) (filePath bucket path) with e | bytes | dir
    · simp [Except.toOption]
    · simp [Except.toOption, contents_fileStream]
    · simp [Except.toOption, contents]

section Part

variable {n : ℕ} (rs : ReedSolomon) (bucket key dataDir : String) (disks : Disks n) (ec : Erasure)
  (unit : ℕ)

/-- The files of a part: where a disk has one it is the disk's shard of the
part, and `D` disks have theirs. -/
structure PartHeld (p : ObjectPartInfo) (payload : Bytes) : Prop where
  size : partLen p = payload.length
  shards : ∃ ws, Stored rs ec unit payload ws ∧
    ∀ i bytes, fileAt bucket (partPath key dataDir p.number) (disks i) = some bytes →
      (columns ec.total ws)[i.val]? = some bytes
  enough : ec.dataShards ≤ (List.ofFn (fun i =>
    fileAt bucket (partPath key dataDir p.number) (disks i))).countP Option.isSome

def readers : List ShardReader := List.ofFn (fun i => shardReader (disks i))

theorem deliveries_readers (path : String) (offset length : ℕ) :
    deliveries (readers disks) bucket path offset length = List.ofFn (fun i =>
      (shardReader (disks i) bucket path offset length).toOption.map contents) := by
  rw [deliveries, readers, List.map_ofFn]
  rfl

theorem ahead_readers (path : String) (cols : List Bytes) (hcols : cols.length = n)
    (hfiles : ∀ i bytes, fileAt bucket path (disks i) = some bytes → cols[i.val]? = some bytes)
    (offset length : ℕ) :
    Ahead (cols.map (List.drop offset)) (deliveries (readers disks) bucket path offset length) := by
  rw [deliveries_readers, Ahead, List.forall₂_iff_get]
  refine ⟨by simp [hcols],fun i hi hi' b hb => ?_⟩
  have hin : i < n := by simpa using hi'
  obtain ⟨hsome,hnone⟩ := delivered_fileAt bucket path (disks ⟨i,hin⟩) offset length
  simp only [List.get_eq_getElem, List.getElem_ofFn, List.getElem_map] at hb ⊢
  cases hfile : fileAt bucket path (disks ⟨i,hin⟩) with
  | none => rw [hnone hfile b hb]; exact List.nil_prefix
  | some bytes =>
    rw [hsome bytes hfile] at hb
    obtain rfl := Option.some.inj hb
    obtain ⟨_,hcol⟩ := List.getElem?_eq_some_iff.mp (hfiles ⟨i,hin⟩ bytes hfile)
    rw [hcol]
    exact List.take_prefix _ _

theorem aliveAt_readers (path : String) (len offset length k : ℕ)
    (hfiles : ∀ i bytes, fileAt bucket path (disks i) = some bytes → bytes.length = len)
    (hk : (k+1)*unit ≤ length) (hlen : offset+length ≤ len) :
    (List.ofFn (fun i => fileAt bucket path (disks i))).countP Option.isSome ≤
      aliveAt unit k (deliveries (readers disks) bucket path offset length) := by
  rw [deliveries_readers, aliveAt, List.ofFn_eq_map, List.ofFn_eq_map, List.countP_map,
    List.countP_map]
  apply List.countP_mono_left
  intro i _ hi
  obtain ⟨bytes,hfile⟩ := Option.isSome_iff_exists.mp hi
  have hbytes := hfiles i bytes hfile
  rw [Function.comp_apply, (delivered_fileAt bucket path (disks i) offset length).1 bytes hfile]
  simp
  omega

def stripedFrom (parts : List ObjectPartInfo) (start : ℕ) : MultiPartEcStream :=
  { backends := readers disks, bucket := bucket, key := key, dataDir := dataDir, parts := parts,
    startStripe := start, blockSize := ec.dataShards*unit, stripeUnit := unit, ec := ec }

variable {rs bucket key dataDir disks ec unit}

variable {p : ObjectPartInfo}

variable {payload : Bytes}

theorem PartHeld.live
    (h : PartHeld rs bucket key dataDir disks ec unit p payload) (parts : List ObjectPartInfo)
    (start : ℕ) : PartLive (stripedFrom bucket key dataDir disks ec unit parts start)
      (partPath key dataDir p.number) payload.length start := by
  obtain ⟨ws,hws,hfiles⟩ := h.shards
  intro k hk
  refine h.enough.trans (aliveAt_readers bucket disks unit _
    (stripeCount payload.length (ec.dataShards*unit)*unit) _ _ k ?_ ?_ ?_)
  · intro i bytes hbytes
    rw [length_mem_columns rs ec unit _ ws hws bytes (List.mem_of_getElem? (hfiles i bytes hbytes)),
      length_stripesOf]
  · exact Nat.mul_le_mul_right unit hk
  · show start*unit+(stripeCount payload.length (ec.dataShards*unit)-start)*unit ≤ _
    have hk' : k < stripeCount payload.length (ec.dataShards*unit)-start := hk
    rw [← Nat.add_mul]
    exact Nat.mul_le_mul_right unit (by omega)

theorem PartHeld.drains_empty (h : PartHeld rs bucket key dataDir disks ec unit p [])
    (parts : List ObjectPartInfo)
    (rest : Bytes) (hnext : Drains (MultiPartEcStream.step rs)
      (stripedFrom bucket key dataDir disks ec unit parts 0) rest none) :
    Drains (MultiPartEcStream.step rs) (stripedFrom bucket key dataDir disks ec unit (p::parts) 0)
      rest none := by
  have hlive := h.live (p::parts) 0 0 (by simp [stripeCount])
  have hopen := hlive.trans (aliveAt_le_isSome _ _ _)
  rw [partDeliveries, ← countP_isSome_deliveries] at hopen
  have hsize : partLen p = 0 := h.size
  refine .again _ _ _ _ ?_ hnext
  simp only [MultiPartEcStream.step, MultiPartEcStream.advance, stripedFrom, hsize,
    openEcPartStream, List.length_nil] at hopen ⊢
  rw [if_neg (Nat.not_lt.mpr hopen)]
  simp [EcReadStream.read, partStream, bind, Except.bind, pure, Except.pure]

variable (hn : n = ec.total) (hpos : 0 < unit)

include hn hpos

theorem PartHeld.drains
    (h : PartHeld rs bucket key dataDir disks ec unit p payload) (parts : List ObjectPartInfo)
    (start : ℕ) (hstart : start*(ec.dataShards*unit) < payload.length) (rest : Bytes)
    (hnext : Drains (MultiPartEcStream.step rs)
      (stripedFrom bucket key dataDir disks ec unit parts 0) rest none) :
    Drains (MultiPartEcStream.step rs)
      (stripedFrom bucket key dataDir disks ec unit (p::parts) start)
      (payload.drop (start*(ec.dataShards*unit)) ++ rest) none := by
  obtain ⟨ws,hws,hfiles⟩ := h.shards
  have hcols : (columns ec.total ws).length = n := by
    rw [length_columns _ _ (codewords_total rs ec unit _ ws hws), hn]
  have hdel := part_delivers rs (stripedFrom bucket key dataDir disks ec unit (p::parts) start) hpos
    rfl rfl p parts rfl payload h.size ws hws hstart
    (ahead_readers bucket disks _ _ hcols hfiles _ _) rest True
    ⟨fun _ => hnext,fun hf => absurd trivial hf⟩
  exact hdel.1 ⟨h.live (p::parts) start,trivial⟩

section

variable (parts : List ObjectPartInfo) (payloads : List Bytes)
  (h : List.Forall₂ (PartHeld rs bucket key dataDir disks ec unit) parts payloads)

include h

theorem parts_drain :
    Drains (MultiPartEcStream.step rs) (stripedFrom bucket key dataDir disks ec unit parts 0)
      payloads.flatten none := by
  induction h with
  | nil => exact .done _ rfl
  | @cons p payload parts payloads hp _ ih =>
    by_cases hempty : payload = []
    · subst hempty
      exact hp.drains_empty parts _ ih
    · have hlen : 0 < payload.length := List.length_pos_iff.mpr hempty
      simpa using hp.drains hn hpos parts 0 (by simpa using hlen) _ ih

theorem seekPart_drains (offset i : ℕ) (hlt : offset < payloads.flatten.length) :
    ∃ j intra, seekPart offset i parts = (i+j,intra) ∧ intra%(ec.dataShards*unit) ≤ offset ∧
      Drains (MultiPartEcStream.step rs)
        (stripedFrom bucket key dataDir disks ec unit (parts.drop j) (intra/(ec.dataShards*unit)))
        (payloads.flatten.drop (offset-intra%(ec.dataShards*unit))) none := by
  induction h generalizing offset i with
  | nil => simp at hlt
  | @cons p payload parts payloads hp hrest ih =>
    rw [List.flatten_cons, List.length_append] at hlt
    by_cases hin : offset < payload.length
    · have hdiv := Nat.div_add_mod offset (ec.dataShards*unit)
      rw [Nat.mul_comm] at hdiv
      refine ⟨0,offset,by simp [seekPart, hp.size, hin],Nat.mod_le _ _,?_⟩
      rw [List.flatten_cons, List.drop_append_of_le_length (by omega),
        show offset-offset%(ec.dataShards*unit) =
          offset/(ec.dataShards*unit)*(ec.dataShards*unit) by omega]
      exact hp.drains hn hpos parts _ (by omega) _ (parts_drain hn hpos parts payloads hrest)
    · obtain ⟨j,intra,hseek,hsub,hd⟩ := ih (offset-payload.length) (i+1) (by omega)
      have hskip : (payload ++ payloads.flatten).drop (offset-intra%(ec.dataShards*unit)) =
          payloads.flatten.drop (offset-payload.length-intra%(ec.dataShards*unit)) := by
        rw [List.drop_append, List.drop_of_length_le (by omega), List.nil_append, Nat.sub_right_comm]
      refine ⟨j+1,intra,?_,by omega,?_⟩
      · rw [seekPart, hp.size, if_neg hin, hseek]
        congr 1
        omega
      · rw [List.drop_succ_cons, List.flatten_cons, hskip]
        exact hd

end

end Part

end Openlake.HeldParts
