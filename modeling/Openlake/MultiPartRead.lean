import Openlake.PartRead

/-!
# Reading an object of several parts

Opening a part puts its stream before its first stripe, or before the stripe a
ranged read starts at. Parts are read one after the other, so the object comes
out when every part does.
-/

set_option autoImplicit false

namespace Openlake.MultiPartRead
open Openlake.Types Ec Streams StripeWriter StripeReader PartRead Lib.Chunks

theorem le_divCeil_mul (a b : ℕ) (hb : 0 < b) : a ≤ divCeil a b*b := by
  have h := Nat.div_add_mod (a+b-1) b
  have hlt := Nat.mod_lt (a+b-1) hb
  rw [divCeil, Nat.mul_comm]
  omega

theorem divCeil_mul_lt (a b : ℕ) (hb : 0 < b) (ha : 0 < a) : divCeil a b*b < a+b := by
  have h := Nat.div_mul_le_self (a+b-1) b
  rw [divCeil]
  omega

theorem le_stripeCount_mul (size width : ℕ) (hw : 0 < width) :
    size ≤ stripeCount size width*width :=
  (le_divCeil_mul size width hw).trans (Nat.mul_le_mul_right _ (Nat.le_max_left _ _))

theorem stripeCount_mul_lt (size width : ℕ) (hw : 0 < width) (hs : 0 < size) :
    stripeCount size width*width < size+width := by
  rcases Nat.le_total (divCeil size width) 1 with h | h
  · rw [stripeCount, Nat.max_eq_right h]
    omega
  · rw [stripeCount, Nat.max_eq_left h]
    exact divCeil_mul_lt size width hw hs

theorem drop_stripesOf (width k j : ℕ) (xs : Bytes) :
    (stripesOf width k xs).drop j = stripesOf width (k-j) (xs.drop (j*width)) := by
  induction j generalizing k xs with
  | zero => simp
  | succ j ih =>
    cases k with
    | zero => simp [stripesOf]
    | succ k =>
      rw [stripesOf, List.drop_succ_cons, ih, List.drop_drop, Nat.succ_mul, Nat.add_comm width,
        Nat.succ_sub_succ]

theorem map_drop_zipWith (unit k : ℕ) (w cols : List Bytes) (hw : ∀ x ∈ w, x.length = unit) :
    (List.zipWith (· ++ ·) w cols).map (List.drop ((k+1)*unit)) =
      (cols.take w.length).map (List.drop (k*unit)) := by
  induction w generalizing cols with
  | nil => simp
  | cons x w ih =>
    cases cols with
    | nil => simp
    | cons col cols =>
      have hx : x.length = unit := hw x List.mem_cons_self
      have hdrop : (x ++ col).drop ((k+1)*unit) = col.drop (k*unit) := by
        rw [Nat.succ_mul, Nat.add_comm, ← List.drop_drop, ← hx, List.drop_left]
      simp [hdrop, ih cols fun y hy => hw y (List.mem_cons_of_mem _ hy)]

theorem columns_drop (rs : ReedSolomon) (ec : Erasure) (unit : ℕ) (stripes : List Bytes)
    (ws : List (List Bytes)) (h : List.Forall₂ (Codeword rs ec unit) stripes ws) (k : ℕ) :
    columns ec.total (ws.drop k) = (columns ec.total ws).map (List.drop (k*unit)) := by
  induction k generalizing stripes ws with
  | zero =>
    rw [Nat.zero_mul, List.drop_zero]
    exact (List.map_id' _).symm
  | succ k ih =>
    cases h with
    | nil => simp [columns]
    | @cons stripe w stripes ws hw hws =>
      have hlen := length_columns ec.total ws (codewords_total rs ec unit stripes ws hws)
      rw [List.drop_succ_cons, ih stripes ws hws, columns, map_drop_zipWith unit k w _ hw.widths,
        List.take_of_length_le (by rw [hlen, hw.total])]

def deliveries (backends : List ShardReader) (volume path : String) (offset length : ℕ) :
    List (Option Bytes) :=
  backends.map (fun b => (b volume path offset length).toOption.map contents)

section Opening

variable (rs : ReedSolomon)

theorem zipWith_ahead_fresh (sources : List (Option ByteSource)) :
    List.zipWith ahead sources (List.replicate sources.length []) =
      sources.map (Option.map contents) := by
  induction sources with
  | nil => rfl
  | cons o sources ih =>
    rw [List.length_cons, List.replicate_succ, List.zipWith_cons_cons, ih, List.map_cons]
    rfl

theorem aliveAt_le_isSome (unit k : ℕ) (ds : List (Option Bytes)) :
    aliveAt unit k ds ≤ ds.countP Option.isSome := by
  apply List.countP_mono_left
  intro o _ ho
  cases o with
  | none => cases ho
  | some b => rfl

theorem countP_isSome_deliveries (backends : List ShardReader) (volume path : String)
    (offset length : ℕ) :
    (backends.map (fun b => (b volume path offset length).toOption)).countP Option.isSome =
      (deliveries backends volume path offset length).countP Option.isSome := by
  rw [deliveries, List.countP_map, List.countP_map]
  congr 1
  funext b
  simp

def Stored (ec : Erasure) (unit : ℕ) (payload : Bytes) (ws : List (List Bytes)) : Prop :=
  List.Forall₂ (Codeword rs ec unit)
    (stripesOf (ec.dataShards*unit) (stripeCount payload.length (ec.dataShards*unit)) payload) ws

theorem pending_partStream (backends : List ShardReader) (volume path : String)
    (offset length : ℕ) (bucket key : String) (size block unit : ℕ) (ec : Erasure) (start : ℕ) :
    pending (partStream (backends.map (fun b => (b volume path offset length).toOption)) bucket key
      size block unit ec start) = deliveries backends volume path offset length := by
  simp only [pending, partStream]
  rw [zipWith_ahead_fresh, deliveries, List.map_map]
  rfl

theorem partStream_atStripe (sources : List (Option ByteSource)) (bucket key : String) (unit : ℕ)
    (hpos : 0 < unit) (ec : Erasure) (payload : Bytes) (ws : List (List Bytes))
    (hws : Stored rs ec unit payload ws) (start : ℕ)
    (hstart : start*(ec.dataShards*unit) < payload.length)
    (hahead : Ahead ((columns ec.total ws).map (List.drop (start*unit)))
      (pending (partStream sources bucket key payload.length (ec.dataShards*unit) unit ec start))) :
    AtStripe rs ec unit (stripesOf (ec.dataShards*unit)
        (stripeCount payload.length (ec.dataShards*unit)-start)
        (payload.drop (start*(ec.dataShards*unit)))) (ws.drop start)
      (partStream sources bucket key payload.length (ec.dataShards*unit) unit ec start) := by
  set width := ec.dataShards*unit with hwidth
  have hw : 0 < width := Nat.mul_pos ec.data_pos hpos
  have hle := le_stripeCount_mul payload.length width hw
  have hlt := stripeCount_mul_lt payload.length width hw (by omega)
  have hwlen : ws.length = stripeCount payload.length width := by
    rw [← hws.length_eq, length_stripesOf]
  have hmul : (stripeCount payload.length width-start)*width =
      stripeCount payload.length width*width-start*width := Nat.sub_mul _ _ _
  constructor
  case words =>
    rw [← drop_stripesOf]
    exact List.forall₂_drop start hws
  case code => rfl
  case width => rfl
  case left => simp [partStream, hwlen]
  case served => simp [partStream]
  case deliveries =>
    rw [columns_drop rs ec unit _ ws hws]
    exact hahead
  case total_le =>
    rw [List.length_drop, hwlen, hmul]
    show payload.length-start*width ≤ _
    omega
  case total_gt =>
    rw [List.length_drop, hwlen, hmul]
    show _ < payload.length-start*width+width
    omega

/-- What a part's sources can deliver from stripe `start` on. -/
def partDeliveries (m : MultiPartEcStream) (path : String) (size start : ℕ) :
    List (Option Bytes) :=
  deliveries m.backends m.bucket path (start*m.stripeUnit)
    ((stripeCount size m.blockSize-start)*m.stripeUnit)

def PartLive (m : MultiPartEcStream) (path : String) (size start : ℕ) : Prop :=
  ∀ k < stripeCount size m.blockSize-start,
    m.ec.dataShards ≤ aliveAt m.stripeUnit k (partDeliveries m path size start)

variable (m : MultiPartEcStream) (cur : EcReadStream)

theorem step_current :
    MultiPartEcStream.step rs { m with current := some cur } =
      match cur.step rs with
      | .error e => .error e
      | .ok .done => .ok (.again { m with current := none })
      | .ok (.again t) => .ok (.again { m with current := some t })
      | .ok (.yield chunk t) => .ok (.yield chunk { m with current := some t }) := by
  rw [EcReadStream.step, MultiPartEcStream.step, MultiPartEcStream.advance]
  cases hread : cur.read rs with
  | error e => simp [hread, bind, Except.bind]
  | ok out =>
    by_cases hempty : out.1.isEmpty
    · simp [hread, hempty, bind, Except.bind, pure, Except.pure]
    · simp [hread, hempty, bind, Except.bind, pure, Except.pure]

theorem current_drains (xs : Bytes)
    (h : Drains (EcReadStream.step rs) cur xs none) (ys : Bytes) (r : Option IoError)
    (hnext : Drains (MultiPartEcStream.step rs) { m with current := none } ys r) :
    Drains (MultiPartEcStream.step rs) { m with current := some cur } (xs ++ ys) r := by
  generalize hr : (none : Option IoError) = r₀ at h
  induction h with
  | done s hs => exact .again _ _ _ _ (by rw [step_current, hs]) hnext
  | fail s e hs => cases hr
  | again s t xs r hs _ ih => exact .again _ _ _ _ (by rw [step_current, hs]) (ih hr)
  | yield s t chunk xs r hs _ ih =>
    rw [List.append_assoc]
    exact .yield _ _ _ _ _ (by rw [step_current, hs]) (ih hr)

theorem current_fails (xs : Bytes) (e : IoError)
    (h : Drains (EcReadStream.step rs) cur xs (some e)) :
    Drains (MultiPartEcStream.step rs) { m with current := some cur } xs (some e) := by
  generalize hr : some e = r at h
  induction h with
  | done s hs => cases hr
  | fail s e' hs =>
    obtain rfl := Option.some.inj hr
    exact .fail _ _ (by rw [step_current, hs])
  | again s t xs r hs _ ih => exact .again _ _ _ _ (by rw [step_current, hs]) (ih hr)
  | yield s t chunk xs r hs _ ih => exact .yield _ _ _ _ _ (by rw [step_current, hs]) (ih hr)

theorem current_delivers (body rest : Bytes)
    (live live' : Prop) (h : Delivers (EcReadStream.step rs) cur body live)
    (hnext : Delivers (MultiPartEcStream.step rs) { m with current := none } rest live') :
    Delivers (MultiPartEcStream.step rs) { m with current := some cur } (body ++ rest)
      (live ∧ live') := by
  refine ⟨fun hl => current_drains rs m cur body (h.1 hl.1) rest none (hnext.1 hl.2),fun hl => ?_⟩
  by_cases hlive : live
  · obtain ⟨pre,e,hpre,hd⟩ := hnext.2 fun hl' => hl ⟨hlive,hl'⟩
    exact ⟨body ++ pre,e,(List.prefix_append_right_inj body).mpr hpre,
      current_drains rs m cur body (h.1 hlive) pre (some e) hd⟩
  · obtain ⟨pre,e,hpre,hd⟩ := h.2 hlive
    exact ⟨pre,e,hpre.trans (List.prefix_append body rest),current_fails rs m cur pre e hd⟩

/-- The next part to open delivers its bytes from the start stripe on, and
then the parts after it deliver theirs. -/
theorem part_delivers (hpos : 0 < m.stripeUnit)
    (hblock : m.blockSize = m.ec.dataShards*m.stripeUnit) (hcur : m.current = none)
    (p : ObjectPartInfo) (parts : List ObjectPartInfo) (hparts : m.parts = p::parts)
    (payload : Bytes) (hlen : partLen p = payload.length) (ws : List (List Bytes))
    (hws : Stored rs m.ec m.stripeUnit payload ws)
    (hstart : m.startStripe*m.blockSize < payload.length)
    (hahead : Ahead ((columns m.ec.total ws).map (List.drop (m.startStripe*m.stripeUnit)))
      (partDeliveries m (partPath m.key m.dataDir p.number) payload.length m.startStripe))
    (rest : Bytes) (live : Prop)
    (hnext : Delivers (MultiPartEcStream.step rs) { m with parts := parts, startStripe := 0 } rest
      live) :
    Delivers (MultiPartEcStream.step rs) m (payload.drop (m.startStripe*m.blockSize) ++ rest)
      (PartLive m (partPath m.key m.dataDir p.number) payload.length m.startStripe ∧ live) := by
  set path := partPath m.key m.dataDir p.number with hpath
  set sources := m.backends.map (fun b => (b m.bucket path (m.startStripe*m.stripeUnit)
    ((stripeCount payload.length m.blockSize-m.startStripe)*m.stripeUnit)).toOption) with hsources
  have hcount : sources.countP Option.isSome =
      (partDeliveries m path payload.length m.startStripe).countP Option.isSome :=
    countP_isSome_deliveries ..
  have hstripes : 0 < stripeCount payload.length m.blockSize-m.startStripe := by
    have hw : 0 < m.blockSize := hblock ▸ Nat.mul_pos m.ec.data_pos hpos
    have hle := le_stripeCount_mul payload.length m.blockSize hw
    have := Nat.lt_of_mul_lt_mul_right (hstart.trans_le hle)
    omega
  by_cases hopen : sources.countP Option.isSome < m.ec.dataShards
  · have hdead : ¬PartLive m path payload.length m.startStripe := by
      intro hl
      have h0 := hl 0 hstripes
      have := aliveAt_le_isSome m.stripeUnit 0 (partDeliveries m path payload.length m.startStripe)
      omega
    have hfail : m.step rs = .error (.fileNotFound m.bucket path) := by
      simp only [MultiPartEcStream.step, MultiPartEcStream.advance, hcur, hparts, ← hpath, hlen,
        openEcPartStream, ← hsources, hopen, if_true, advanceError, bind, Except.bind]
    exact ⟨fun hl => absurd hl.1 hdead,fun _ => ⟨[],_,List.nil_prefix,.fail _ _ hfail⟩⟩
  · set cur := partStream sources m.bucket m.key payload.length m.blockSize m.stripeUnit m.ec
      m.startStripe with hcurdef
    have hpend : pending cur = partDeliveries m path payload.length m.startStripe :=
      pending_partStream ..
    have hat := partStream_atStripe rs sources m.bucket m.key m.stripeUnit hpos m.ec payload ws hws
      m.startStripe (hblock ▸ hstart) (by rw [← hblock, ← hcurdef, hpend]; exact hahead)
    rw [← hblock, ← hcurdef] at hat
    have hdel := atStripe_delivers rs m.ec m.stripeUnit hpos _ _ cur hat
    have hbody : cur.totalRemaining = (payload.drop (m.startStripe*m.blockSize)).length := by
      rw [List.length_drop]
      rfl
    have hwlen : (ws.drop m.startStripe).length =
        stripeCount payload.length m.blockSize-m.startStripe := by
      rw [← hat.words.length_eq, length_stripesOf]
    rw [hbody, flatten_stripesOf_take _ _ _ (by rw [← hbody]; exact hwlen ▸ hblock ▸ hat.total_le),
      hpend, hwlen] at hdel
    let m' : MultiPartEcStream := { m with parts := parts, startStripe := 0 }
    have hm' : { m' with current := none } = m' := by
      simp only [m', hcur]
    have hstep : m.step rs = MultiPartEcStream.step rs { m' with current := some cur } := by
      simp only [MultiPartEcStream.step, MultiPartEcStream.advance, hcur, hparts, ← hpath, hlen,
        openEcPartStream, ← hsources, hopen, if_false, ← hcurdef, m']
    exact Delivers.of_step_eq hstep
      (current_delivers rs m' cur _ rest _ live hdel (by rw [hm']; exact hnext))

end Opening

end Openlake.MultiPartRead
