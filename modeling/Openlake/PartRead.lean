import Openlake.StripeReader

/-!
# Reading one part

What a part's sources can still deliver decides the whole read. While every
stripe finds `D` live sources, the part's bytes come out; at the first stripe
that does not, the read ends in an error after a prefix of them.
-/

set_option autoImplicit false

namespace Openlake.PartRead
open Openlake.Types Ec Streams StripeWriter StripeReader Lib.Chunks

def ahead (src : Option ByteSource) (carry : Bytes) : Option Bytes :=
  src.map (fun s => carry ++ contents s)

def pending (s : EcReadStream) : List (Option Bytes) :=
  List.zipWith ahead s.sources s.sourceCarries

def slotOf (unit : ℕ) (o : Option Bytes) : Option Bytes :=
  o.bind (fun b => if unit ≤ b.length then some (b.take unit) else none)

def restOf (unit : ℕ) (o : Option Bytes) : Option Bytes :=
  o.bind (fun b => if unit ≤ b.length then some (b.drop unit) else none)

/-- The sources that deliver stripe `k` and every stripe before it. -/
def aliveAt (unit k : ℕ) (deliveries : List (Option Bytes)) : ℕ :=
  deliveries.countP (fun o => o.any (fun b => (k+1)*unit ≤ b.length))

def Ahead (cols : List Bytes) (deliveries : List (Option Bytes)) : Prop :=
  List.Forall₂ (fun col o => ∀ b, o = some b → b <+: col) cols deliveries

theorem pullShard_eq (unit : ℕ) (src : Option ByteSource) (carry : Bytes) :
    (pullShard unit src carry).shard = slotOf unit (ahead src carry) ∧
    ahead (pullShard unit src carry).source (pullShard unit src carry).carry =
      restOf unit (ahead src carry) := by
  cases src with
  | none => exact ⟨rfl,rfl⟩
  | some src =>
    by_cases h : unit ≤ (carry ++ contents src).length
    · obtain ⟨carry',rest,hg,hrest,-⟩ := gather_full unit [] carry src (Nat.zero_le _) h
      simp only [List.nil_append] at hg hrest
      rw [List.length_append] at h
      simp [pullShard, hg, slotOf, restOf, ahead, hrest, h]
    · have hg := gather_short unit [] carry src (Nat.lt_of_not_le h)
      rw [List.length_append] at h
      cases he : ending src with
      | none => simp [pullShard, hg, he, slotOf, restOf, ahead, h]
      | some e => simp [pullShard, hg, he, slotOf, restOf, ahead, h]

theorem shardOpts_eq (s : EcReadStream) :
    (List.zipWith (pullShard s.stripeUnit) s.sources s.sourceCarries).map Pulled.shard =
      (pending s).map (slotOf s.stripeUnit) := by
  rw [pending, List.map_zipWith, List.map_zipWith]
  congr 1
  funext src carry
  exact (pullShard_eq s.stripeUnit src carry).1

theorem pending_next (s : EcReadStream) :
    List.zipWith ahead
        ((List.zipWith (pullShard s.stripeUnit) s.sources s.sourceCarries).map Pulled.source)
        ((List.zipWith (pullShard s.stripeUnit) s.sources s.sourceCarries).map Pulled.carry) =
      (pending s).map (restOf s.stripeUnit) := by
  rw [pending, List.zipWith_map, List.map_zipWith, List.zipWith_self, List.map_zipWith]
  congr 1
  funext src carry
  exact (pullShard_eq s.stripeUnit src carry).2

theorem aliveAt_zero (unit : ℕ) (deliveries : List (Option Bytes)) :
    (deliveries.map (slotOf unit)).countP Option.isSome = aliveAt unit 0 deliveries := by
  rw [aliveAt, List.countP_map]
  congr 1
  funext o
  cases o with
  | none => rfl
  | some b => by_cases h : unit ≤ b.length <;> simp [slotOf, h]

theorem aliveAt_succ (unit k : ℕ) (deliveries : List (Option Bytes)) :
    aliveAt unit k (deliveries.map (restOf unit)) = aliveAt unit (k+1) deliveries := by
  rw [aliveAt, aliveAt, List.countP_map]
  congr 1
  funext o
  cases o with
  | none => rfl
  | some b =>
    have hmul : (k+1+1)*unit = (k+1)*unit+unit := Nat.succ_mul _ _
    by_cases h : unit ≤ b.length
    · simp [restOf, h, hmul]
      omega
    · simp [restOf, h, hmul]
      omega

theorem live_cons (unit need n : ℕ) (deliveries : List (Option Bytes))
    (h : need ≤ aliveAt unit 0 deliveries) :
    (∀ k < n, need ≤ aliveAt unit k (deliveries.map (restOf unit))) ↔
      ∀ k < n+1, need ≤ aliveAt unit k deliveries := by
  constructor
  · intro hl k hk
    cases k with
    | zero => exact h
    | succ k => exact aliveAt_succ unit k deliveries ▸ hl k (by omega)
  · intro hl k hk
    rw [aliveAt_succ]
    exact hl (k+1) (by omega)

theorem ahead_split (unit : ℕ) (w cols : List Bytes) (deliveries : List (Option Bytes))
    (hw : ∀ x ∈ w, x.length = unit) (hlen : w.length = cols.length)
    (h : Ahead (List.zipWith (· ++ ·) w cols) deliveries) :
    Survives w (deliveries.map (slotOf unit)) ∧ Ahead cols (deliveries.map (restOf unit)) := by
  induction w generalizing cols deliveries with
  | nil =>
    obtain rfl := List.length_eq_zero_iff.mp hlen.symm
    cases h
    exact ⟨.nil,.nil⟩
  | cons x w ih =>
    cases cols with
    | nil => cases hlen
    | cons col cols =>
      cases h with
      | @cons _ o _ deliveries ho hrest =>
        obtain ⟨hs,ha⟩ := ih cols deliveries (fun y hy => hw y (List.mem_cons_of_mem _ hy))
          (by simpa using hlen) hrest
        have hx : x.length = unit := hw x List.mem_cons_self
        have hpiece : ∀ b, o = some b → unit ≤ b.length →
            b.take unit = x ∧ b.drop unit <+: col := by
          intro b hb hle
          obtain ⟨tail,htail⟩ := ho b hb
          have htake := congrArg (List.take unit) htail
          have hdrop := congrArg (List.drop unit) htail
          rw [List.take_append_of_le_length hle, ← hx, List.take_left] at htake
          rw [List.drop_append_of_le_length hle, ← hx, List.drop_left] at hdrop
          rw [hx] at htake hdrop
          exact ⟨htake,tail,hdrop⟩
        refine ⟨.cons ?_ hs,.cons ?_ ha⟩
        · cases o with
          | none => exact .inl rfl
          | some b =>
            by_cases hle : unit ≤ b.length
            · exact .inr (by simp [slotOf, hle, (hpiece b rfl hle).1])
            · exact .inl (by simp [slotOf, hle])
        · intro b hb
          cases o with
          | none => cases hb
          | some b₀ =>
            by_cases hle : unit ≤ b₀.length
            · obtain rfl : b₀.drop unit = b := by simpa [restOf, hle] using hb
              exact (hpiece b₀ rfl hle).2
            · simp [restOf, hle] at hb

section Serving

variable (rs : ReedSolomon) (s : EcReadStream)

theorem step_done (h : s.totalRemaining = 0) : s.step rs = .ok .done := by
  simp [EcReadStream.step, EcReadStream.read, h]

theorem step_serve (h : s.totalRemaining ≠ 0) (hr : s.stripeRemainingBytes ≠ 0)
    (hne : s.serve.1.isEmpty = false) : s.step rs = .ok (.yield s.serve.1 s.serve.2) := by
  simp [EcReadStream.step, EcReadStream.read, h, hr, hne]

def passed (s : EcReadStream) (shards : List Bytes) : EcReadStream :=
  { s with decodeShard := s.decodeShard+shards.length,
           totalRemaining := s.totalRemaining-shards.flatten.length }

/-- The shards of a decoded stripe are served in order, up to the bytes that
are still wanted. -/
theorem serve_drains (unit : ℕ) (hpos : 0 < unit) (shards : List Bytes)
    (hunit : ∀ x ∈ shards, x.length = unit) (s : EcReadStream) (hpos0 : s.shardPos = 0)
    (hrest : s.decoded.drop s.decodeShard = shards) :
    (s.totalRemaining ≤ shards.flatten.length →
      Drains (EcReadStream.step rs) s (shards.flatten.take s.totalRemaining) none) ∧
    (shards.flatten.length < s.totalRemaining → ∀ xs r,
      Drains (EcReadStream.step rs) (passed s shards) xs r →
      Drains (EcReadStream.step rs) s (shards.flatten ++ xs) r) := by
  induction shards generalizing s with
  | nil =>
    refine ⟨fun h => ?_,fun _ xs r hd => hd⟩
    have h0 : s.totalRemaining = 0 := by simpa using h
    rw [h0, List.take_zero]
    exact .done _ (step_done rs s h0)
  | cons x shards ih =>
    have hx : x.length = unit := hunit x List.mem_cons_self
    have hlt : s.decodeShard < s.decoded.length := by
      by_contra hge
      rw [List.drop_of_length_le (Nat.le_of_not_lt hge)] at hrest
      cases hrest
    rw [List.drop_eq_getElem_cons hlt] at hrest
    obtain ⟨hhead,htail⟩ := List.cons.inj hrest
    have hget : s.decoded.getD s.decodeShard [] = x := by
      rw [List.getD_eq_getElem _ _ hlt, hhead]
    have hremain : s.stripeRemainingBytes ≠ 0 := by
      rw [EcReadStream.stripeRemainingBytes, if_neg (by omega), hget, hpos0, hx]
      omega
    have hflat : (x::shards).flatten = x ++ shards.flatten := rfl
    have hflen : (x::shards).flatten.length = unit+shards.flatten.length := by
      rw [hflat, List.length_append, hx]
    by_cases h0 : s.totalRemaining = 0
    · refine ⟨fun _ => ?_,fun h => absurd h (by omega)⟩
      rw [h0, List.take_zero]
      exact .done _ (step_done rs s h0)
    · by_cases hle : unit ≤ s.totalRemaining
      · -- the whole shard is served and the next one is up
        have hserve : s.serve = (x,passed s [x]) := by
          have hfull : x.take unit = x := List.take_of_length_le hx.le
          simp only [EcReadStream.serve, passed, hget, hpos0, hx, Nat.sub_zero, Nat.zero_add,
            Nat.min_eq_left hle, List.drop_zero, hfull, if_true, List.length_singleton,
            List.flatten_singleton]
        have hstep := step_serve rs s h0 hremain
          (by rw [hserve]; simpa [← List.length_eq_zero_iff, hx] using hpos.ne')
        rw [hserve] at hstep
        have hleft : (passed s [x]).totalRemaining = s.totalRemaining-unit := by simp [passed, hx]
        have hpassed : passed (passed s [x]) shards = passed s (x::shards) := by
          simp [passed, Nat.sub_sub, Nat.add_assoc, Nat.add_comm 1]
        obtain ⟨ih1,ih2⟩ := ih (fun y hy => hunit y (List.mem_cons_of_mem _ hy)) (passed s [x])
          hpos0 htail
        rw [hleft] at ih1 ih2
        refine ⟨fun h => ?_,fun h xs r hd => ?_⟩
        · rw [hflat, List.take_append, List.take_of_length_le (by omega), hx]
          exact .yield _ _ _ _ _ hstep (ih1 (by omega))
        · rw [hflat, List.append_assoc]
          exact .yield _ _ _ _ _ hstep (ih2 (by omega) xs r (hpassed ▸ hd))
      · let last : EcReadStream := { s with shardPos := s.totalRemaining, totalRemaining := 0 }
        have hserve : s.serve = (x.take s.totalRemaining,last) := by
          have hmin : min unit s.totalRemaining = s.totalRemaining := by omega
          have hne : ¬s.totalRemaining = unit := by omega
          simp only [EcReadStream.serve, last, hget, hpos0, hx, Nat.sub_zero, Nat.zero_add, hmin,
            List.drop_zero, hne, if_false, Nat.sub_self]
        have hstep := step_serve rs s h0 hremain
          (by rw [hserve]; simp [← List.length_eq_zero_iff, hx]; omega)
        rw [hserve] at hstep
        refine ⟨fun h => ?_,fun h => absurd h (by omega)⟩
        rw [hflat, List.take_append_of_le_length (by omega), ← List.append_nil (x.take _)]
        exact .yield _ _ _ _ _ hstep (.done _ (step_done rs _ rfl))

theorem refill_dead (h : aliveAt s.stripeUnit 0 (pending s) < s.ec.dataShards) :
    s.refill rs = .error (.fileNotFound s.bucket (s.key ++ "/part.1")) := by
  rw [EcReadStream.refill, shardOpts_eq, aliveAt_zero, if_pos h]

def refilled (s : EcReadStream) (decoded : List Bytes) : EcReadStream :=
  let results := List.zipWith (pullShard s.stripeUnit) s.sources s.sourceCarries
  { s with sources := results.map Pulled.source, sourceCarries := results.map Pulled.carry,
           decoded := decoded, decodeShard := 0, shardPos := 0,
           stripesRemaining := s.stripesRemaining-1 }

theorem refill_live (stripe : Bytes) (w : List Bytes)
    (hword : Codeword rs s.ec s.stripeUnit stripe w)
    (hsurv : Survives w ((pending s).map (slotOf s.stripeUnit)))
    (h : s.ec.dataShards ≤ aliveAt s.stripeUnit 0 (pending s)) :
    s.refill rs = .ok (refilled s (w.take s.ec.dataShards)) := by
  have hdec := hword.decodes _ hsurv (by rw [aliveAt_zero]; exact h)
  rw [EcReadStream.refill, shardOpts_eq, aliveAt_zero, if_neg (Nat.not_lt.mpr h), hdec]
  rfl

theorem pending_refilled (decoded : List Bytes) :
    pending (refilled s decoded) = (pending s).map (restOf s.stripeUnit) := pending_next s

/-- A stream between two stripes: the codewords still to come, and what the
sources can deliver of them. -/
structure AtStripe (ec : Erasure) (unit : ℕ) (stripes : List Bytes) (ws : List (List Bytes))
    (s : EcReadStream) : Prop where
  words : List.Forall₂ (Codeword rs ec unit) stripes ws
  code : s.ec = ec
  width : s.stripeUnit = unit
  left : s.stripesRemaining = ws.length
  served : s.decoded.length ≤ s.decodeShard
  deliveries : Ahead (columns ec.total ws) (pending s)
  total_le : s.totalRemaining ≤ ws.length*(ec.dataShards*unit)
  total_gt : ws.length*(ec.dataShards*unit) < s.totalRemaining+ec.dataShards*unit

theorem stripeRemainingBytes_served (h : s.decoded.length ≤ s.decodeShard) :
    s.stripeRemainingBytes = 0 := by
  rw [EcReadStream.stripeRemainingBytes, if_pos h]

theorem step_refill_error (e : IoError) (h0 : s.totalRemaining ≠ 0)
    (hserved : s.decoded.length ≤ s.decodeShard) (hleft : s.stripesRemaining ≠ 0)
    (he : s.refill rs = .error e) : s.step rs = .error e := by
  simp [EcReadStream.step, EcReadStream.read, h0, stripeRemainingBytes_served s hserved, hleft, he,
    bind, Except.bind]

theorem step_refill_ok (s s' : EcReadStream) (h0 : s.totalRemaining ≠ 0)
    (hserved : s.decoded.length ≤ s.decodeShard) (hleft : s.stripesRemaining ≠ 0)
    (hs : s.refill rs = .ok s') (h0' : s'.totalRemaining ≠ 0) (hr' : s'.stripeRemainingBytes ≠ 0) :
    s.step rs = s'.step rs := by
  simp [EcReadStream.step, EcReadStream.read, h0, stripeRemainingBytes_served s hserved, hleft, hs,
    h0', hr', bind, Except.bind, pure, Except.pure]

theorem length_flatten_widths (unit : ℕ) (shards : List Bytes)
    (h : ∀ x ∈ shards, x.length = unit) : shards.flatten.length = shards.length*unit := by
  induction shards with
  | nil => simp
  | cons x shards ih =>
    rw [List.flatten_cons, List.length_append, h x List.mem_cons_self,
      ih fun y hy => h y (List.mem_cons_of_mem _ hy), List.length_cons, Nat.succ_mul, Nat.add_comm]

theorem codeword_data_length (ec : Erasure) (unit : ℕ) (stripe : Bytes) (w : List Bytes)
    (h : Codeword rs ec unit stripe w) : (w.take ec.dataShards).length = ec.dataShards ∧
      stripe.length = ec.dataShards*unit := by
  have hlen : (w.take ec.dataShards).length = ec.dataShards := by
    simp [h.total, Erasure.total]
  refine ⟨hlen,?_⟩
  rw [← h.data, length_flatten_widths unit _ fun x hx => h.widths x (List.mem_of_mem_take hx), hlen]

/-- A part between two stripes delivers the rest of its bytes exactly when
every stripe to come finds `D` live sources. -/
theorem atStripe_delivers (ec : Erasure) (unit : ℕ) (hpos : 0 < unit) (stripes : List Bytes)
    (ws : List (List Bytes)) (s : EcReadStream) (h : AtStripe rs ec unit stripes ws s) :
    Delivers (EcReadStream.step rs) s (stripes.flatten.take s.totalRemaining)
      (∀ k < ws.length, ec.dataShards ≤ aliveAt unit k (pending s)) := by
  induction ws generalizing stripes s with
  | nil =>
    have h0 : s.totalRemaining = 0 := by simpa using h.total_le
    refine ⟨fun _ => ?_,fun hl => absurd (fun k hk => absurd hk (Nat.not_lt_zero k)) hl⟩
    rw [h0, List.take_zero]
    exact .done _ (step_done rs s h0)
  | cons w ws ih =>
    obtain ⟨hwords,rfl,rfl,hleft,hserved,hdel,hle,hgt⟩ := h
    cases hwords with
    | @cons stripe _ stripes _ hword hwords =>
    have hwidth : 0 < s.ec.dataShards*s.stripeUnit := Nat.mul_pos s.ec.data_pos hpos
    rw [List.length_cons, Nat.succ_mul] at hle hgt
    have h0 : s.totalRemaining ≠ 0 := by omega
    have hne : s.stripesRemaining ≠ 0 := by simp [hleft]
    have hcols : w.length = (columns s.ec.total ws).length := by
      rw [hword.total, length_columns _ _ (codewords_total rs s.ec _ stripes ws hwords)]
    obtain ⟨hsurv,hdel'⟩ := ahead_split s.stripeUnit w _ _ hword.widths hcols hdel
    obtain ⟨hdlen,hslen⟩ := codeword_data_length rs s.ec s.stripeUnit stripe w hword
    by_cases halive : s.ec.dataShards ≤ aliveAt s.stripeUnit 0 (pending s)
    · have hrefill := refill_live rs s stripe w hword hsurv halive
      set s' := refilled s (w.take s.ec.dataShards) with hs'
      have hr' : s'.stripeRemainingBytes ≠ 0 := by
        obtain ⟨x,xs,hx⟩ := List.exists_cons_of_length_pos (hdlen ▸ s.ec.data_pos)
        have hxlen : x.length = s.stripeUnit :=
          hword.widths x (List.mem_of_mem_take (hx ▸ List.mem_cons_self))
        simp [hs', refilled, EcReadStream.stripeRemainingBytes, hx, hxlen]
        omega
      refine Delivers.of_step_eq (step_refill_ok rs s s' h0 hserved hne hrefill h0 hr') ?_
      obtain ⟨hlast,hmore⟩ := serve_drains rs s.stripeUnit hpos (w.take s.ec.dataShards)
        (fun x hx => hword.widths x (List.mem_of_mem_take hx)) s' rfl rfl
      rw [hword.data] at hlast hmore
      rw [List.flatten_cons, List.take_append, hslen]
      by_cases hfit : s.totalRemaining ≤ s.ec.dataShards*s.stripeUnit
      · have hws : ws.length = 0 := by
          by_contra hws
          have := Nat.le_mul_of_pos_left (s.ec.dataShards*s.stripeUnit) (Nat.pos_of_ne_zero hws)
          omega
        rw [Nat.sub_eq_zero_of_le hfit, List.take_zero, List.append_nil]
        refine ⟨fun _ => hlast (hslen ▸ hfit),fun hl => absurd (fun k hk => ?_) hl⟩
        obtain rfl : k = 0 := by simp [hws] at hk; exact hk
        exact halive
      · have hpassed : AtStripe rs s.ec s.stripeUnit stripes ws
            (passed s' (w.take s.ec.dataShards)) := by
          constructor
          case words => exact hwords
          case code => rfl
          case width => rfl
          case left => show s.stripesRemaining-1 = _; simp [hleft]
          case served => show (w.take s.ec.dataShards).length ≤ 0+_; omega
          case deliveries =>
            show Ahead _ (pending s')
            rw [hs', pending_refilled]
            exact hdel'
          case total_le => simp only [passed, hword.data, hslen]; show s.totalRemaining-_ ≤ _; omega
          case total_gt => simp only [passed, hword.data, hslen]; show _ < s.totalRemaining-_+_; omega
        obtain ⟨ih1,ih2⟩ := ih stripes _ hpassed
        have htotal : (passed s' (w.take s.ec.dataShards)).totalRemaining =
            s.totalRemaining-s.ec.dataShards*s.stripeUnit := by
          simp only [passed, hword.data, hslen]
          rfl
        have hlive : (∀ k < ws.length, s.ec.dataShards ≤
              aliveAt s.stripeUnit k (pending (passed s' (w.take s.ec.dataShards)))) ↔
            ∀ k < (w::ws).length, s.ec.dataShards ≤ aliveAt s.stripeUnit k (pending s) := by
          rw [show pending (passed s' (w.take s.ec.dataShards)) =
            (pending s).map (restOf s.stripeUnit) from pending_refilled s (w.take s.ec.dataShards)]
          exact live_cons s.stripeUnit s.ec.dataShards ws.length (pending s) halive
        rw [htotal] at ih1 ih2
        rw [List.take_of_length_le (by omega)]
        refine ⟨fun hl => hmore (by rw [hslen]; show _ < s.totalRemaining; omega) _ _
          (ih1 (hlive.mpr hl)),fun hl => ?_⟩
        obtain ⟨pre,e,hpre,hd⟩ := ih2 fun hl' => hl (hlive.mp hl')
        exact ⟨stripe ++ pre,e,(List.prefix_append_right_inj stripe).mpr hpre,
          hmore (by rw [hslen]; show _ < s.totalRemaining; omega) _ _ hd⟩
    · have hfail := step_refill_error rs s _ h0 hserved hne
        (refill_dead rs s (Nat.lt_of_not_le halive))
      exact ⟨fun hl => absurd (hl 0 (by simp)) halive,
        fun _ => ⟨[],_,List.nil_prefix,.fail _ _ hfail⟩⟩

end Serving

end Openlake.PartRead
