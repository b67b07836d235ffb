import Openlake.Types

/-!
# Erasure coding of one stripe

The Reed-Solomon crate is a parameter: its encoder gives the recovery shards
of a stripe and its decoder the originals it could restore, with the text of
the error where it refuses. That it is an MDS code is the hypothesis `Mds`.

A `Codeword` is what the reader needs of an encoded stripe: the data shards
spell the stripe, and any `D` of the shards decode to them.
-/

set_option autoImplicit false

namespace Openlake.Ec
open Openlake.Types

structure ReedSolomon where
  encode : (dataShards parityShards unit : ℕ) → List Bytes → Except String (ℕ → Option Bytes)
  decode : (dataShards parityShards unit : ℕ) → List (Option Bytes) →
    Except String (ℕ → Option Bytes)

structure Erasure where
  dataShards : ℕ
  parityShards : ℕ
  data_pos : 0 < dataShards
  parity_pos : 0 < parityShards

namespace Erasure

def new (dataShards parityShards : ℕ) : Except String Erasure :=
  if h : 0 < dataShards ∧ 0 < parityShards then .ok ⟨dataShards,parityShards,h.1,h.2⟩
  else .error ("EC requires data_shards>=1 and parity_shards>=1 (got " ++ toString dataShards ++
    "+" ++ toString parityShards ++ ")")

def total (ec : Erasure) : ℕ := ec.dataShards+ec.parityShards

end Erasure

def divCeil (a b : ℕ) : ℕ := (a+b-1)/b

def stripeCount (size width : ℕ) : ℕ := max (divCeil size width) 1

def shardSize (blockSize dataShards : ℕ) : ℕ :=
  let raw := divCeil blockSize dataShards
  raw+raw%2

def dataShardsOf (n unit : ℕ) (stripe : Bytes) : List Bytes :=
  (List.range n).map (fun i => (stripe.drop (i*unit)).take unit)

def recoveryShard (result : ℕ → Option Bytes) (i : ℕ) : Except String Bytes :=
  match result i with
  | some parity => .ok parity
  | none => .error ("encode: recovery shard " ++ toString i ++ " missing")

def encodeStripe (rs : ReedSolomon) (ec : Erasure) (stripe : Bytes) :
    Except String (List Bytes) :=
  let n := ec.dataShards
  if stripe.length = 0 ∨ stripe.length%n ≠ 0 then
    .error ("encode_stripe: stripe len " ++ toString stripe.length ++ " not divisible by " ++
      toString n ++ " data shards")
  else
    let unit := stripe.length/n
    if unit%2 ≠ 0 then .error ("encode_stripe: shard unit " ++ toString unit ++ " must be even")
    else do
      let result ← rs.encode n ec.parityShards unit (dataShardsOf n unit stripe)
      let parity ← (List.range ec.parityShards).mapM (recoveryShard result)
      return dataShardsOf n unit stripe ++ parity

def checkLens (kind : String) (unit : ℕ) : ℕ → List (Option Bytes) → Except String Unit
  | _,[] => .ok ()
  | i,none::rest => checkLens kind unit (i+1) rest
  | i,some s::rest =>
    if s.length ≠ unit then
      .error ("decode_stripe: " ++ kind ++ " shard " ++ toString i ++ " len " ++
        toString s.length ++ " != unit " ++ toString unit)
    else checkLens kind unit (i+1) rest

def restoreOriginals (restored : ℕ → Option Bytes) :
    ℕ → List (Option Bytes) → Except String (List Bytes)
  | _,[] => .ok []
  | i,some orig::rest => do
    let out ← restoreOriginals restored (i+1) rest
    return orig::out
  | i,none::rest =>
    match restored i with
    | none => .error ("decode: shard " ++ toString i ++ " not restored")
    | some b => do
      let out ← restoreOriginals restored (i+1) rest
      return b::out

def decodeStripe (rs : ReedSolomon) (ec : Erasure) (shards : List (Option Bytes)) (unit : ℕ) :
    Except String (List Bytes) :=
  let n := ec.dataShards
  if shards.length ≠ ec.total then
    .error ("decode_stripe: expected " ++ toString ec.total ++ " shard slots, got " ++
      toString shards.length)
  else if unit = 0 ∨ unit%2 ≠ 0 then
    .error ("decode_stripe: shard unit " ++ toString unit ++ " must be non-zero and even")
  else if (shards.take n).countP Option.isSome = n then .ok ((shards.take n).filterMap id)
  else do
    checkLens "original" unit 0 (shards.take n)
    checkLens "recovery" unit n (shards.drop n)
    let restored ← rs.decode n ec.parityShards unit shards
    restoreOriginals restored 0 (shards.take n)

def Survives (shards : List Bytes) (slots : List (Option Bytes)) : Prop :=
  List.Forall₂ (fun w o => o = none ∨ o = some w) shards slots

/-- Encoding succeeds on every stripe of `D` shards of `unit` bytes, and any
`D` of the `D+P` shards restore the data shards that are missing. -/
def Mds (rs : ReedSolomon) (ec : Erasure) (unit : ℕ) : Prop :=
  ∀ originals : List Bytes, originals.length = ec.dataShards → (∀ o ∈ originals, o.length = unit) →
    ∃ result recovery, rs.encode ec.dataShards ec.parityShards unit originals = .ok result ∧
      recovery.length = ec.parityShards ∧ (∀ r ∈ recovery, r.length = unit) ∧
      (∀ i < ec.parityShards, result i = recovery[i]?) ∧
      ∀ slots, Survives (originals ++ recovery) slots →
        ec.dataShards ≤ slots.countP Option.isSome →
        ∃ restored, rs.decode ec.dataShards ec.parityShards unit slots = .ok restored ∧
          ∀ i < ec.dataShards, slots[i]? = some none → restored i = originals[i]?

structure Codeword (rs : ReedSolomon) (ec : Erasure) (unit : ℕ) (stripe : Bytes)
    (shards : List Bytes) : Prop where
  total : shards.length = ec.total
  widths : ∀ w ∈ shards, w.length = unit
  data : (shards.take ec.dataShards).flatten = stripe
  decodes : ∀ slots, Survives shards slots → ec.dataShards ≤ slots.countP Option.isSome →
    decodeStripe rs ec slots unit = .ok (shards.take ec.dataShards)

@[simp] theorem length_dataShardsOf (n unit : ℕ) (stripe : Bytes) :
    (dataShardsOf n unit stripe).length = n := by
  simp [dataShardsOf]

theorem unit_dataShardsOf (n unit : ℕ) (stripe : Bytes) (h : stripe.length = n*unit) :
    ∀ w ∈ dataShardsOf n unit stripe, w.length = unit := by
  intro w hw
  obtain ⟨i,hi,rfl⟩ := List.mem_map.mp hw
  have hin : (i+1)*unit ≤ n*unit := Nat.mul_le_mul_right unit (List.mem_range.mp hi)
  rw [Nat.succ_mul] at hin
  simp
  omega

theorem dataShardsOf_succ (n unit : ℕ) (stripe : Bytes) :
    dataShardsOf (n+1) unit stripe = stripe.take unit::dataShardsOf n unit (stripe.drop unit) := by
  simp only [dataShardsOf, List.range_succ_eq_map, List.map_cons, List.map_map, Nat.zero_mul,
    List.drop_zero]
  congr 1
  apply List.map_congr_left
  intro i _
  simp [List.drop_drop, Nat.succ_mul, Nat.add_comm]

theorem flatten_dataShardsOf (n unit : ℕ) (stripe : Bytes) (h : stripe.length = n*unit) :
    (dataShardsOf n unit stripe).flatten = stripe := by
  induction n generalizing stripe with
  | zero =>
    rw [Nat.zero_mul] at h
    rw [List.length_eq_zero_iff.mp h]
    rfl
  | succ n ih =>
    rw [Nat.succ_mul] at h
    rw [dataShardsOf_succ, List.flatten_cons, ih _ (by simp; omega), List.take_append_drop]

theorem mapM_recoveryShard (result : ℕ → Option Bytes) (recovery : List Bytes)
    (h : ∀ i < recovery.length, result i = recovery[i]?) :
    (List.range recovery.length).mapM (recoveryShard result) = .ok recovery := by
  have hgen : ∀ (rest : List Bytes) (k : ℕ), (∀ i < rest.length, result (k+i) = rest[i]?) →
      (List.range' k rest.length).mapM (recoveryShard result) = .ok rest := by
    intro rest
    induction rest with
    | nil => intro k _; rfl
    | cons b rest ih =>
      intro k hk
      have h0 : result k = some b := by simpa using hk 0 (by simp)
      have hrest := ih (k+1) fun i hi => by
        have := hk (i+1) (by simpa using hi)
        simpa [Nat.add_assoc, Nat.add_comm 1 i] using this
      simp only [List.length_cons, List.range'_succ, List.mapM_cons, recoveryShard, h0, hrest]
      rfl
  simpa [List.range_eq_range'] using hgen recovery 0 (by simpa using h)

theorem Survives.length {shards : List Bytes} {slots : List (Option Bytes)}
    (h : Survives shards slots) : slots.length = shards.length := (List.Forall₂.length_eq h).symm

theorem checkLens_ok (kind : String) (unit : ℕ) (shards : List Bytes) (slots : List (Option Bytes))
    (h : Survives shards slots) (hunit : ∀ w ∈ shards, w.length = unit) (i : ℕ) :
    checkLens kind unit i slots = .ok () := by
  induction h generalizing i with
  | nil => rfl
  | cons ho _ ih =>
    have hrest := fun i => ih (fun w hw => hunit w (List.mem_cons_of_mem _ hw)) i
    rcases ho with rfl | rfl
    · exact hrest (i+1)
    · simp [checkLens, hunit, hrest]

theorem restoreOriginals_ok (restored : ℕ → Option Bytes) (originals : List Bytes)
    (slots : List (Option Bytes)) (h : Survives originals slots) (k : ℕ)
    (hr : ∀ i < originals.length, slots[i]? = some none → restored (k+i) = originals[i]?) :
    restoreOriginals restored k slots = .ok originals := by
  induction h generalizing k with
  | nil => rfl
  | @cons w o originals slots ho _ ih =>
    have hrest : restoreOriginals restored (k+1) slots = .ok originals := by
      apply ih
      intro i hi hslot
      have := hr (i+1) (by simpa using hi) (by simpa using hslot)
      simpa [Nat.add_assoc, Nat.add_comm 1 i] using this
    rcases ho with rfl | rfl
    · have h0 : restored k = some w := by simpa using hr 0 (by simp) (by simp)
      simp only [restoreOriginals, h0, hrest]
      rfl
    · simp only [restoreOriginals, hrest]
      rfl

theorem filterMap_all_present (originals : List Bytes) (slots : List (Option Bytes))
    (h : Survives originals slots) (hall : slots.countP Option.isSome = originals.length) :
    slots.filterMap id = originals := by
  induction h with
  | nil => rfl
  | @cons w o originals slots ho hs ih =>
    have hle : slots.countP Option.isSome ≤ originals.length := by
      rw [← Survives.length hs]
      exact List.countP_le_length
    rcases ho with rfl | rfl
    · simp at hall
      omega
    · simp only [List.countP_cons, Option.isSome_some, if_true, List.length_cons,
        Nat.add_right_cancel_iff] at hall
      exact congrArg (w::·) (ih hall)

theorem decodeStripe_ok (rs : ReedSolomon) (ec : Erasure) (unit : ℕ) (originals recovery : List Bytes)
    (hpos : 0 < unit) (heven : unit%2 = 0) (ho : originals.length = ec.dataShards)
    (hrec : recovery.length = ec.parityShards)
    (hunit : ∀ w ∈ originals ++ recovery, w.length = unit) (slots : List (Option Bytes))
    (hs : Survives (originals ++ recovery) slots)
    (hr : ∃ restored, rs.decode ec.dataShards ec.parityShards unit slots = .ok restored ∧
      ∀ i < ec.dataShards, slots[i]? = some none → restored i = originals[i]?) :
    decodeStripe rs ec slots unit = .ok originals := by
  have hlen : slots.length = ec.total := by
    rw [hs.length, List.length_append, ho, hrec, Erasure.total]
  have hdata : Survives originals (slots.take ec.dataShards) := by
    have := List.forall₂_take ec.dataShards hs
    rwa [← ho, List.take_left, ho] at this
  have hparity : Survives recovery (slots.drop ec.dataShards) := by
    have := List.forall₂_drop ec.dataShards hs
    rwa [← ho, List.drop_left, ho] at this
  have hunit0 : ¬(unit = 0 ∨ unit%2 ≠ 0) := by omega
  rw [decodeStripe, if_neg (by simpa using hlen), if_neg hunit0]
  split_ifs with hall
  · rw [filterMap_all_present originals _ hdata (by rw [hall, ho])]
  · obtain ⟨restored,hdec,hres⟩ := hr
    have hroom : ec.dataShards ≤ slots.length := by rw [hlen, Erasure.total]; omega
    rw [checkLens_ok _ _ _ _ hdata fun w hw => hunit w (List.mem_append_left _ hw),
      checkLens_ok _ _ _ _ hparity fun w hw => hunit w (List.mem_append_right _ hw), hdec]
    apply restoreOriginals_ok restored originals _ hdata 0
    intro i hi hslot
    rw [ho] at hi
    rw [List.getElem?_take_of_lt hi] at hslot
    simpa using hres i hi hslot

/-- Under an MDS code every full stripe encodes to a codeword. -/
theorem encodeStripe_codeword (rs : ReedSolomon) (ec : Erasure) (unit : ℕ)
    (hmds : Mds rs ec unit) (hpos : 0 < unit) (heven : unit%2 = 0) (stripe : Bytes)
    (hlen : stripe.length = ec.dataShards*unit) :
    ∃ shards, encodeStripe rs ec stripe = .ok shards ∧ Codeword rs ec unit stripe shards := by
  have hunit := unit_dataShardsOf ec.dataShards unit stripe hlen
  obtain ⟨result,recovery,henc,hrec,hrunit,hresult,hdec⟩ :=
    hmds (dataShardsOf ec.dataShards unit stripe) (by simp) hunit
  have hquot : stripe.length/ec.dataShards = unit := by
    rw [hlen, Nat.mul_div_cancel_left unit ec.data_pos]
  have hdiv : ¬(stripe.length = 0 ∨ stripe.length%ec.dataShards ≠ 0) := by
    have := Nat.mul_pos ec.data_pos hpos
    rw [hlen, Nat.mul_mod_right]
    omega
  have hparity : (List.range ec.parityShards).mapM (recoveryShard result) = .ok recovery := by
    rw [← hrec]
    exact mapM_recoveryShard result recovery (by rw [hrec]; exact hresult)
  refine ⟨dataShardsOf ec.dataShards unit stripe ++ recovery,?_,?_⟩
  · rw [encodeStripe, if_neg hdiv, hquot, if_neg (by simp [heven]), henc]
    simp only [hparity, bind, Except.bind, pure, Except.pure]
  · have hall : ∀ w ∈ dataShardsOf ec.dataShards unit stripe ++ recovery, w.length = unit := by
      intro w hw
      rcases List.mem_append.mp hw with hw | hw
      · exact hunit w hw
      · exact hrunit w hw
    have htake : (dataShardsOf ec.dataShards unit stripe ++ recovery).take ec.dataShards =
        dataShardsOf ec.dataShards unit stripe := by simp
    constructor
    case total => simp [hrec, Erasure.total]
    case widths => exact hall
    case data => rw [htake, flatten_dataShardsOf _ _ _ hlen]
    case decodes =>
      intro slots hs hcount
      rw [htake]
      exact decodeStripe_ok rs ec unit _ recovery hpos heven (by simp) hrec hall slots hs
        (hdec slots hs hcount)

end Openlake.Ec
