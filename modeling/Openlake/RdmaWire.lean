import Mathlib

/-!
# Keys and immediate data

An endpoint is named by a node and a runtime. An acknowledgement is a send
without payload whose immediate data holds the key of its sender and a count, in
fields that are narrower than the values.
-/

set_option autoImplicit false

namespace Openlake.Rdma

def bufSize : ℕ := 16*1024

structure PeerKey where
  nodeId : UInt16
  runtimeId : UInt16
  deriving DecidableEq, Repr

inductive ImmType where
  | ack | close | other
  deriving DecidableEq, Repr

abbrev ImmData := UInt32

def immTypeAck : UInt32 := 1

def immTypeClose : UInt32 := 2

def ImmData.ack (src : PeerKey) (count : UInt32) : ImmData :=
  immTypeAck <<< 28 ||| (src.nodeId.toUInt32 &&& 0xFFF) <<< 16 |||
    (src.runtimeId.toUInt32 &&& 0xFF) <<< 8 ||| (count &&& 0xFF)

def ImmData.ty (i : ImmData) : ImmType :=
  let t := (i >>> 28) &&& 0xF
  if t = immTypeAck then .ack else if t = immTypeClose then .close else .other

def ImmData.src (i : ImmData) : PeerKey :=
  ⟨((i >>> 16) &&& 0xFFF).toUInt16,((i >>> 8) &&& 0xFF).toUInt16⟩

def ImmData.count (i : ImmData) : UInt32 := i &&& 0xFF

section Fields

variable (src : PeerKey) (count : UInt32)

theorem or_field {i b : ℕ} (a : ℕ) (h : b < 2^i) : a*2^i ||| b = a*2^i+b := by
  rw [← Nat.shiftLeft_eq, Nat.shiftLeft_add_eq_or_of_lt h]

theorem toNat_ack : (ImmData.ack src count).toNat =
    2^28+src.nodeId.toNat%2^12*2^16+src.runtimeId.toNat%2^8*2^8+count.toNat%2^8 := by
  have hn := Nat.mod_lt src.nodeId.toNat (show 0 < 2^12 by norm_num)
  have hr := Nat.mod_lt src.runtimeId.toNat (show 0 < 2^8 by norm_num)
  have hc := Nat.mod_lt count.toNat (show 0 < 2^8 by norm_num)
  have hnode : ((src.nodeId.toUInt32 &&& 0xFFF) <<< 16).toNat = src.nodeId.toNat%2^12*2^16 := by
    rw [UInt32.toNat_shiftLeft, UInt32.toNat_and, UInt16.toNat_toUInt32,
      show (0xFFF : UInt32).toNat = 2^12-1 from rfl, Nat.and_two_pow_sub_one_eq_mod,
      show (16 : UInt32).toNat%32 = 16 from rfl, Nat.shiftLeft_eq]
    exact Nat.mod_eq_of_lt (by omega)
  have hruntime : ((src.runtimeId.toUInt32 &&& 0xFF) <<< 8).toNat =
      src.runtimeId.toNat%2^8*2^8 := by
    rw [UInt32.toNat_shiftLeft, UInt32.toNat_and, UInt16.toNat_toUInt32,
      show (0xFF : UInt32).toNat = 2^8-1 from rfl, Nat.and_two_pow_sub_one_eq_mod,
      show (8 : UInt32).toNat%32 = 8 from rfl, Nat.shiftLeft_eq]
    exact Nat.mod_eq_of_lt (by omega)
  have hcount : (count &&& 0xFF).toNat = count.toNat%2^8 := by
    rw [UInt32.toNat_and, show (0xFF : UInt32).toNat = 2^8-1 from rfl,
      Nat.and_two_pow_sub_one_eq_mod]
  rw [ImmData.ack, UInt32.toNat_or, UInt32.toNat_or, UInt32.toNat_or, hnode, hruntime, hcount,
    show (immTypeAck <<< 28 : UInt32).toNat = 1*2^28 from rfl, or_field 1 (by omega),
    show 1*2^28+src.nodeId.toNat%2^12*2^16 = (2^12+src.nodeId.toNat%2^12)*2^16 by omega,
    or_field _ (by omega),
    show (2^12+src.nodeId.toNat%2^12)*2^16+src.runtimeId.toNat%2^8*2^8 =
      ((2^12+src.nodeId.toNat%2^12)*2^8+src.runtimeId.toNat%2^8)*2^8 by omega,
    or_field _ (by omega)]
  omega

theorem toNat_shiftRight_and (i : UInt32) (k w : ℕ) (hk : k < 32) (hw : w < 32) :
    ((i >>> UInt32.ofNat k) &&& UInt32.ofNat (2^w-1)).toNat = i.toNat/2^k%2^w := by
  have hpow : 2^w < 2^32 := Nat.pow_lt_pow_right (by norm_num) hw
  rw [UInt32.toNat_and, UInt32.toNat_shiftRight,
    UInt32.toNat_ofNat_of_lt' (show k < 2^32 by omega), Nat.mod_eq_of_lt hk,
    UInt32.toNat_ofNat_of_lt' (show 2^w-1 < 2^32 by omega), Nat.and_two_pow_sub_one_eq_mod,
    Nat.shiftRight_eq_div_pow]

theorem ty_ack : (ImmData.ack src count).ty = .ack := by
  have h := toNat_shiftRight_and (ImmData.ack src count) 28 4 (by norm_num) (by norm_num)
  rw [toNat_ack] at h
  have ht : (ImmData.ack src count >>> 28) &&& 0xF = immTypeAck :=
    UInt32.toNat_inj.mp (h.trans (show _ = 1 by omega))
  rw [ImmData.ty, ht]
  rfl

theorem toNat_count_ack : (ImmData.ack src count).count.toNat = count.toNat%2^8 := by
  rw [ImmData.count, UInt32.toNat_and, show (0xFF : UInt32).toNat = 2^8-1 from rfl,
    Nat.and_two_pow_sub_one_eq_mod, toNat_ack]
  omega

theorem src_ack_iff : (ImmData.ack src count).src = src ↔
    src.nodeId.toNat < 2^12 ∧ src.runtimeId.toNat < 2^8 := by
  have hnode := toNat_shiftRight_and (ImmData.ack src count) 16 12 (by norm_num) (by norm_num)
  have hruntime := toNat_shiftRight_and (ImmData.ack src count) 8 8 (by norm_num) (by norm_num)
  rw [toNat_ack] at hnode hruntime
  have hn : (ImmData.ack src count).src.nodeId.toNat = src.nodeId.toNat%2^12 := by
    rw [ImmData.src, UInt32.toNat_toUInt16]
    refine (congrArg (fun x => x%2^16) hnode).trans ?_
    omega
  have hr : (ImmData.ack src count).src.runtimeId.toNat = src.runtimeId.toNat%2^8 := by
    rw [ImmData.src, UInt32.toNat_toUInt16]
    refine (congrArg (fun x => x%2^16) hruntime).trans ?_
    omega
  constructor
  · intro h
    rw [h] at hn hr
    omega
  · rintro ⟨hnode,hruntime⟩
    rw [Nat.mod_eq_of_lt hnode] at hn
    rw [Nat.mod_eq_of_lt hruntime] at hr
    generalize (ImmData.ack src count).src = key at hn hr ⊢
    cases key
    cases src
    exact congrArg₂ PeerKey.mk (UInt16.toNat_inj.mp hn) (UInt16.toNat_inj.mp hr)

end Fields

end Openlake.Rdma
