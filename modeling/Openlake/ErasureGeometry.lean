import Openlake.ClusterSets
import Openlake.PutObject
import Openlake.RangedRead

/-!
# The code of an accepted configuration

The number of drives of a set is a machine word in the configuration and a byte
in the records. A put stamps the code of the set on the record of each disk;
encoding checks the stamp and a read checks it again.
-/

set_option autoImplicit false

namespace Openlake.ErasureGeometry
open Openlake.Types XlMeta XlMetaRoundTrip Records PutObject Cluster ServerConfig GetObject Ec
open Promote

/-- The record of disk `i` carries the code of a set of `n` disks. -/
structure Stamped (n i : ℕ) (fi : FileInfo) : Prop where
  blocks : fi.erasure.dataBlocks.toNat+fi.erasure.parityBlocks.toNat = n
  index : fi.erasure.index.toNat = i+1
  distribution : fi.erasure.distribution.map UInt8.toNat = List.range' 1 n
  valid : ∀ ctx, validateErasure fi.erasure ctx = .ok ()
  multiple : fi.erasure.blockSize ≠ 0 ∧
    fi.erasure.blockSize.toNat%fi.erasure.dataBlocks.toNat = 0
  aligned : fi.erasure.blockSize.toNat/fi.erasure.dataBlocks.toNat%512 = 0
  opened : fi.dataDir ≠ "" → ∀ (bucket key : String) (disks : Disks n) (offset : ℕ),
    ∃ stream, openStriped bucket key disks fi offset = .ok stream

section Small

variable {n : ℕ} (u : PutCall n) (hn : n ≤ 255) (hpos : 0 < u.parityShards)
  (hhalf : u.parityShards ≤ n/2)

include hn in
theorem toNat_ofNat_le {k : ℕ} (hk : k ≤ n) : (UInt8.ofNat k).toNat = k :=
  UInt8.toNat_ofNat_of_lt' (show k < 2^8 by omega)

include hn in
theorem distribution_eq :
    u.erasure.distribution.map UInt8.toNat = List.range' 1 n := by
  show ((List.range (UInt8.ofNat n).toNat).map (fun i => UInt8.ofNat (i+1))).map UInt8.toNat = _
  rw [toNat_ofNat_le hn le_rfl, List.map_map, List.range'_eq_map_range]
  refine List.map_congr_left fun i hi => ?_
  have hlt := List.mem_range.mp hi
  rw [Function.comp_apply, toNat_ofNat_le hn (by omega), Nat.add_comm]

include hn in
theorem blockSize_eq : u.erasure.blockSize.toNat = (n-u.parityShards)*defaultEcPerShardBytes := by
  show (UInt32.ofNat (defaultEcPerShardBytes*(UInt8.ofNat (n-u.parityShards)).toNat)).toNat = _
  rw [toNat_ofNat_le hn (Nat.sub_le _ _), defaultEcPerShardBytes, Nat.mul_comm]
  exact UInt32.toNat_ofNat_of_lt' (show (n-u.parityShards)*1048576 < 2^32 by omega)

include hn hpos hhalf in
theorem stamped_small (fi : FileInfo) (i : Fin n) : Stamped n i (indexed fi u.erasure i) := by
  have hd : u.erasure.dataBlocks.toNat = n-u.parityShards := toNat_ofNat_le hn (Nat.sub_le _ _)
  have hp : u.erasure.parityBlocks.toNat = u.parityShards := toNat_ofNat_le hn (by omega)
  have hi : (UInt8.ofNat (i.val+1)).toNat = i.val+1 := toNat_ofNat_le hn i.isLt
  have hb := blockSize_eq u hn
  have hdist := distribution_eq u hn
  have hunit : 0 < defaultEcPerShardBytes ∧ defaultEcPerShardBytes%512 = 0 := by decide
  have hdpos : 0 < n-u.parityShards := by omega
  have hquot : u.erasure.blockSize.toNat/u.erasure.dataBlocks.toNat = defaultEcPerShardBytes := by
    rw [hb, hd, Nat.mul_div_cancel_left _ hdpos]
  have hbpos : u.erasure.blockSize ≠ 0 := fun h => by
    have hzero := Nat.mul_pos hdpos hunit.1
    rw [← hb, h] at hzero
    exact absurd hzero (by decide)
  refine ⟨?_,hi,hdist,?_,⟨hbpos,?_⟩,?_,?_⟩
  · show u.erasure.dataBlocks.toNat+u.erasure.parityBlocks.toNat = n
    omega
  · intro ctx
    rw [validateErasure_eq_ok]
    have hlen := congrArg List.length hdist
    rw [List.length_map, List.length_range'] at hlen
    refine ⟨show "ReedSolomon" ≠ "" by decide,fun h => ?_,UInt8.le_iff_toNat_le.mpr ?_,?_,fun h => ?_,?_,hbpos⟩
    · have hzero : u.erasure.dataBlocks.toNat = 0 := congrArg UInt8.toNat h
      omega
    · show u.erasure.parityBlocks.toNat ≤ u.erasure.dataBlocks.toNat
      omega
    · show u.erasure.distribution.length = u.erasure.dataBlocks.toNat+u.erasure.parityBlocks.toNat
      omega
    · have hzero : (UInt8.ofNat (i.val+1)).toNat = 0 := congrArg UInt8.toNat h
      omega
    · show (UInt8.ofNat (i.val+1)).toNat ≤ u.erasure.dataBlocks.toNat+u.erasure.parityBlocks.toNat
      omega
  · show u.erasure.blockSize.toNat%u.erasure.dataBlocks.toNat = 0
    rw [hb, hd, Nat.mul_mod_right]
  · show u.erasure.blockSize.toNat/u.erasure.dataBlocks.toNat%512 = 0
    rw [hquot, hunit.2]
  · intro hdir bucket key disks offset
    have htotal : n = Erasure.total ⟨n-u.parityShards,u.parityShards,hdpos,hpos⟩ := by
      show n = n-u.parityShards+u.parityShards
      omega
    exact ⟨_,RangedRead.openStriped_eq _ _ disks _ _ defaultEcPerShardBytes htotal hunit.1 hunit.2
      hd hp hb hdir offset _ _ rfl⟩

end Small

/-- A put under an accepted configuration stamps the code of its set on every disk exactly
when a set has at most 255 drives. -/
theorem stamped_iff (env : Env) (parse : String → Except String Config) (text : String)
    {cfg : Config} (h : fromToml env parse text = .ok cfg) (hmode : cfg.mode = .storage)
    (u : PutCall cfg.setDriveCount) (hu : u.parityShards = cfg.defaultParityCount)
    (fi : FileInfo) :
    (∀ i : Fin cfg.setDriveCount, Stamped cfg.setDriveCount i (indexed fi u.erasure i)) ↔
      cfg.setDriveCount ≤ 255 := by
  have hcfg := accepted h hmode
  constructor
  · intro hall
    by_contra hlarge
    have hindex : (UInt8.ofNat (255+1)).toNat = 255+1 := (hall ⟨255,by omega⟩).index
    exact absurd hindex (by decide)
  · intro hsmall i
    exact stamped_small u hsmall (hu ▸ hcfg.parity) (hu ▸ hcfg.half) fi i

/-- One set of all drives of two nodes, the first of which has one. -/
def oneSet (drives : UInt16) : Config :=
  { twoNodes 1 with setDriveCount := drives.toNat+1, nodes := [⟨0,1⟩,⟨1,drives⟩] }

def emptyPut (n : ℕ) : PutCall n where
  size := 0
  src := []
  contentType := none
  modTimeMs := 1
  bucketMeta := .ok ⟨1,.unversioned,1,false⟩
  freshVersionId := ""
  parityShards := 1
  inlineThreshold := 131072
  dataDir := ""
  stagingId := "s"
  lock := .ok ()
  fence := .ok ()
  create _ := none
  writeAll _ _ := none
  finish _ := none
  rename _ := none
  cleanup _ := none

theorem widest_stamped : fromToml allThere (fun _ => .ok (oneSet 254)) "" = .ok (oneSet 254) ∧
    ∀ i : Fin 255, Stamped 255 i (indexed {} (emptyPut 255).erasure i) :=
  ⟨rfl,(stamped_iff allThere (fun _ => .ok (oneSet 254)) "" rfl rfl (emptyPut 255) rfl {}).mpr
    (by decide)⟩

/-- A set of 256 drives is accepted. The records of a put in it distribute over no disk, and
its last disk has no index. -/
theorem wider_truncated : fromToml allThere (fun _ => .ok (oneSet 255)) "" = .ok (oneSet 255) ∧
    (indexed {} (emptyPut 256).erasure 255).erasure.distribution = [] ∧
    (indexed {} (emptyPut 256).erasure 255).erasure.index = 0 ∧
    validateErasure (indexed {} (emptyPut 256).erasure 255).erasure .encode ≠ .ok () ∧
    ¬Stamped 256 255 (indexed {} (emptyPut 256).erasure 255) :=
  ⟨rfl,by decide,by decide,by decide,fun h => absurd h.index (by decide)⟩

end Openlake.ErasureGeometry
