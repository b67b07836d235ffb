import Openlake.Types

/-!
# Sets of disks

The disks of all nodes, in the order of the nodes table, form one list that is
cut into sets of equal size. A bucket and a key are hashed to one set. The hash
is a parameter. Slicing past the end of the list panics in the source.
-/

set_option autoImplicit false

namespace Openlake.Cluster
open Openlake.Types

structure DiskAddr where
  nodeId : UInt16
  diskIdx : UInt16
  deriving DecidableEq, Repr

structure NodeAddr where
  id : UInt16
  diskCount : UInt16
  deriving DecidableEq, Repr

structure ClusterConfig where
  nodes : List NodeAddr
  setDriveCount : ℕ
  defaultParityCount : ℕ
  deriving DecidableEq, Repr

def NodeAddr.disks (n : NodeAddr) : List DiskAddr :=
  (List.range n.diskCount.toNat).map (fun d => ⟨n.id,UInt16.ofNat d⟩)

section Sets

variable (c : ClusterConfig)

def ClusterConfig.totalDisks : ℕ := (c.nodes.map (fun n => n.diskCount.toNat)).sum

/-- With disks, sets of no drives make the division panic. -/
def ClusterConfig.numSets : ℕ := if c.totalDisks = 0 then 0 else c.totalDisks/c.setDriveCount

def ClusterConfig.allDisks : List DiskAddr := c.nodes.flatMap NodeAddr.disks

def ClusterConfig.setDisks (setIndex : ℕ) : Option (List DiskAddr) :=
  let start := setIndex*c.setDriveCount
  let stop := start+c.setDriveCount
  if stop ≤ c.allDisks.length then some ((c.allDisks.drop start).take c.setDriveCount) else none

def ClusterConfig.setIndexFor (sip : Bytes → UInt64) (bucket key : String) : ℕ :=
  (sip (utf8 bucket ++ utf8 "/" ++ utf8 key)).toNat%max c.numSets 1

def ClusterConfig.disksFor (sip : Bytes → UInt64) (bucket key : String) : Option (List DiskAddr) :=
  c.setDisks (c.setIndexFor sip bucket key)

def ClusterConfig.writeQuorum : ℕ := c.setDriveCount

theorem length_allDisks : c.allDisks.length = c.totalDisks := by
  rw [ClusterConfig.allDisks, List.length_flatMap, ClusterConfig.totalDisks]
  simp [NodeAddr.disks]

theorem setDisks_setIndexFor (sip : Bytes → UInt64) (hdrives : 0 < c.setDriveCount)
    (henough : c.setDriveCount ≤ c.totalDisks) (bucket key : String) :
    ∃ disks, c.setDisks (c.setIndexFor sip bucket key) = some disks := by
  have hsets : c.numSets = c.totalDisks/c.setDriveCount := if_neg (by omega)
  have hpos : 0 < c.numSets := hsets ▸ Nat.div_pos henough hdrives
  have hlt : c.setIndexFor sip bucket key < c.numSets := by
    rw [ClusterConfig.setIndexFor, Nat.max_eq_left hpos]
    exact Nat.mod_lt _ hpos
  have hstop : (c.setIndexFor sip bucket key+1)*c.setDriveCount ≤ c.totalDisks :=
    (Nat.mul_le_mul_right _ hlt).trans (hsets ▸ Nat.div_mul_le_self _ _)
  rw [Nat.add_mul, Nat.one_mul, ← length_allDisks] at hstop
  exact ⟨_,if_pos hstop⟩

end Sets

end Openlake.Cluster
