import Openlake.ServerConfig

/-!
# The sets of an accepted configuration

An accepted configuration in storage mode cuts its disks into sets of equal size
and routes every key to one of them. The disks are different disks only when the
nodes that have some are different nodes.
-/

set_option autoImplicit false

namespace Openlake.Cluster
open ServerConfig Lib.Outcomes

theorem bail_eq_ok {p : Prop} [Decidable p] {msg : String} : bail p msg = .ok () ↔ ¬p := by
  rw [bail]
  split_ifs with h <;> simp [h]

/-- What the checks of storage mode say of the sets. -/
structure Accepted (cfg : Config) : Prop where
  drives : 0 < cfg.setDriveCount
  enough : cfg.setDriveCount ≤ cfg.cluster.totalDisks
  whole : cfg.setDriveCount ∣ cfg.cluster.totalDisks
  parity : 0 < cfg.defaultParityCount
  half : cfg.defaultParityCount ≤ cfg.setDriveCount/2

theorem accepted {env : Env} {parse : String → Except String Config} {text : String}
    {cfg : Config} (h : fromToml env parse text = .ok cfg) (hmode : cfg.mode = .storage) :
    Accepted cfg := by
  obtain ⟨cfg',-,h⟩ := bind_eq_ok.mp h
  obtain ⟨hcheck,hret⟩ := unit_bind_eq_ok.mp h
  cases hret
  rw [Config.check] at hcheck
  simp only [hmode, if_true, reduceCtorEq, if_false, unit_bind_eq_ok, bail_eq_ok] at hcheck
  obtain ⟨-,-,hstorage,-⟩ := hcheck
  simp only [Config.checkStorage, unit_bind_eq_ok, bail_eq_ok] at hstorage
  obtain ⟨-,hdrives,hwhole,hparity,hhalf,-⟩ := hstorage
  push Not at hdrives hwhole hparity hhalf
  exact ⟨Nat.pos_of_ne_zero hdrives.1,hdrives.2,Nat.dvd_of_mod_eq_zero hwhole,
    Nat.pos_of_ne_zero hparity,hhalf⟩

/-- The sets are different disks of the whole, each of the set's size, and every key is
routed to one of them. -/
structure Partitioned (sip : Types.Bytes → UInt64) (c : ClusterConfig) : Prop where
  distinct : c.allDisks.Nodup
  whole : ∀ i < c.numSets, ∃ disks, c.setDisks i = some disks ∧ disks.length = c.setDriveCount ∧
    disks ⊆ c.allDisks
  apart : ∀ i < c.numSets, ∀ j < c.numSets, i ≠ j → ∀ ds ∈ c.setDisks i, ∀ es ∈ c.setDisks j,
    ds.Disjoint es
  covered : ∀ d ∈ c.allDisks, ∃ i < c.numSets, ∃ disks ∈ c.setDisks i, d ∈ disks
  routed : ∀ bucket key, ∃ i < c.numSets, ∃ disks ∈ c.setDisks i,
    c.disksFor sip bucket key = some disks

def DistinctNodes (c : ClusterConfig) : Prop :=
  ((c.nodes.filter (fun n => 0 < n.diskCount)).map NodeAddr.id).Nodup

theorem nodup_disks (n : NodeAddr) : n.disks.Nodup := by
  refine List.Nodup.map_on ?_ List.nodup_range
  intro a ha b hb h
  have hlt := n.diskCount.toNat_lt
  have hidx := congrArg UInt16.toNat (congrArg DiskAddr.diskIdx h)
  rw [List.mem_range] at ha hb
  have hsmall : ∀ k < n.diskCount.toNat, (UInt16.ofNat k).toNat = k := fun k hk =>
    UInt16.toNat_ofNat_of_lt' (show k < 2^16 by omega)
  exact (hsmall a ha).symm.trans (hidx.trans (hsmall b hb))

theorem disks_disjoint_iff (m n : NodeAddr) :
    m.disks.Disjoint n.disks ↔ (0 < m.diskCount → 0 < n.diskCount → m.id ≠ n.id) := by
  constructor
  · intro h hm hn hid
    have hzero : ∀ k : NodeAddr, 0 < k.diskCount → ⟨k.id,0⟩ ∈ k.disks := fun k hk =>
      List.mem_map.mpr ⟨0,List.mem_range.mpr (UInt16.lt_iff_toNat_lt.mp hk),rfl⟩
    exact h (hzero m hm) (hid ▸ hzero n hn)
  · intro h d hm hn
    obtain ⟨a,ha,rfl⟩ := List.mem_map.mp hm
    obtain ⟨b,hb,heq⟩ := List.mem_map.mp hn
    rw [List.mem_range] at ha hb
    exact h (UInt16.lt_iff_toNat_lt.mpr (Nat.zero_lt_of_lt ha))
      (UInt16.lt_iff_toNat_lt.mpr (Nat.zero_lt_of_lt hb)) (congrArg DiskAddr.nodeId heq).symm

theorem nodup_allDisks_iff (c : ClusterConfig) : c.allDisks.Nodup ↔ DistinctNodes c := by
  have hids : DistinctNodes c ↔ c.nodes.Pairwise (fun m n =>
      0 < m.diskCount → 0 < n.diskCount → m.id ≠ n.id) := by
    rw [DistinctNodes, List.nodup_iff_pairwise_ne, List.pairwise_map, List.pairwise_filter]
    simp
  rw [ClusterConfig.allDisks, List.nodup_flatMap, hids]
  refine ⟨fun h => h.2.imp fun hdisj => ?_,fun h => ⟨fun n _ => nodup_disks n,h.imp fun hne => ?_⟩⟩
  · exact (disks_disjoint_iff _ _).mp hdisj
  · exact (disks_disjoint_iff _ _).mpr hne

theorem mem_slice {α : Type} (l : List α) (start len : ℕ) (a : α) :
    a ∈ (l.drop start).take len ↔ ∃ k, start ≤ k ∧ k < start+len ∧ l[k]? = some a := by
  rw [List.mem_iff_getElem?]
  constructor
  · rintro ⟨k,hk⟩
    rw [List.getElem?_take, List.getElem?_drop] at hk
    split_ifs at hk with hlt
    exact ⟨start+k,Nat.le_add_right _ _,by omega,hk⟩
  · rintro ⟨k,hlow,hhigh,hk⟩
    refine ⟨k-start,?_⟩
    rw [List.getElem?_take, if_pos (by omega), List.getElem?_drop, Nat.add_sub_cancel' hlow, hk]

section Accepted

variable {cfg : Config} (h : Accepted cfg)

include h

theorem Accepted.numSets_mul : cfg.cluster.numSets*cfg.setDriveCount = cfg.cluster.totalDisks := by
  have hdrives := h.drives
  have henough := h.enough
  rw [ClusterConfig.numSets, if_neg (by omega)]
  exact Nat.div_mul_cancel h.whole

theorem Accepted.numSets_pos : 0 < cfg.cluster.numSets := by
  have hmul := h.numSets_mul
  have hdrives := h.drives
  have henough := h.enough
  exact Nat.pos_of_ne_zero fun hzero => by rw [hzero, Nat.zero_mul] at hmul; omega

theorem Accepted.setDisks {i : ℕ} (hi : i < cfg.cluster.numSets) : cfg.cluster.setDisks i =
    some ((cfg.cluster.allDisks.drop (i*cfg.setDriveCount)).take cfg.setDriveCount) := by
  have hstop : (i+1)*cfg.setDriveCount ≤ cfg.cluster.numSets*cfg.setDriveCount :=
    Nat.mul_le_mul_right _ hi
  rw [h.numSets_mul, Nat.add_mul, Nat.one_mul, ← length_allDisks] at hstop
  exact if_pos hstop

theorem Accepted.partitioned (sip : Types.Bytes → UInt64) (hnodes : DistinctNodes cfg.cluster) :
    Partitioned sip cfg.cluster := by
  have hnodup := (nodup_allDisks_iff _).mpr hnodes
  have hmul := h.numSets_mul
  rw [← length_allDisks] at hmul
  refine ⟨hnodup,?_,?_,?_,?_⟩
  · intro i hi
    refine ⟨_,h.setDisks hi,?_,?_⟩
    · have hstop := Nat.mul_le_mul_right cfg.setDriveCount (Nat.succ_le_of_lt hi)
      rw [hmul, Nat.succ_mul] at hstop
      rw [List.length_take, List.length_drop, Nat.min_eq_left (by omega)]
      rfl
    · exact fun d hd => List.mem_of_mem_drop (List.mem_of_mem_take hd)
  · intro i hi j hj hij ds hds es hes d hd he
    rw [h.setDisks hi] at hds
    rw [h.setDisks hj] at hes
    cases hds
    cases hes
    obtain ⟨k,hk,hk',hget⟩ := (mem_slice _ _ _ _).mp hd
    obtain ⟨m,hm,hm',hget'⟩ := (mem_slice _ _ _ _).mp he
    obtain rfl : k = m := by
      obtain ⟨hlt,hval⟩ := List.getElem?_eq_some_iff.mp hget
      obtain ⟨hlt',hval'⟩ := List.getElem?_eq_some_iff.mp hget'
      exact hnodup.getElem_inj_iff.mp (hval.trans hval'.symm)
    have hi' : k/cfg.setDriveCount = i := Nat.div_eq_of_lt_le hk (by rw [Nat.succ_mul]; exact hk')
    have hj' : k/cfg.setDriveCount = j := Nat.div_eq_of_lt_le hm (by rw [Nat.succ_mul]; exact hm')
    exact hij (hi'.symm.trans hj')
  · intro d hd
    obtain ⟨k,hget⟩ := List.mem_iff_getElem?.mp hd
    obtain ⟨hlt,-⟩ := List.getElem?_eq_some_iff.mp hget
    have hi : k/cfg.setDriveCount < cfg.cluster.numSets :=
      Nat.div_lt_of_lt_mul (by rw [Nat.mul_comm, hmul]; exact hlt)
    refine ⟨_,hi,_,h.setDisks hi,(mem_slice _ _ _ _).mpr ⟨k,Nat.div_mul_le_self _ _,?_,hget⟩⟩
    exact Nat.lt_div_mul_add h.drives
  · intro bucket key
    have hi : cfg.cluster.setIndexFor sip bucket key < cfg.cluster.numSets := by
      have hpos := h.numSets_pos
      rw [ClusterConfig.setIndexFor, Nat.max_eq_left hpos]
      exact Nat.mod_lt _ hpos
    exact ⟨_,hi,_,h.setDisks hi,h.setDisks hi⟩

end Accepted

/-- An accepted configuration in storage mode cuts its disks into sets as promised exactly
when the nodes with disks have different ids. -/
theorem accepted_sets_partitioned_iff (env : Env) (parse : String → Except String Config)
    (text : String) (sip : Types.Bytes → UInt64) {cfg : Config}
    (h : fromToml env parse text = .ok cfg) (hmode : cfg.mode = .storage) :
    Partitioned sip cfg.cluster ↔ DistinctNodes cfg.cluster :=
  ⟨fun hsets => (nodup_allDisks_iff _).mp hsets.distinct,(accepted h hmode).partitioned sip⟩

def mountedDir (name : String) : PathBuf := ⟨"/" ++ name,["/",name]⟩

def twoNodes (second : UInt16) : Config where
  selfId := 0
  dataDirs := [mountedDir "disk0"]
  setDriveCount := 2
  defaultParityCount := 1
  region := "us-east-1"
  credentials := [⟨"key","secret"⟩]
  nodes := [⟨0,1⟩,⟨second,1⟩]
  s3Tls := none
  rpcTls := none
  mode := .storage
  transport := .h2
  rdma := none
  kvSlab := none

def allThere : Env := ⟨fun _ => true,fun _ => true,false⟩

theorem twoNodes_partitioned : DistinctNodes (twoNodes 1).cluster ∧
    Partitioned (fun _ => 0) (twoNodes 1).cluster := by
  have hnodes : DistinctNodes (twoNodes 1).cluster := by
    rw [DistinctNodes]
    decide
  exact ⟨hnodes,(accepted_sets_partitioned_iff allThere (fun _ => .ok (twoNodes 1)) ""
    (fun _ => 0) rfl rfl).mpr hnodes⟩

/-- A node id given twice is accepted, and the two disks of the set are one. -/
theorem sameNode_accepted :
    fromToml allThere (fun _ => .ok (twoNodes 0)) "" = .ok (twoNodes 0) ∧
      (twoNodes 0).cluster.allDisks = [⟨0,0⟩,⟨0,0⟩] ∧
        ¬Partitioned (fun _ => 0) (twoNodes 0).cluster :=
  ⟨rfl,by decide,fun h => absurd h.distinct (by decide)⟩

end Openlake.Cluster
