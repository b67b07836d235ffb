import Openlake.Lib.ByteCodec
import Openlake.Types

/-!
# Keys of the KV cache connector

Every worker rank of a parallel deployment saves its shard of a chunk of tokens
under a key made of the chunk's hash, the model, the group of layers and the
rank's namespace. The scheduler looks a chunk up under the namespaces of all ranks.
The two compute the namespaces, and which rank saves which chunk, by formulas of
their own: the ranks that share a head group take turns by the put step.
-/

set_option autoImplicit false

namespace Openlake.KvKeys
open Openlake.Types Lib.ByteCodec

structure ModelConfig where
  useMla : Bool
  totalNumKvHeads : ℕ

def numKvHead (m : ModelConfig) : ℕ := if m.useMla then 1 else m.totalNumKvHeads

structure ParallelConfig where
  tensorParallelSize : ℕ
  pipelineParallelSize : ℕ
  prefillContextParallelSize : ℕ
  decodeContextParallelSize : ℕ
  model : ModelConfig
  /-- The `openlake_put_step` setting. -/
  openlakePutStep : ℤ

structure KvCacheGroup where
  blockSize : ℕ
  crossAttention : Bool

structure KvCacheConfig where
  groups : List KvCacheGroup
  hashBs : ℕ
  schedBs : ℕ
  modelTag : Bytes

def unsupported (p : ParallelConfig) (groups : List KvCacheGroup) : List String :=
  let pcp := p.prefillContextParallelSize
  let dcp := p.decodeContextParallelSize
  groups.zipIdx.filterMap (fun g =>
    if g.1.crossAttention then some ("group " ++ toString g.2 ++ ": CrossAttentionSpec") else none) ++
  (if 1 < groups.length ∧ 1 < pcp*dcp then
    ["PCP/DCP > 1 (pcp=" ++ toString pcp ++ ", dcp=" ++ toString dcp ++ ") with hybrid attention"]
    else []) ++
  (if 255 < groups.length ∨ 255 < p.tensorParallelSize ∨ 255 < p.pipelineParallelSize ∨
      15 < pcp ∨ 15 < dcp then ["parallel/group sizes exceed the key namespace bytes"] else [])

def validate (p : ParallelConfig) (kv : KvCacheConfig) : Except String Unit :=
  match unsupported p kv.groups with
  | [] => .ok ()
  | bad => .error ("OpenLakeConnector does not support: " ++ String.intercalate "; " bad)

/-- What the coordinator asserts of the block sizes. -/
def Coordinated (kv : KvCacheConfig) : Prop :=
  0 < kv.schedBs ∧ kv.schedBs%kv.hashBs = 0 ∧
    ∀ g ∈ kv.groups, g.blockSize%kv.hashBs = 0 ∧ kv.schedBs%g.blockSize = 0

def foldTpRank (tpRank tpSize numKvHead : ℕ) : ℕ :=
  if 0 < numKvHead ∧ numKvHead < tpSize then tpRank/(tpSize/numKvHead) else tpRank

structure Namespace where
  t : ℕ
  c : ℕ
  d : ℕ
  q : ℕ
  deriving DecidableEq

def ljust (h : Bytes) : Bytes := (h ++ List.replicate (32-h.length) 0).take 32

def pack (gIdx : ℕ) (ns : Namespace) : Bytes :=
  leBytes 2 (gIdx%65536) ++ (leBytes 2 (ns.t%65536) ++ (leBytes 2 (ns.c%65536) ++
    (leBytes 2 (ns.d%65536) ++ leBytes 2 (ns.q%65536))))

def keyFor (modelTag : Bytes) (gIdx : ℕ) (h : Bytes) (ns : Namespace) : Bytes :=
  ljust h ++ (modelTag ++ pack gIdx ns)

def cdiv (a b : ℕ) : ℕ := (a+b-1)/b

def chunkView (hashes : List Bytes) (hashBs blockBs : ℕ) : List Bytes :=
  if blockBs = hashBs then hashes
  else
    let scaleFactor := blockBs/hashBs
    (List.range (hashes.length/scaleFactor)).map (fun idx =>
      hashes.getD (idx*scaleFactor+scaleFactor-1) [])

/-- The start, the end and the hash of the chunks a rank saves. -/
def processTokens (blockSize : ℕ) (chunks : List Bytes) (tokenLen maskNum : ℕ)
    (chunkMask : Option (List Bool)) (putStep putStepRank : ℕ) : List (ℕ × ℕ × Bytes) :=
  let startChunk := cdiv maskNum blockSize
  let limit := min chunks.length (tokenLen/blockSize)
  let endChunk := chunkMask.elim limit (fun mask => min limit (startChunk+mask.length))
  (List.range' startChunk (endChunk-startChunk)).filterMap (fun chunkId =>
    if chunkMask.any (fun mask => !mask.getD (chunkId-startChunk) false) then none
    else if chunkId%putStep ≠ putStepRank then none
    else some (chunkId*blockSize,chunkId*blockSize+blockSize,chunks.getD chunkId []))

structure Request where
  blockHashes : List Bytes
  tokenLen : ℕ
  /-- By group. -/
  storeMasks : ℕ → Option (List Bool)
  lookupMasks : ℕ → Option (List Bool)

structure Rank where
  tpRank : ℕ
  pcpRank : ℕ
  ppRank : ℕ

section Connector

variable (p : ParallelConfig) (kv : KvCacheConfig) (req : Request)

def putStep : ℕ := (max 1 p.openlakePutStep).toNat

/-- The namespace of a worker is made from its tensor-parallel rank alone. -/
def workerNamespace (tpRank : ℕ) : Namespace :=
  let dcp := p.decodeContextParallelSize
  ⟨foldTpRank tpRank p.tensorParallelSize (numKvHead p.model),0,
    if 1 < dcp then tpRank%dcp else 0,0⟩

/-- The keys under which a rank saves a request from its start. -/
def savedKeys (tpRank : ℕ) : List Bytes :=
  kv.groups.zipIdx.flatMap (fun g =>
    (processTokens g.1.blockSize (chunkView req.blockHashes kv.hashBs g.1.blockSize) req.tokenLen 0
      (req.storeMasks g.2) (putStep p) ((tpRank+g.2)%putStep p)).map (fun e =>
        keyFor kv.modelTag g.2 e.2.2 (workerNamespace p tpRank)))

def namespaces : List Namespace :=
  let dcp := p.decodeContextParallelSize
  let ts := if 1 < dcp then p.tensorParallelSize
    else min p.tensorParallelSize (numKvHead p.model)
  (List.range p.prefillContextParallelSize).flatMap (fun c =>
    (List.range ts).flatMap (fun t =>
      (List.range p.pipelineParallelSize).map (fun q =>
        ⟨t,c,if 1 < dcp then t%dcp else 0,q⟩)))

def candidateKeys : List Bytes :=
  kv.groups.zipIdx.flatMap (fun g =>
    let chunkHashes := chunkView req.blockHashes kv.hashBs g.1.blockSize
    let maxChunks := min chunkHashes.length (cdiv req.tokenLen g.1.blockSize)
    let mask := req.lookupMasks g.2
    let maskLimit := mask.elim maxChunks (fun m => min maxChunks m.length)
    (List.range maskLimit).flatMap (fun chunkId =>
      if mask.any (fun m => !m.getD chunkId false) then []
      else (namespaces p).map (keyFor kv.modelTag g.2 (chunkHashes.getD chunkId []))))

end Connector

/-- The mask hides none of the chunks. -/
def Unmasked (chunks : ℕ) (mask : Option (List Bool)) : Prop :=
  ∀ m ∈ mask, chunks ≤ m.length ∧ ∀ b ∈ m, b = true

theorem getD_unmasked {m : List Bool} (h : ∀ b ∈ m, b = true) {i : ℕ} (hi : i < m.length) :
    m.getD i false = true := by
  rw [List.getD_eq_getElem m false hi]
  exact h _ (List.getElem_mem hi)

theorem mem_processTokens (chunks : List Bytes) {blockSize : ℕ} {tokenLen : ℕ}
    {mask : Option (List Bool)} (hmask : Unmasked (tokenLen/blockSize) mask) (step rank : ℕ)
    (h : Bytes) :
    (∃ e ∈ processTokens blockSize chunks tokenLen 0 mask step rank, e.2.2 = h) ↔
      ∃ j < min chunks.length (tokenLen/blockSize), j%step = rank ∧ chunks.getD j [] = h := by
  have hstart : cdiv 0 blockSize = 0 := by
    rw [cdiv, Nat.div_eq_zero_iff]
    omega
  have hlimit : mask.elim (min chunks.length (tokenLen/blockSize))
      (fun m => min (min chunks.length (tokenLen/blockSize)) (0+m.length)) =
        min chunks.length (tokenLen/blockSize) := by
    cases mask with
    | none => rfl
    | some m =>
      have := (hmask m rfl).1
      simp only [Option.elim_some]
      omega
  have hshown : ∀ j < min chunks.length (tokenLen/blockSize),
      mask.any (fun m => !m.getD (j-0) false) = false := by
    intro j hj
    cases mask with
    | none => rfl
    | some m =>
      obtain ⟨hlen,hall⟩ := hmask m rfl
      rw [Option.any_some, Nat.sub_zero, getD_unmasked hall (by omega)]
      rfl
  simp only [processTokens, hstart, hlimit, List.mem_filterMap, List.mem_range'_1]
  constructor
  · rintro ⟨e,⟨j,⟨-,hj⟩,he⟩,rfl⟩
    rw [if_neg (by rw [hshown j (by omega)]; decide)] at he
    split_ifs at he with hturn
    obtain rfl := Option.some.inj he
    exact ⟨j,by omega,not_not.mp hturn,rfl⟩
  · rintro ⟨j,hj,hturn,rfl⟩
    refine ⟨(j*blockSize,j*blockSize+blockSize,chunks.getD j []),⟨j,⟨by omega,by omega⟩,?_⟩,rfl⟩
    rw [if_neg (by rw [hshown j hj]; decide), if_neg (not_not.mpr hturn)]

theorem cdiv_of_dvd {a b : ℕ} (hb : 0 < b) (h : b ∣ a) : cdiv a b = a/b := by
  obtain ⟨k,rfl⟩ := h
  rw [cdiv, Nat.mul_div_cancel_left k hb, Nat.add_sub_assoc hb, Nat.mul_add_div hb,
    Nat.div_eq_of_lt (by omega), Nat.add_zero]

theorem field_inj {x y : ℕ} {a b : Bytes} (hx : x < 65536) (hy : y < 65536)
    (h : leBytes 2 (x%65536) ++ a = leBytes 2 (y%65536) ++ b) : x = y ∧ a = b := by
  rw [Nat.mod_eq_of_lt hx, Nat.mod_eq_of_lt hy] at h
  obtain ⟨hfield,hrest⟩ := List.append_inj h (by simp)
  exact ⟨leBytes_inj 2 x y hx hy hfield,hrest⟩

/-- The parts of a namespace fit into two bytes each. -/
def Namespace.Fits (ns : Namespace) : Prop :=
  ns.t < 65536 ∧ ns.c < 65536 ∧ ns.d < 65536 ∧ ns.q < 65536

theorem keyFor_inj {tag h h' : Bytes} {i i' : ℕ} {ns ns' : Namespace} (hi : i < 65536)
    (hi' : i' < 65536) (hns : ns.Fits) (hns' : ns'.Fits)
    (hkey : keyFor tag i h ns = keyFor tag i' h' ns') : ljust h = ljust h' ∧ i = i' ∧ ns = ns' := by
  obtain ⟨hhash,htail⟩ := List.append_inj hkey (by simp [ljust]; omega)
  have hpack := List.append_cancel_left htail
  obtain ⟨hg,hpack⟩ := field_inj hi hi' hpack
  obtain ⟨ht,hpack⟩ := field_inj hns.1 hns'.1 hpack
  obtain ⟨hc,hpack⟩ := field_inj hns.2.1 hns'.2.1 hpack
  obtain ⟨hd,hpack⟩ := field_inj hns.2.2.1 hns'.2.2.1 hpack
  rw [← List.append_nil (leBytes 2 (ns.q%65536)), ← List.append_nil (leBytes 2 (ns'.q%65536))]
    at hpack
  obtain ⟨hq,-⟩ := field_inj hns.2.2.2 hns'.2.2.2 hpack
  cases ns
  cases ns'
  simp_all

section Deployment

variable (p : ParallelConfig) (kv : KvCacheConfig) (req : Request)

structure Sized : Prop where
  tp : 1 ≤ p.tensorParallelSize ∧ p.tensorParallelSize ≤ 255
  pp : 1 ≤ p.pipelineParallelSize ∧ p.pipelineParallelSize ≤ 255
  pcp : 1 ≤ p.prefillContextParallelSize ∧ p.prefillContextParallelSize ≤ 15
  dcp : 1 ≤ p.decodeContextParallelSize ∧ p.decodeContextParallelSize ≤ 15

def replicas : ℕ :=
  if 0 < numKvHead p.model ∧ numKvHead p.model < p.tensorParallelSize then
    p.tensorParallelSize/numKvHead p.model
  else 1

theorem replicas_pos : 0 < replicas p := by
  rw [replicas]
  split_ifs with h
  · exact Nat.div_pos h.2.le h.1
  · exact Nat.one_pos

theorem foldTpRank_eq (t : ℕ) :
    foldTpRank t p.tensorParallelSize (numKvHead p.model) = t/replicas p := by
  rw [foldTpRank, replicas]
  split_ifs
  · rfl
  · rw [Nat.div_one]

theorem putStep_pos : 0 < putStep p := by
  rw [putStep]
  omega

theorem groups_replicated {T : ℕ} (hT : T < p.tensorParallelSize)
    (hheads : T < numKvHead p.model) : (T+1)*replicas p ≤ p.tensorParallelSize := by
  rw [replicas]
  split_ifs with h
  · calc (T+1)*(p.tensorParallelSize/numKvHead p.model)
        ≤ numKvHead p.model*(p.tensorParallelSize/numKvHead p.model) :=
          Nat.mul_le_mul_right _ hheads
      _ ≤ p.tensorParallelSize := Nat.mul_div_le _ _
  · omega

structure Shard where
  head : ℕ
  stage : ℕ
  pcpRank : ℕ
  dcpRank : ℕ

def shardOf (r : Rank) : Shard :=
  ⟨foldTpRank r.tpRank p.tensorParallelSize (numKvHead p.model),r.ppRank,r.pcpRank,
    r.tpRank%p.decodeContextParallelSize⟩

def Deployed (r : Rank) : Prop :=
  r.tpRank < p.tensorParallelSize ∧ r.pcpRank < p.prefillContextParallelSize ∧
    r.ppRank < p.pipelineParallelSize

/-- Every key looked up is saved by some rank, and ranks that save under one key hold
the same shard. -/
def Shares : Prop :=
  (∀ k ∈ candidateKeys p kv req, ∃ r, Deployed p r ∧ k ∈ savedKeys p kv req r.tpRank) ∧
  ∀ r r', Deployed p r → Deployed p r' → ∀ k ∈ savedKeys p kv req r.tpRank,
    k ∈ savedKeys p kv req r'.tpRank → shardOf p r = shardOf p r'

structure Plain : Prop where
  aligned : kv.schedBs ∣ req.tokenLen
  store : ∀ g ∈ kv.groups.zipIdx, Unmasked (req.tokenLen/g.1.blockSize) (req.storeMasks g.2)
  lookup : ∀ g ∈ kv.groups.zipIdx, Unmasked (req.tokenLen/g.1.blockSize) (req.lookupMasks g.2)

def chunksOf (g : KvCacheGroup) : List Bytes := chunkView req.blockHashes kv.hashBs g.blockSize

def chunkCount (g : KvCacheGroup) : ℕ :=
  min (chunksOf kv req g).length (req.tokenLen/g.blockSize)

variable {p kv req}

theorem mem_savedKeys (hplain : Plain kv req) (t : ℕ) (k : Bytes) :
    k ∈ savedKeys p kv req t ↔ ∃ g ∈ kv.groups.zipIdx, ∃ j < chunkCount kv req g.1,
      j%putStep p = (t+g.2)%putStep p ∧
      k = keyFor kv.modelTag g.2 ((chunksOf kv req g.1).getD j []) (workerNamespace p t) := by
  simp only [savedKeys, List.mem_flatMap, List.mem_map]
  apply exists_congr
  intro g
  apply and_congr_right
  intro hg
  have hmem := mem_processTokens (chunksOf kv req g.1) (hplain.store g hg) (putStep p)
    ((t+g.2)%putStep p)
  constructor
  · rintro ⟨e,he,rfl⟩
    obtain ⟨j,hj,hturn,hhash⟩ := (hmem e.2.2).mp ⟨e,he,rfl⟩
    exact ⟨j,hj,hturn,by rw [hhash]⟩
  · rintro ⟨j,hj,hturn,rfl⟩
    obtain ⟨e,he,hhash⟩ := (hmem _).mpr ⟨j,hj,hturn,rfl⟩
    exact ⟨e,he,by rw [hhash]⟩

theorem blockSize_pos (hkv : Coordinated kv) {g : KvCacheGroup × ℕ} (hg : g ∈ kv.groups.zipIdx) :
    0 < g.1.blockSize ∧ g.1.blockSize ∣ kv.schedBs := by
  obtain ⟨hsched,-,hblocks⟩ := hkv
  have hdvd := Nat.dvd_of_mod_eq_zero (hblocks g.1 (List.fst_mem_of_mem_zipIdx hg)).2
  exact ⟨Nat.pos_of_dvd_of_pos hdvd hsched,hdvd⟩

theorem mem_candidateKeys (hkv : Coordinated kv) (hplain : Plain kv req) (k : Bytes) :
    k ∈ candidateKeys p kv req ↔ ∃ g ∈ kv.groups.zipIdx, ∃ j < chunkCount kv req g.1,
      ∃ ns ∈ namespaces p, k = keyFor kv.modelTag g.2 ((chunksOf kv req g.1).getD j []) ns := by
  simp only [candidateKeys, List.mem_flatMap]
  apply exists_congr
  intro g
  apply and_congr_right
  intro hg
  obtain ⟨hpos,hdvd⟩ := blockSize_pos hkv hg
  have hmask := hplain.lookup g hg
  have hlimit : (req.lookupMasks g.2).elim
      (min (chunksOf kv req g.1).length (cdiv req.tokenLen g.1.blockSize))
      (fun m => min (min (chunksOf kv req g.1).length (cdiv req.tokenLen g.1.blockSize)) m.length) =
        chunkCount kv req g.1 := by
    rw [cdiv_of_dvd hpos (hdvd.trans hplain.aligned), chunkCount]
    cases hm : req.lookupMasks g.2 with
    | none => rfl
    | some m =>
      have := (hmask m hm).1
      simp only [Option.elim_some]
      omega
  have hshown : ∀ j < chunkCount kv req g.1,
      (req.lookupMasks g.2).any (fun m => !m.getD j false) = false := by
    intro j hj
    cases hm : req.lookupMasks g.2 with
    | none => rfl
    | some m =>
      obtain ⟨hlen,hall⟩ := hmask m hm
      rw [chunkCount] at hj
      rw [Option.any_some, getD_unmasked hall (by omega)]
      rfl
  simp only [chunksOf] at hlimit ⊢
  rw [hlimit]
  simp only [List.mem_range]
  apply exists_congr
  intro j
  apply and_congr_right
  intro hj
  simp only [hshown j hj, Bool.false_eq_true, if_false, List.mem_map, eq_comm]

theorem mem_namespaces (ns : Namespace) : ns ∈ namespaces p ↔
    ns.c < p.prefillContextParallelSize ∧ ns.q < p.pipelineParallelSize ∧
      ns.t < (if 1 < p.decodeContextParallelSize then p.tensorParallelSize
        else min p.tensorParallelSize (numKvHead p.model)) ∧
      ns.d = if 1 < p.decodeContextParallelSize then ns.t%p.decodeContextParallelSize else 0 := by
  simp only [namespaces, List.mem_flatMap, List.mem_map, List.mem_range]
  constructor
  · rintro ⟨c,hc,t,ht,q,hq,rfl⟩
    exact ⟨hc,hq,ht,rfl⟩
  · rintro ⟨hc,hq,ht,hd⟩
    exact ⟨ns.c,hc,ns.t,ht,ns.q,hq,by rw [← hd]⟩

theorem exists_turn (step a j : ℕ) (hstep : 0 < step) : ∃ r < step, (a+r)%step = j%step := by
  refine ⟨(j+(step-1)*a)%step,Nat.mod_lt _ hstep,?_⟩
  have hsum : a+(j+(step-1)*a) = j+step*a := by
    obtain ⟨s,rfl⟩ := Nat.exists_eq_succ_of_ne_zero hstep.ne'
    simp only [Nat.succ_eq_add_one, Nat.add_sub_cancel]
    ring
  rw [Nat.add_mod_mod, hsum, Nat.add_mul_mod_self_left]

end Deployment

variable {p : ParallelConfig} {kv : KvCacheConfig} {req : Request}

theorem accepted_of_validate (h : validate p kv = .ok ()) :
    p.tensorParallelSize ≤ 255 ∧ p.pipelineParallelSize ≤ 255 ∧
      p.prefillContextParallelSize ≤ 15 ∧ p.decodeContextParallelSize ≤ 15 ∧
      kv.groups.length ≤ 255 := by
  have hnone : unsupported p kv.groups = [] := by
    rw [validate] at h
    split at h
    · assumption
    · cases h
  rw [unsupported, List.append_eq_nil_iff] at hnone
  have hsizes := hnone.2
  split_ifs at hsizes with hlarge
  omega

/-- One stage and one prefill-context rank, and enough ranks under one namespace for
all turns of the put step. -/
def Matched (p : ParallelConfig) : Prop :=
  p.pipelineParallelSize = 1 ∧ p.prefillContextParallelSize = 1 ∧
    if 1 < p.decodeContextParallelSize then replicas p = 1 ∧ putStep p = 1
    else numKvHead p.model = 0 ∨ putStep p ≤ replicas p

def dcpRank (p : ParallelConfig) (t : ℕ) : ℕ :=
  if 1 < p.decodeContextParallelSize then t%p.decodeContextParallelSize else 0

theorem workerNamespace_eq (t : ℕ) :
    workerNamespace p t = ⟨t/replicas p,0,dcpRank p t,0⟩ := by
  rw [workerNamespace, foldTpRank_eq]
  rfl

theorem dcpRank_lt (hsized : Sized p) (t : ℕ) : dcpRank p t < 65536 := by
  have hdcp := hsized.dcp
  have hmod := Nat.mod_lt t (show 0 < p.decodeContextParallelSize by omega)
  rw [dcpRank]
  split_ifs <;> omega

theorem workerNamespace_fits (hsized : Sized p) {t : ℕ} (ht : t < p.tensorParallelSize) :
    (workerNamespace p t).Fits := by
  have htp := hsized.tp.2
  have hfold : t/replicas p ≤ t := Nat.div_le_self _ _
  have hhead : t/replicas p < 65536 := by omega
  rw [workerNamespace_eq]
  exact ⟨hhead,Nat.zero_lt_succ _,dcpRank_lt hsized t,Nat.zero_lt_succ _⟩

theorem exists_saver (hmatched : Matched p) {ns : Namespace} (hns : ns ∈ namespaces p) (i j : ℕ) :
    ∃ t < p.tensorParallelSize, workerNamespace p t = ns ∧ j%putStep p = (t+i)%putStep p := by
  obtain ⟨hpp,hpcp,hranks⟩ := hmatched
  obtain ⟨hc,hq,ht,hd⟩ := (mem_namespaces ns).mp hns
  have hns' : ns = ⟨ns.t,0,dcpRank p ns.t,0⟩ := by
    cases ns
    simp only [Namespace.mk.injEq, true_and] at hc hq hd ⊢
    exact ⟨by omega,hd,by omega⟩
  by_cases hdcp : 1 < p.decodeContextParallelSize
  · rw [if_pos hdcp] at hranks ht
    refine ⟨ns.t,ht,?_,by rw [hranks.2, Nat.mod_one, Nat.mod_one]⟩
    rw [workerNamespace_eq, hranks.1, Nat.div_one]
    exact hns'.symm
  · rw [if_neg hdcp] at hranks ht
    have hheads : ns.t < numKvHead p.model := by omega
    have hstep : putStep p ≤ replicas p := hranks.resolve_left (by omega)
    obtain ⟨r,hr,hturn⟩ := exists_turn (putStep p) (ns.t*replicas p+i) j (putStep_pos p)
    have hroom := groups_replicated p (show ns.t < p.tensorParallelSize by omega) hheads
    rw [Nat.succ_mul] at hroom
    refine ⟨ns.t*replicas p+r,by omega,?_,by rw [← hturn]; congr 1; omega⟩
    have hfold : (ns.t*replicas p+r)/replicas p = ns.t := by
      rw [Nat.mul_comm, Nat.mul_add_div (replicas_pos p), Nat.div_eq_of_lt (by omega), Nat.add_zero]
    rw [workerNamespace_eq, hfold, dcpRank, if_neg hdcp, hns', dcpRank, if_neg hdcp]

theorem covered_of_matched (hmatched : Matched p) (hkv : Coordinated kv) (hplain : Plain kv req)
    (k : Bytes) (hk : k ∈ candidateKeys p kv req) :
    ∃ r, Deployed p r ∧ k ∈ savedKeys p kv req r.tpRank := by
  obtain ⟨g,hg,j,hj,ns,hns,rfl⟩ := (mem_candidateKeys hkv hplain k).mp hk
  obtain ⟨t,ht,rfl,hturn⟩ := exists_saver hmatched hns g.2 j
  have hpp := hmatched.1
  have hpcp := hmatched.2.1
  exact ⟨⟨t,0,0⟩,⟨ht,by simp [hpcp],by simp [hpp]⟩,
    (mem_savedKeys hplain t _).mpr ⟨g,hg,j,hj,hturn,rfl⟩⟩

theorem index_lt (hvalid : validate p kv = .ok ()) {g : KvCacheGroup × ℕ}
    (hg : g ∈ kv.groups.zipIdx) : g.2 < 65536 := by
  have hlen := (accepted_of_validate hvalid).2.2.2.2
  have := List.snd_lt_of_mem_zipIdx hg
  omega

theorem separate_of_matched (hsized : Sized p) (hmatched : Matched p)
    (hvalid : validate p kv = .ok ()) (hplain : Plain kv req) (r r' : Rank) (hr : Deployed p r)
    (hr' : Deployed p r') (k : Bytes) (hk : k ∈ savedKeys p kv req r.tpRank)
    (hk' : k ∈ savedKeys p kv req r'.tpRank) : shardOf p r = shardOf p r' := by
  obtain ⟨g,hg,j,-,-,rfl⟩ := (mem_savedKeys hplain _ k).mp hk
  obtain ⟨g',hg',j',-,-,hkey⟩ := (mem_savedKeys hplain _ _).mp hk'
  obtain ⟨-,-,hns⟩ := keyFor_inj (index_lt hvalid hg) (index_lt hvalid hg')
    (workerNamespace_fits hsized hr.1) (workerNamespace_fits hsized hr'.1) hkey
  rw [workerNamespace_eq, workerNamespace_eq, Namespace.mk.injEq] at hns
  obtain ⟨hhead,-,hdcp,-⟩ := hns
  obtain ⟨-,hpcp,hpp⟩ := hr
  obtain ⟨-,hpcp',hpp'⟩ := hr'
  rw [hmatched.1] at hpp hpp'
  rw [hmatched.2.1] at hpcp hpcp'
  rw [shardOf, shardOf, foldTpRank_eq, foldTpRank_eq, Shard.mk.injEq]
  refine ⟨hhead,by omega,by omega,?_⟩
  rw [dcpRank, dcpRank] at hdcp
  split_ifs at hdcp with h
  · exact hdcp
  · have hone : p.decodeContextParallelSize = 1 := by
      have := hsized.dcp.1
      omega
    rw [hone, Nat.mod_one, Nat.mod_one]

section Necessity

def soleGroup : KvCacheConfig := ⟨[⟨1,false⟩],1,1,[]⟩

/-- A request of `n` tokens whose blocks have different hashes. -/
def countedRequest (n : ℕ) : Request :=
  ⟨(List.range n).map (fun j => [UInt8.ofNat j]),n,fun _ => none,fun _ => none⟩

theorem sole_coordinated : Coordinated soleGroup := by
  simp [Coordinated, soleGroup]

theorem counted_plain (n : ℕ) : Plain soleGroup (countedRequest n) :=
  ⟨Nat.one_dvd n,fun _ _ _ hm => (by cases hm),fun _ _ _ hm => (by cases hm)⟩

theorem sole_validate (hsized : Sized p) : validate p soleGroup = .ok () := by
  obtain ⟨⟨-,htp⟩,⟨-,hpp⟩,⟨-,hpcp⟩,⟨-,hdcp⟩⟩ := hsized
  have hnone : unsupported p soleGroup.groups = [] := by
    simp [unsupported, soleGroup]
    omega
  rw [validate, hnone]

theorem counted_count (n : ℕ) : chunkCount soleGroup (countedRequest n) ⟨1,false⟩ = n := by
  simp [chunkCount, chunksOf, chunkView, soleGroup, countedRequest]

variable {n j : ℕ}

theorem counted_chunk (hj : j < n) :
    (chunksOf soleGroup (countedRequest n) ⟨1,false⟩).getD j [] = [UInt8.ofNat j] := by
  simp [chunksOf, chunkView, soleGroup, countedRequest, hj]

theorem mem_counted_saved (n t : ℕ) (k : Bytes) :
    k ∈ savedKeys p soleGroup (countedRequest n) t ↔ ∃ j < n, j%putStep p = t%putStep p ∧
      k = keyFor [] 0 [UInt8.ofNat j] (workerNamespace p t) := by
  rw [mem_savedKeys (counted_plain n)]
  simp only [soleGroup, List.zipIdx_cons, List.zipIdx_nil, List.mem_singleton, exists_eq_left]
  change (∃ j < chunkCount soleGroup (countedRequest n) ⟨1,false⟩, _) ↔ _
  rw [counted_count]
  apply exists_congr
  intro j
  apply and_congr_right
  intro hj
  change (_ ∧ k = keyFor [] 0 ((chunksOf soleGroup (countedRequest n) ⟨1,false⟩).getD j []) _) ↔ _
  rw [counted_chunk hj]
  rfl

variable {ns : Namespace}

theorem counted_candidate (hj : j < n) (hns : ns ∈ namespaces p) :
    keyFor [] 0 [UInt8.ofNat j] ns ∈ candidateKeys p soleGroup (countedRequest n) := by
  rw [mem_candidateKeys sole_coordinated (counted_plain n)]
  refine ⟨(⟨1,false⟩,0),by simp [soleGroup],j,by rw [counted_count]; exact hj,ns,hns,?_⟩
  rw [counted_chunk hj]
  rfl

theorem ljust_byte_inj {a b : ℕ} (ha : a < 256) (hb : b < 256)
    (h : ljust [UInt8.ofNat a] = ljust [UInt8.ofNat b]) : a = b := by
  have hbyte : UInt8.ofNat a = UInt8.ofNat b := by simpa [ljust] using h
  have := congrArg UInt8.toNat hbyte
  rwa [UInt8.toNat_ofNat_of_lt' ha, UInt8.toNat_ofNat_of_lt' hb] at this

theorem saver_of_shares (hsized : Sized p) (hn : n ≤ 256) (hj : j < n)
    (hshares : Shares p soleGroup (countedRequest n)) (hns : ns ∈ namespaces p)
    (hfits : ns.Fits) :
    ∃ t < p.tensorParallelSize, j%putStep p = t%putStep p ∧ workerNamespace p t = ns := by
  obtain ⟨r,hr,hk⟩ := hshares.1 _ (counted_candidate hj hns)
  obtain ⟨j',hj',hturn,hkey⟩ := (mem_counted_saved n _ _).mp hk
  obtain ⟨hhash,-,hns'⟩ := keyFor_inj (by decide) (by decide) hfits
    (workerNamespace_fits hsized hr.1) hkey
  obtain rfl := ljust_byte_inj (by omega) (by omega) hhash
  exact ⟨r.tpRank,hr.1,hturn,hns'.symm⟩

theorem alone_of_shares (hsized : Sized p) (hshares : Shares p soleGroup (countedRequest 1)) :
    p.pipelineParallelSize = 1 ∧ p.prefillContextParallelSize = 1 := by
  have hkey : keyFor [] 0 [UInt8.ofNat 0] (workerNamespace p 0) ∈
      savedKeys p soleGroup (countedRequest 1) 0 :=
    (mem_counted_saved 1 0 _).mpr ⟨0,by decide,rfl,rfl⟩
  have htp := hsized.tp.1
  have hpp := hsized.pp.1
  have hpcp := hsized.pcp.1
  have hfirst : Deployed p ⟨0,0,0⟩ := ⟨htp,hpcp,hpp⟩
  constructor
  · by_contra hne
    have hshard := hshares.2 ⟨0,0,0⟩ ⟨0,0,1⟩ hfirst ⟨htp,hpcp,by simp only; omega⟩ _ hkey hkey
    simp [shardOf] at hshard
  · by_contra hne
    have hshard := hshares.2 ⟨0,0,0⟩ ⟨0,1,0⟩ hfirst ⟨htp,by simp only; omega,hpp⟩ _ hkey hkey
    simp [shardOf] at hshard

theorem folded_of_shares (hsized : Sized p) (hdcp : 1 < p.decodeContextParallelSize)
    (hshares : ∀ n, Shares p soleGroup (countedRequest n)) : replicas p = 1 ∧ putStep p = 1 := by
  have htp := hsized.tp
  have hpp := hsized.pp.1
  have hpcp := hsized.pcp.1
  have hns : ∀ t < p.tensorParallelSize, (⟨t,0,dcpRank p t,0⟩ : Namespace) ∈ namespaces p := by
    intro t ht
    rw [mem_namespaces, if_pos hdcp, if_pos hdcp]
    exact ⟨hpcp,hpp,ht,if_pos hdcp⟩
  have hfits : ∀ t < p.tensorParallelSize, (⟨t,0,dcpRank p t,0⟩ : Namespace).Fits :=
    fun t ht => ⟨by simp only; omega,Nat.zero_lt_succ _,dcpRank_lt hsized t,Nat.zero_lt_succ _⟩
  have hfold : replicas p = 1 := by
    by_contra hne
    have hpos := replicas_pos p
    -- the last rank is looked up under its own number, which no folded rank has
    obtain ⟨t,ht,-,heq⟩ := saver_of_shares hsized (by decide) Nat.one_pos (hshares 1)
      (hns (p.tensorParallelSize-1) (by omega)) (hfits _ (by omega))
    rw [workerNamespace_eq, Namespace.mk.injEq] at heq
    have hhalf : t/replicas p ≤ t/2 := Nat.div_le_div_left (by omega) (by decide)
    have hmany : 1 < p.tensorParallelSize := by
      by_contra hone
      rw [replicas, if_neg (by omega)] at hne
      exact hne rfl
    omega
  refine ⟨hfold,?_⟩
  by_contra hne
  have hstep := putStep_pos p
  obtain ⟨t,ht,hturn,heq⟩ := saver_of_shares hsized (by decide) (show 1 < 2 by decide) (hshares 2)
    (hns 0 (by omega)) (hfits 0 (by omega))
  rw [workerNamespace_eq, Namespace.mk.injEq, hfold, Nat.div_one] at heq
  rw [heq.1, Nat.mod_eq_of_lt (show 1 < putStep p by omega), Nat.zero_mod] at hturn
  omega

theorem turns_of_shares (hsized : Sized p) (hdcp : ¬1 < p.decodeContextParallelSize)
    (hheads : numKvHead p.model ≠ 0) (hshares : ∀ n, Shares p soleGroup (countedRequest n)) :
    putStep p ≤ replicas p := by
  have htp := hsized.tp
  by_contra hlt
  have hreplicas : replicas p ≤ p.tensorParallelSize := by
    have := groups_replicated p (show 0 < p.tensorParallelSize by omega)
      (show 0 < numKvHead p.model by omega)
    omega
  have hns : (⟨0,0,0,0⟩ : Namespace) ∈ namespaces p := by
    rw [mem_namespaces, if_neg hdcp, if_neg hdcp]
    exact ⟨hsized.pcp.1,hsized.pp.1,by simp only; omega,rfl⟩
  obtain ⟨t,ht,hturn,heq⟩ := saver_of_shares hsized (show replicas p+1 ≤ 256 by omega)
    (Nat.lt_succ_self _) (hshares _) hns ⟨by decide,by decide,by decide,by decide⟩
  rw [workerNamespace_eq, Namespace.mk.injEq, Nat.div_eq_zero_iff_lt (replicas_pos p)] at heq
  rw [Nat.mod_eq_of_lt (by omega), Nat.mod_eq_of_lt (by omega)] at hturn
  omega

end Necessity

def foldedFour : ParallelConfig := ⟨4,1,1,1,⟨false,2⟩,2⟩

def twoStages : ParallelConfig := ⟨1,2,1,1,⟨false,1⟩,1⟩

end Openlake.KvKeys
