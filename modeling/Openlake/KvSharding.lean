import Openlake.KvClient
import Openlake.Lib.Grouping
import Openlake.Lib.Panics
import Openlake.Lib.Xxh64

/-!
# Sharing a batch out among the nodes

A client sends each key of a batch to the node its hash selects, one request per
node, and writes the results back to the positions the keys came from. A request
is handed to the transport, which refuses it or returns a waiter; a waiter of a
client thread that died returns nothing.

Every key is in one group, so no key is sent twice and all are sent unless a
request is refused.
-/

set_option autoImplicit false

namespace Openlake.Kv
open Lib.Grouping Lib.Panics Lib.Xxh64

abbrev Key := List UInt8

/-- What a waiter returns; `none` when the thread that would answer has died. -/
abbrev Waiter := Option (Except String (List Int32))

structure Request where
  node : UInt16
  idxs : List ℕ
  keys : List Key
  scatters : List Scatter
  deriving DecidableEq

def ownerOf (nodes : List UInt16) (key : Key) : ℕ := (xxh64 key).toNat%nodes.length

def owners (nodes : List UInt16) (keys : List Key) :
    Except String (List UInt16 × List (List ℕ)) :=
  if nodes.isEmpty then .error "no nodes attached"
  else .ok (nodes,keys.zipIdx.foldl (bucket (fun k => ownerOf nodes k.1) Prod.snd)
    (List.replicate nodes.length []))

section Sharded

variable (nodes : List UInt16) (keys : List Key) (scatters : Option (List Scatter))

def request (idxs : List ℕ) (g : ℕ) : Checked String Request := do
  let nodeKeys ← idxs.mapM (index keys)
  let nodeScatters ←
    match scatters with
    | some s => idxs.mapM (index s)
    | none => .ok []
  let node ← index nodes g
  return ⟨node,idxs,nodeKeys,nodeScatters⟩

variable (op : Request → Except String Waiter)

/-- The requests that were handed to the transport, and the waiters unless one was refused. -/
def submit : List (List ℕ × ℕ) → List Request × Checked String (List (Request × Waiter))
  | [] => ([],.ok [])
  | (idxs,g)::groups =>
    if idxs.isEmpty then submit groups
    else
      match request nodes keys scatters idxs g with
      | .error e => ([],.error e)
      | .ok r =>
        match op r with
        | .error e => ([r],.error (.error e))
        | .ok wait => (r::(submit groups).1,(submit groups).2.map ((r,wait)::·))

def wrongCount (r : Request) (results : List Int32) : String :=
  "node " ++ toString r.node ++ ": " ++ toString results.length ++ " results for " ++
    toString r.idxs.length ++ " keys"

def collect : List (Request × Waiter) → Option String → List Int32 → Checked String (List Int32)
  | [],some e,_ => .error (.error e)
  | [],none,out => .ok out
  | (r,wait)::pending,firstErr,out =>
    match wait with
    | none => .error (.error "client thread died")
    | some (.error e) => collect pending (firstErr.or (some e)) out
    | some (.ok results) =>
      if results.length = r.idxs.length then do
        let out ← (r.idxs.zip results).foldlM set out
        collect pending firstErr out
      else collect pending (firstErr.or (some (wrongCount r results))) out

def sharded : List Request × Checked String (List Int32) :=
  match owners nodes keys with
  | .error e => ([],.error (.error e))
  | .ok (nodes,groups) =>
    let (sent,pending) := submit nodes keys scatters op groups.zipIdx
    (sent,pending >>= fun pending => collect pending none (List.replicate keys.length 0))

end Sharded

def zipScatters (addrs sizes : List (List ℕ)) : List Scatter :=
  (addrs.zip sizes).map (fun p => p.1.zip p.2)

def validate (keys : List Key) (addrs sizes : List (List ℕ)) : Except String Unit :=
  if keys.length ≠ addrs.length ∨ addrs.length ≠ sizes.length then
    .error ("mismatched batch: " ++ toString keys.length ++ " keys, " ++ toString addrs.length ++
      " addr lists, " ++ toString sizes.length ++ " size lists")
  else
    match (addrs.zip sizes).zipIdx.find? (fun p => p.1.1.length ≠ p.1.2.length) with
    | some ((a,s),i) => .error ("key " ++ toString i ++ ": " ++ toString a.length ++
        " addrs but " ++ toString s.length ++ " sizes")
    | none => .ok ()

structure Protocol where
  exist : Request → Except String Waiter
  put : Request → Except String Waiter
  get : Request → Except String Waiter

/-- The body of `put_batch` and `get_batch`. -/
def scatteredBatch (op : Request → Except String Waiter) (nodes : List UInt16) (keys : List Key)
    (addrs sizes : List (List ℕ)) : List Request × Checked String (List Int32) :=
  match validate keys addrs sizes with
  | .error e => ([],.error (.error e))
  | .ok () => sharded nodes keys (some (zipScatters addrs sizes)) op

def putBatch (proto : Protocol) := scatteredBatch proto.put

def getBatch (proto : Protocol) := scatteredBatch proto.get

def batchIsExist (proto : Protocol) (nodes : List UInt16) (keys : List Key) :
    List Request × Checked String (List Int32) :=
  sharded nodes keys none proto.exist

/-- A request holds the keys of its positions and their scatter lists, and goes to the node
its keys hash to. -/
structure Addressed (nodes : List UInt16) (keys : List Key) (scatters : Option (List Scatter))
    (r : Request) : Prop where
  keys : r.idxs.map (fun i => keys[i]?) = r.keys.map some
  scatters : ∀ s ∈ scatters, r.idxs.map (fun i => s[i]?) = r.scatters.map some
  node : ∀ key ∈ r.keys, nodes[ownerOf nodes key]? = some r.node

section Sharded

variable {nodes : List UInt16} {keys : List Key} {scatters : Option (List Scatter)}

theorem request_ok (hs : ∀ s ∈ scatters, s.length = keys.length) {idxs : List ℕ} {g : ℕ}
    (hg : g < nodes.length)
    (hidxs : ∀ i ∈ idxs, ∃ key, keys[i]? = some key ∧ ownerOf nodes key = g) :
    ∃ r, request nodes keys scatters idxs g = .ok r ∧ r.idxs = idxs ∧
      Addressed nodes keys scatters r := by
  have hlt : ∀ i ∈ idxs, i < keys.length := by
    intro i hi
    obtain ⟨key,hkey,-⟩ := hidxs i hi
    exact (List.getElem?_eq_some_iff.mp hkey).1
  obtain ⟨ks,hks,hmap⟩ := mapM_index (ε := String) hlt
  have hnode : ∀ key ∈ ks, nodes[ownerOf nodes key]? = some nodes[g] := by
    intro key hkey
    obtain ⟨i,hi,heq⟩ := List.mem_map.mp (hmap ▸ List.mem_map_of_mem hkey : some key ∈ _)
    obtain ⟨key',hkey',howner⟩ := hidxs i hi
    rw [heq] at hkey'
    obtain rfl := Option.some.inj hkey'
    rw [howner, List.getElem?_eq_getElem hg]
  cases scatters with
  | none =>
    refine ⟨⟨nodes[g],idxs,ks,[]⟩,?_,rfl,hmap,by simp,hnode⟩
    rw [request, hks]
    exact index_bind hg _
  | some s =>
    have hslt : ∀ i ∈ idxs, i < s.length := fun i hi => hs s rfl ▸ hlt i hi
    obtain ⟨ss,hss,hsmap⟩ := mapM_index (ε := String) hslt
    refine ⟨⟨nodes[g],idxs,ks,ss⟩,?_,rfl,hmap,?_,hnode⟩
    · rw [request, hks]
      change (idxs.mapM (index s) >>= _) = _
      rw [hss]
      exact index_bind hg _
    · rintro _ ⟨⟩
      exact hsmap

variable (op : Request → Except String Waiter)

/-- Handing over planned requests, up to the first that is refused. -/
def handOver : List Request → List Request × Except String (List (Request × Waiter))
  | [] => ([],.ok [])
  | r::rs =>
    match op r with
    | .error e => ([r],.error e)
    | .ok wait => (r::(handOver rs).1,(handOver rs).2.map ((r,wait)::·))

theorem submit_eq (hs : ∀ s ∈ scatters, s.length = keys.length) (groups : List (List ℕ × ℕ))
    (hgroups : ∀ p ∈ groups, p.2 < nodes.length ∧
      ∀ i ∈ p.1, ∃ key, keys[i]? = some key ∧ ownerOf nodes key = p.2) :
    ∃ plan, (∀ r ∈ plan, Addressed nodes keys scatters r) ∧
      plan.flatMap Request.idxs = groups.flatMap Prod.fst ∧
      submit nodes keys scatters op groups = ((handOver op plan).1,lift (handOver op plan).2) := by
  induction groups with
  | nil => exact ⟨[],by simp,rfl,rfl⟩
  | cons p groups ih =>
    obtain ⟨idxs,g⟩ := p
    obtain ⟨⟨hg,hidxs⟩,hrest⟩ := List.forall_mem_cons.mp hgroups
    obtain ⟨plan,haddr,hflat,heq⟩ := ih hrest
    rw [submit]
    by_cases hempty : idxs.isEmpty
    · rw [if_pos hempty]
      obtain rfl := List.isEmpty_iff.mp hempty
      exact ⟨plan,haddr,hflat,heq⟩
    · rw [if_neg hempty]
      obtain ⟨r,hr,rfl,hraddr⟩ := request_ok hs hg hidxs
      refine ⟨r::plan,List.forall_mem_cons.mpr ⟨hraddr,haddr⟩,by simp [hflat],?_⟩
      rw [hr, handOver]
      dsimp only
      cases hop : op r with
      | error e => rfl
      | ok wait =>
        dsimp only
        rw [heq]
        cases (handOver op plan).2 <;> rfl

end Sharded

section Sharded

variable (op : Request → Except String Waiter)

def Answered (r : Request) (results : List Int32) : Prop :=
  op r = .ok (some (.ok results)) ∧ results.length = r.idxs.length

theorem handOver_accepted {plan : List Request} (h : ∀ r ∈ plan, ∃ wait, op r = .ok wait) :
    ∃ pending, handOver op plan = (plan,.ok pending) ∧ pending.map Prod.fst = plan ∧
      ∀ p ∈ pending, op p.1 = .ok p.2 := by
  induction plan with
  | nil => exact ⟨[],rfl,rfl,by simp⟩
  | cons r plan ih =>
    obtain ⟨⟨wait,hwait⟩,hrest⟩ := List.forall_mem_cons.mp h
    obtain ⟨pending,heq,hfst,hop⟩ := ih hrest
    refine ⟨(r,wait)::pending,?_,by rw [List.map_cons, hfst],List.forall_mem_cons.mpr ⟨hwait,hop⟩⟩
    rw [handOver, hwait, heq]
    rfl

variable {r : Request}

theorem handOver_refused {before after : List Request} {e : String}
    (h : ∀ r ∈ before, ∃ wait, op r = .ok wait) (hr : op r = .error e) :
    handOver op (before ++ r::after) = (before ++ [r],.error e) := by
  induction before with
  | nil => rw [List.nil_append, handOver, hr]; rfl
  | cons r' before ih =>
    obtain ⟨⟨wait,hwait⟩,hrest⟩ := List.forall_mem_cons.mp h
    rw [List.cons_append, handOver, hwait, ih hrest]
    rfl

theorem accepted_or_refused (plan : List Request) :
    (∀ r ∈ plan, ∃ wait, op r = .ok wait) ∨ ∃ before r after e, plan = before ++ r::after ∧
      (∀ r ∈ before, ∃ wait, op r = .ok wait) ∧ op r = .error e := by
  induction plan with
  | nil => exact .inl (by simp)
  | cons r plan ih =>
    cases hr : op r with
    | error e => exact .inr ⟨[],r,plan,e,rfl,by simp,hr⟩
    | ok wait =>
      rcases ih with hall | ⟨before,r',after,e,rfl,hbefore,hr'⟩
      · exact .inl (List.forall_mem_cons.mpr ⟨⟨wait,hr⟩,hall⟩)
      · exact .inr ⟨r::before,r',after,e,rfl,List.forall_mem_cons.mpr ⟨⟨wait,hr⟩,hbefore⟩,hr'⟩

theorem collect_cons {results out : List Int32} (pending : List (Request × Waiter))
    (firstErr : Option String) (hcount : results.length = r.idxs.length)
    (hlt : ∀ i ∈ r.idxs, i < out.length) :
    collect ((r,some (.ok results))::pending) firstErr out =
      collect pending firstErr ((r.idxs.zip results).foldl write out) := by
  have hbound : ∀ w ∈ r.idxs.zip results, w.1 < out.length :=
    fun w hw => hlt w.1 (List.of_mem_zip hw).1
  rw [collect, if_pos hcount, foldlM_set hbound]
  rfl

variable {pending : List (Request × Waiter)}

variable {out : List Int32}

theorem collect_answered {results : Request → List Int32}
    (hw : ∀ p ∈ pending, p.2 = some (.ok (results p.1)))
    (hcount : ∀ p ∈ pending, (results p.1).length = p.1.idxs.length)
    (hlt : ∀ p ∈ pending, ∀ i ∈ p.1.idxs, i < out.length) :
    collect pending none out =
      .ok ((pending.flatMap (fun p => p.1.idxs.zip (results p.1))).foldl write out) := by
  induction pending generalizing out with
  | nil => rfl
  | cons p pending ih =>
    obtain ⟨r,wait⟩ := p
    obtain ⟨hwait,hw⟩ := List.forall_mem_cons.mp hw
    obtain ⟨hc,hcount⟩ := List.forall_mem_cons.mp hcount
    obtain ⟨hl,hlt⟩ := List.forall_mem_cons.mp hlt
    dsimp only at hwait
    rw [hwait, collect_cons pending none hc hl, List.flatMap_cons, List.foldl_append]
    refine ih hw hcount fun p hp i hi => ?_
    rw [length_foldl_write]
    exact hlt p hp i hi

/-- An error kept so far, or a node that has not answered with one result for each key. -/
theorem collect_failed {firstErr : Option String}
    (hlt : ∀ p ∈ pending, ∀ i ∈ p.1.idxs, i < out.length)
    (h : firstErr.isSome ∨ ∃ p ∈ pending, ∀ results, p.2 = some (.ok results) →
      results.length ≠ p.1.idxs.length) :
    ∃ e, collect pending firstErr out = .error (.error e) := by
  induction pending generalizing firstErr out with
  | nil =>
    obtain ⟨e,rfl⟩ := Option.isSome_iff_exists.mp (h.resolve_right (by simp))
    exact ⟨e,rfl⟩
  | cons p pending ih =>
    obtain ⟨r,wait⟩ := p
    obtain ⟨hl,hrest⟩ := List.forall_mem_cons.mp hlt
    match wait with
    | none => exact ⟨_,rfl⟩
    | some (.error e) => exact ih hrest (.inl (by simp))
    | some (.ok results) =>
      by_cases hcount : results.length = r.idxs.length
      · rw [collect_cons pending firstErr hcount hl]
        refine ih (fun p hp i hi => ?_) (h.imp_right fun hbad => ?_)
        · rw [length_foldl_write]
          exact hrest p hp i hi
        · obtain ⟨p,hp,hbad⟩ := hbad
          rcases List.mem_cons.mp hp with rfl | hp
          · exact absurd hcount (hbad results rfl)
          · exact ⟨p,hp,hbad⟩
      · rw [collect, if_neg hcount]
        exact ih hrest (.inl (by simp))

end Sharded

section Groups

variable {nodes : List UInt16} (keys : List Key)

def groupOf (nodes : List UInt16) (keys : List Key) (g : ℕ) : List ℕ :=
  (keys.zipIdx.filter (fun k => ownerOf nodes k.1 = g)).map Prod.snd

theorem owners_eq (h : nodes ≠ []) :
    owners nodes keys = .ok (nodes,(List.range nodes.length).map (groupOf nodes keys)) := by
  rw [owners, if_neg (by simpa using h), foldl_bucket]
  rfl

theorem groupOf_perm (h : nodes ≠ []) :
    ((List.range nodes.length).flatMap (groupOf nodes keys)).Perm (List.range keys.length) := by
  have hperm := (flatMap_filter_perm (fun k : Key × ℕ => ownerOf nodes k.1) keys.zipIdx
    nodes.length).map Prod.snd
  rw [List.map_flatMap, List.filter_eq_self.mpr fun k _ => ?_, List.zipIdx_map_snd,
    ← List.range_eq_range'] at hperm
  · exact hperm
  · exact decide_eq_true (Nat.mod_lt _ (List.length_pos_iff.mpr h))

theorem mem_groupOf {g i : ℕ} (h : i ∈ groupOf nodes keys g) :
    ∃ key, keys[i]? = some key ∧ ownerOf nodes key = g := by
  obtain ⟨⟨key,j⟩,hmem,rfl⟩ := List.mem_map.mp h
  obtain ⟨hmem,howner⟩ := List.mem_filter.mp hmem
  exact ⟨key,List.mem_zipIdx_iff_getElem?.mp hmem,of_decide_eq_true howner⟩

end Groups

/-- What a batch shared out among the nodes does: `sent` are the requests handed over. -/
structure Shared (nodes : List UInt16) (keys : List Key) (scatters : Option (List Scatter))
    (op : Request → Except String Waiter) (sent : List Request)
    (result : Checked String (List Int32)) : Prop where
  safe : ∀ p, result ≠ .error (.panic p)
  addressed : ∀ r ∈ sent, Addressed nodes keys scatters r
  once : (sent.flatMap Request.idxs).Nodup
  every : (∀ r ∈ sent, ∃ wait, op r = .ok wait) →
    (sent.flatMap Request.idxs).Perm (List.range keys.length)
  refused : ∀ r ∈ sent, ∀ e, op r = .error e →
    sent.getLast? = some r ∧ result = .error (.error e)
  answered : ∀ results : Request → List Int32, (∀ r ∈ sent, Answered op r (results r)) →
    ∃ out, result = .ok out ∧ out.length = keys.length ∧
      ∀ r ∈ sent, r.idxs.map (fun i => out[i]?) = (results r).map some
  failed : (∃ r ∈ sent, ∀ results, ¬Answered op r results) → ∃ e, result = .error (.error e)

section Outcome

variable {nodes : List UInt16} {keys : List Key} {scatters : Option (List Scatter)}
variable {op : Request → Except String Waiter} {plan : List Request}

theorem shared_refused {before after : List Request} {r : Request} {e : String}
    (haddr : ∀ r ∈ plan, Addressed nodes keys scatters r)
    (hperm : (plan.flatMap Request.idxs).Perm (List.range keys.length))
    (hplan : plan = before ++ r::after) (hbefore : ∀ r ∈ before, ∃ wait, op r = .ok wait)
    (hr : op r = .error e) :
    Shared nodes keys scatters op (before ++ [r]) (.error (.error e)) := by
  have hsent : (before ++ [r]).Sublist plan := by
    rw [hplan]
    exact (List.Sublist.refl before).append (by simp)
  have hmem : r ∈ before ++ [r] := by simp
  refine ⟨by simp,fun x hx => haddr x (hsent.subset hx),?_,fun h => ?_,fun x hx e' hx' => ?_,
    fun results h => ?_,fun _ => ⟨e,rfl⟩⟩
  · exact (hperm.nodup_iff.mpr List.nodup_range).sublist (hsent.flatMap _)
  · obtain ⟨wait,hwait⟩ := h r hmem
    rw [hr] at hwait
    cases hwait
  · rcases List.mem_append.mp hx with hx | hx
    · obtain ⟨wait,hwait⟩ := hbefore x hx
      rw [hx'] at hwait
      cases hwait
    · obtain rfl := List.mem_singleton.mp hx
      rw [hr] at hx'
      cases hx'
      exact ⟨by simp,rfl⟩
  · have hans := (h r hmem).1
    rw [hr] at hans
    cases hans

theorem written_back {results : Request → List Int32} {out : List Int32}
    (hnodup : (plan.flatMap Request.idxs).Nodup)
    (hcount : ∀ r ∈ plan, (results r).length = r.idxs.length)
    (hlt : ∀ r ∈ plan, ∀ i ∈ r.idxs, i < out.length) {r : Request} (hr : r ∈ plan) :
    r.idxs.map (fun i => ((plan.flatMap (fun r => r.idxs.zip (results r))).foldl write out)[i]?) =
      (results r).map some := by
  have hfst : (plan.flatMap (fun r => r.idxs.zip (results r))).map Prod.fst =
      plan.flatMap Request.idxs := by
    rw [List.map_flatMap]
    exact List.flatMap_congr fun r hr => List.map_fst_zip (hcount r hr).ge
  rw [← hfst] at hnodup
  conv_lhs => rw [← List.map_fst_zip (hcount r hr).ge]
  conv_rhs => rw [← List.map_snd_zip (hcount r hr).le]
  rw [List.map_map, List.map_map]
  refine List.map_congr_left fun w hw => ?_
  have hmem : w ∈ plan.flatMap (fun r => r.idxs.zip (results r)) :=
    List.mem_flatMap.mpr ⟨r,hr,hw⟩
  refine getElem?_foldl_write _ out (hlt r hr _ (List.of_mem_zip hw).1) hmem fun w' hw' heq => ?_
  rw [List.inj_on_of_nodup_map hnodup hw' hmem heq]

theorem shared_accepted {pending : List (Request × Waiter)}
    (haddr : ∀ r ∈ plan, Addressed nodes keys scatters r)
    (hperm : (plan.flatMap Request.idxs).Perm (List.range keys.length))
    (hfst : pending.map Prod.fst = plan) (hop : ∀ p ∈ pending, op p.1 = .ok p.2) :
    Shared nodes keys scatters op plan
      (collect pending none (List.replicate keys.length 0)) := by
  have hnodup := hperm.nodup_iff.mpr List.nodup_range
  have hlt : ∀ r ∈ plan, ∀ i ∈ r.idxs, i < (List.replicate keys.length (0 : Int32)).length := by
    intro r hr i hi
    rw [List.length_replicate, ← List.mem_range]
    exact hperm.mem_iff.mp (List.mem_flatMap.mpr ⟨r,hr,hi⟩)
  have hmem : ∀ p ∈ pending, p.1 ∈ plan := fun p hp => hfst ▸ List.mem_map_of_mem hp
  have hwait : ∀ r ∈ plan, ∃ wait, op r = .ok wait := by
    intro r hr
    obtain ⟨p,hp,rfl⟩ := List.mem_map.mp (hfst ▸ hr)
    exact ⟨p.2,hop p hp⟩
  have hanswered : ∀ results : Request → List Int32, (∀ r ∈ plan, Answered op r (results r)) →
      ∃ out, collect pending none (List.replicate keys.length 0) = .ok out ∧
        out.length = keys.length ∧
        ∀ r ∈ plan, r.idxs.map (fun i => out[i]?) = (results r).map some := by
    intro results hres
    have hwaits : ∀ p ∈ pending, p.2 = some (.ok (results p.1)) :=
      fun p hp => Except.ok.inj ((hop p hp).symm.trans (hres p.1 (hmem p hp)).1)
    have hcollect := collect_answered hwaits (fun p hp => (hres p.1 (hmem p hp)).2)
      fun p hp => hlt p.1 (hmem p hp)
    have hwrites : pending.flatMap (fun p => p.1.idxs.zip (results p.1)) =
        plan.flatMap (fun r => r.idxs.zip (results r)) := by rw [← hfst, List.flatMap_map]
    rw [hwrites] at hcollect
    refine ⟨_,hcollect,by rw [length_foldl_write, List.length_replicate],fun r hr => ?_⟩
    exact written_back hnodup (fun r hr => (hres r hr).2) hlt hr
  have hfailed : (∃ r ∈ plan, ∀ results, ¬Answered op r results) →
      ∃ e, collect pending none (List.replicate keys.length 0) = .error (.error e) := by
    rintro ⟨r,hr,hbad⟩
    obtain ⟨p,hp,rfl⟩ := List.mem_map.mp (hfst ▸ hr)
    refine collect_failed (fun p hp => hlt p.1 (hmem p hp)) (.inr ⟨p,hp,fun results hres hcount => ?_⟩)
    exact hbad results ⟨by rw [hop p hp, hres],hcount⟩
  refine ⟨fun p hp => ?_,haddr,hnodup,fun _ => hperm,fun r hr e he => ?_,hanswered,hfailed⟩
  · by_cases hall : ∀ r ∈ plan, ∃ results, Answered op r results
    · choose! results hres using hall
      obtain ⟨out,hout,-⟩ := hanswered results hres
      rw [hout] at hp
      cases hp
    · push Not at hall
      obtain ⟨e,he⟩ := hfailed hall
      rw [he] at hp
      cases hp
  · obtain ⟨wait,hw⟩ := hwait r hr
    rw [he] at hw
    cases hw

/-- With a node attached and a scatter list for each key, every request goes to the node its
keys hash to, no key is sent twice, all are sent unless a request is refused, and the results
come back in the order of the keys or the call fails. -/
theorem sharded_shared (hnodes : nodes ≠ []) (hs : ∀ s ∈ scatters, s.length = keys.length) :
    Shared nodes keys scatters op (sharded nodes keys scatters op).1
      (sharded nodes keys scatters op).2 := by
  have hgroups : ∀ p ∈ ((List.range nodes.length).map (groupOf nodes keys)).zipIdx,
      p.2 < nodes.length ∧ ∀ i ∈ p.1, ∃ key, keys[i]? = some key ∧ ownerOf nodes key = p.2 := by
    rintro ⟨idxs,g⟩ hp
    have hg := List.mem_zipIdx_iff_getElem?.mp hp
    rw [List.getElem?_map, Option.map_eq_some_iff] at hg
    obtain ⟨g',hg,hidxs⟩ := hg
    obtain ⟨hlt,hget⟩ := List.getElem?_eq_some_iff.mp hg
    rw [List.getElem_range] at hget
    rw [List.length_range] at hlt
    dsimp only at hget hidxs hlt ⊢
    subst hget hidxs
    exact ⟨hlt,fun i hi => mem_groupOf keys hi⟩
  obtain ⟨plan,haddr,hflat,hsubmit⟩ := submit_eq op hs _ hgroups
  have hperm : (plan.flatMap Request.idxs).Perm (List.range keys.length) := by
    rw [hflat, List.flatMap_def, List.zipIdx_map_fst, ← List.flatMap_def]
    exact groupOf_perm keys hnodes
  rw [sharded, owners_eq keys hnodes]
  dsimp only
  rw [hsubmit]
  rcases accepted_or_refused op plan with hall | ⟨before,r,after,e,hplan,hbefore,hr⟩
  · obtain ⟨pending,heq,hfst,hop⟩ := handOver_accepted op hall
    rw [heq]
    exact shared_accepted haddr hperm hfst hop
  · rw [hplan, handOver_refused op hbefore hr]
    exact shared_refused haddr hperm hplan hbefore hr

theorem sharded_no_nodes :
    sharded [] keys scatters op = ([],.error (.error "no nodes attached")) := rfl

end Outcome

/-- A batch with addresses is refused before anything is sent, or it is shared out with a
scatter list for each key. -/
theorem scatteredBatch_shared (op : Request → Except String Waiter) {nodes : List UInt16}
    (hnodes : nodes ≠ []) (keys : List Key) (addrs sizes : List (List ℕ)) :
    (∃ e, scatteredBatch op nodes keys addrs sizes = ([],.error (.error e))) ∨
      Shared nodes keys (some (zipScatters addrs sizes)) op
        (scatteredBatch op nodes keys addrs sizes).1
        (scatteredBatch op nodes keys addrs sizes).2 := by
  rw [scatteredBatch]
  cases hv : validate keys addrs sizes with
  | error e => exact .inl ⟨e,rfl⟩
  | ok u =>
    refine .inr (sharded_shared hnodes ?_)
    rintro _ ⟨⟩
    rw [validate] at hv
    split_ifs at hv with hlen
    push Not at hlen
    rw [zipScatters, List.length_map, List.length_zip, hlen.2, Nat.min_self, hlen.1, hlen.2]

def lengths (r : Request) : Except String Waiter :=
  .ok (some (.ok (r.keys.map (fun key => Int32.ofNat key.length))))

def refusing (node : UInt16) (r : Request) : Except String Waiter :=
  if r.node = node then .error "store full" else lengths r

end Openlake.Kv
