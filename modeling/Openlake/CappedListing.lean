import Openlake.ListWalks

/-!
# Listings cut on every disk

A page asks every disk for its first keys past the cursor, and the vote is taken
over what the disks report. Disks with keys of their own report up to different
keys, so a key on enough disks can be short of votes. A page is the start of the
whole listing exactly when enough disks report each of its keys.
-/

set_option autoImplicit false

namespace Openlake.CappedListing
open LocalFs GetObject Listing ListPages ListWalks Lib.Merge Lib.SortedLists

/-- A disk that returns the first of its own keys past the cursor. -/
def keeper (entries : Listing) : Walker := fun opts =>
  let found := entries.filter (fun e =>
    startsWith e.1 opts.prefixFilter && past opts.startAfter e.1)
  .ok (opts.maxKeys.elim found (fun cap => found.take cap))

section Pages

variable (disks : List Listing) (bucket pre : String) (after : Option String) (m : ℕ)

def shelves : List Listing :=
  disks.map (fun s => s.filter (fun e => startsWith e.1 pre && past after e.1))

def windows : List Listing := (shelves disks pre after).map (List.take (m+1))

def quorum : ℕ := (disks.length+1)/2

/-- A live signature of the key is on enough disks. -/
def Listed (k : String) : Prop :=
  ∃ sig, sig.deleted = false ∧ quorum disks ≤ holders (shelves disks pre after) k sig

open Classical in
/-- At most `m` keys are listed before the key. -/
noncomputable def Reached (k : String) : Prop :=
  ((keys Prod.fst (shelves disks pre after)).filter (· < k)).countP
    (Listed disks pre after) ≤ m

/-- All disks that agree in sufficient number on the key list the same for it,
and so do those of them that report it, which are enough. -/
def Settled (k : String) : Prop :=
  ∃ info, (∀ sig, quorum disks ≤ holders (shelves disks pre after) k sig →
      outcome bucket (shelves disks pre after) k sig = some info) ∧
    (∃ sig, quorum disks ≤ holders (windows disks pre after m) k sig) ∧
    ∀ sig, quorum disks ≤ holders (windows disks pre after m) k sig →
      outcome bucket (windows disks pre after m) k sig = some info

theorem mergeAcrossSets_one (infos : List ObjectInfo) : mergeAcrossSets [infos] = infos := by
  rw [mergeAcrossSets, merge_one]
  exact List.filterMap_some

theorem reports_keepers (o : VoteOrder) (cap : Option ℕ) :
    reports o bucket pre after cap (disks.map keeper) =
      mergeWithinSet o ((shelves disks pre after).map (fun s => cap.elim s (fun n => s.take n)))
        (quorum disks) bucket := by
  have hstreams : (disks.map keeper).filterMap
      (fun d => (d (walkOptions pre after cap)).toOption) =
      (shelves disks pre after).map (fun s => cap.elim s (fun n => s.take n)) := by
    rw [List.filterMap_map, shelves, List.map_map]
    exact congrFun List.filterMap_eq_map disks
  rw [reports, hstreams, List.length_map, List.length_map, if_neg]
  · rfl
  · rw [shelves, List.length_map]
    omega

theorem listFrom_whole (o : VoteOrder) :
    listFrom o bucket pre after 0 [disks.map keeper] =
      .ok (mergeWithinSet o (shelves disks pre after) (quorum disks) bucket) := by
  rw [listFrom_eq, List.map_singleton, mergeAcrossSets_one, reports_keepers]
  exact congrArg (fun s => Except.ok (mergeWithinSet o s (quorum disks) bucket))
    (List.map_id (shelves disks pre after))

theorem listFrom_page (o : VoteOrder) (hm : 0 < m) :
    listFrom o bucket pre after m [disks.map keeper] =
      .ok ((mergeWithinSet o (windows disks pre after m) (quorum disks) bucket).take (m+1)) := by
  rw [listFrom_eq, List.map_singleton, mergeAcrossSets_one, reports_keepers, truncate,
    if_neg hm.ne', perSetCap, if_neg hm.ne']
  rfl

variable {disks} (h : ∀ s ∈ disks, Ascending Prod.fst s)

theorem mem_shelves (s : Listing) (hs : s ∈ shelves disks pre after) :
    ∃ d ∈ disks, s.Sublist d := by
  obtain ⟨d,hd,rfl⟩ := List.mem_map.mp hs
  exact ⟨d,hd,List.filter_sublist⟩

theorem mem_windows (s : Listing) (hs : s ∈ windows disks pre after m) :
    ∃ t ∈ shelves disks pre after, s.Sublist t := by
  obtain ⟨t,ht,rfl⟩ := List.mem_map.mp hs
  exact ⟨t,ht,List.take_sublist _ _⟩

theorem holders_windows_le (k : String) (sig : Signature) :
    holders (windows disks pre after m) k sig ≤ holders (shelves disks pre after) k sig := by
  rw [holders, windows, List.countP_map, holders]
  apply List.countP_mono_left
  intro s _ hs
  obtain ⟨e,he,hsig⟩ := List.any_eq_true.mp hs
  exact List.any_eq_true.mpr ⟨e,List.mem_of_mem_take he,hsig⟩

include h

theorem shelves_ascending : ∀ s ∈ shelves disks pre after, Ascending Prod.fst s := by
  intro s hs
  obtain ⟨d,hd,hsub⟩ := mem_shelves pre after s hs
  exact (h d hd).sublist hsub

theorem windows_ascending : ∀ s ∈ windows disks pre after m, Ascending Prod.fst s := by
  intro s hs
  obtain ⟨t,ht,hsub⟩ := mem_windows pre after m s hs
  exact (shelves_ascending pre after h t ht).sublist hsub

theorem whole_eq (o : VoteOrder) :
    mergeWithinSet o (shelves disks pre after) (quorum disks) bucket =
      (keys Prod.fst (shelves disks pre after)).filterMap (fun k =>
        electObject o (quorum disks) bucket (under Prod.fst k (shelves disks pre after))) :=
  merge_eq _ _ (shelves_ascending pre after h)

theorem page_eq (o : VoteOrder) :
    mergeWithinSet o (windows disks pre after m) (quorum disks) bucket =
      (keys Prod.fst (shelves disks pre after)).filterMap (fun k =>
        electObject o (quorum disks) bucket (under Prod.fst k (windows disks pre after m))) := by
  apply merge_eq_of_superset _ _ _ (windows_ascending pre after m h) _ (keys_sorted _)
  · intro k hk
    obtain ⟨s,hs,e,he,hek⟩ := (mem_keys _ k).mp hk
    obtain ⟨t,ht,hsub⟩ := mem_windows pre after m s hs
    exact (mem_keys _ k).mpr ⟨t,ht,e,hsub.subset he,hek⟩
  · have hvote := (voteFileinfo_none o (List.map Prod.snd ([] : Listing)) (quorum disks)).mpr (by simp)
    rw [electObject, hvote]
    split_ifs <;> rfl

variable (hne : disks ≠ [])

include hne

omit h in
theorem quorum_pos : 0 < quorum disks := by
  have := List.length_pos_iff.mpr hne
  rw [quorum]
  omega

/-- A key that is reached and settled is listed alike on the page and in the
whole listing. -/
theorem Settled.elects {k : String} (hsettled : Settled disks bucket pre after m k)
    (hlisted : Listed disks pre after k) (o o' : VoteOrder) :
    ∃ info, electObject o (quorum disks) bucket (under Prod.fst k (windows disks pre after m)) =
        some info ∧
      electObject o' (quorum disks) bucket (under Prod.fst k (shelves disks pre after)) =
        some info := by
  obtain ⟨info,hfull,⟨sig,hsig⟩,hpage⟩ := hsettled
  obtain ⟨live,-,hlive⟩ := hlisted
  refine ⟨info,?_,?_⟩
  · rcases electObject_outcome bucket (quorum disks) (windows_ascending pre after m h)
      (quorum_pos hne) o k with ⟨sig',hsig',helect⟩ | ⟨hnone,-⟩
    · rw [helect, hpage sig' hsig']
    · exact absurd hsig (Nat.not_le.mpr (hnone sig))
  · rcases electObject_outcome bucket (quorum disks) (shelves_ascending pre after h)
      (quorum_pos hne) o' k with ⟨sig',hsig',helect⟩ | ⟨hnone,-⟩
    · rw [helect, hfull sig' hsig']
    · exact absurd hlive (Nat.not_le.mpr (hnone live))

omit h in
theorem not_listed_none {k : String} (hnot : ¬Listed disks pre after k) (streams : List Listing)
    (hstreams : ∀ s ∈ streams, Ascending Prod.fst s)
    (hle : ∀ sig, holders streams k sig ≤ holders (shelves disks pre after) k sig)
    (o : VoteOrder) : electObject o (quorum disks) bucket (under Prod.fst k streams) = none := by
  rcases electObject_outcome bucket (quorum disks) hstreams (quorum_pos hne) o k with
    ⟨sig,hsig,helect⟩ | ⟨-,helect⟩
  · have hdel : sig.deleted = true := by
      cases hd : sig.deleted with
      | true => rfl
      | false => exact absurd ⟨sig,hd,hsig.trans (hle sig)⟩ hnot
    rw [helect, outcome, if_pos hdel]
  · exact helect

omit hne h in
theorem reached_of_split {k : String} {l r : List String}
    (hsplit : keys Prod.fst (shelves disks pre after) = l ++ k::r) :
    (keys Prod.fst (shelves disks pre after)).filter (· < k) = l := by
  rw [hsplit]
  exact filter_below l r k (hsplit ▸ keys_sorted _)

open Classical in
/-- Where every key that is reached is settled, a page is the start of the whole
listing. -/
theorem page_of_settled (hsettled : ∀ k, Listed disks pre after k → Reached disks pre after m k →
      Settled disks bucket pre after m k) (o o' : VoteOrder) :
    (mergeWithinSet o (windows disks pre after m) (quorum disks) bucket).take (m+1) =
      (mergeWithinSet o' (shelves disks pre after) (quorum disks) bucket).take (m+1) := by
  rw [page_eq bucket pre after m h, whole_eq bucket pre after h]
  apply take_filterMap_eq _ _ (Listed disks pre after)
  intro l k r hsplit hcount
  by_cases hlisted : Listed disks pre after k
  · have hreached : Reached disks pre after m k := by
      rw [Reached, reached_of_split pre after hsplit]
      omega
    obtain ⟨info,hpage,hwhole⟩ := (hsettled k hlisted hreached).elects bucket pre after m h hne
      hlisted o o'
    rw [hpage, hwhole]
    simp [hlisted]
  · rw [not_listed_none bucket pre after hne hlisted _ (windows_ascending pre after m h)
        (holders_windows_le pre after m k) o,
      not_listed_none bucket pre after hne hlisted _ (shelves_ascending pre after h)
        (fun _ => le_rfl) o']
    simp [hlisted]

variable (hnames : ∀ s ∈ disks, ∀ e ∈ s, e.2.name = e.1)

include hnames

omit h hne in
theorem elected_name (streams : List Listing) (hsub : ∀ s ∈ streams, ∃ d ∈ disks, s.Sublist d)
    (hstreams : ∀ s ∈ streams, Ascending Prod.fst s) (o : VoteOrder) (k : String)
    (info : ObjectInfo)
    (helect : electObject o (quorum disks) bucket (under Prod.fst k streams) = some info) :
    info.key = k := by
  obtain ⟨fi,rfl,-,⟨s,hs,hin⟩,-⟩ := elected_under hstreams o bucket (quorum disks) k info helect
  obtain ⟨d,hd,hsd⟩ := hsub s hs
  exact hnames d hd _ (hsd.subset hin)

omit h hne in
theorem shelf_name (hsorted : ∀ s ∈ shelves disks pre after, Ascending Prod.fst s) (o : VoteOrder)
    (k : String) (info : ObjectInfo)
    (helect : electObject o (quorum disks) bucket (under Prod.fst k (shelves disks pre after)) =
      some info) : info.key = k :=
  elected_name bucket hnames _ (mem_shelves pre after) hsorted o k info helect

open Classical in
/-- What the whole listing says of a key that is reached, every listing with the
same first entries says too. -/
theorem elects_of_take (g : String → Option ObjectInfo)
    (hg : ∀ k info, g k = some info → info.key = k) (o : VoteOrder)
    (htake : ((keys Prod.fst (shelves disks pre after)).filterMap g).take (m+1) =
      (mergeWithinSet o (shelves disks pre after) (quorum disks) bucket).take (m+1))
    (k : String) (hk : k ∈ keys Prod.fst (shelves disks pre after))
    (hreached : Reached disks pre after m k) (info : ObjectInfo)
    (hwhole : electObject o (quorum disks) bucket (under Prod.fst k (shelves disks pre after)) =
      some info) : g k = some info := by
  obtain ⟨l,r,hsplit⟩ := List.append_of_mem hk
  have hcount : l.countP (fun k => (electObject o (quorum disks) bucket
      (under Prod.fst k (shelves disks pre after))).isSome) < m+1 := by
    rw [Reached, reached_of_split pre after hsplit] at hreached
    refine lt_of_le_of_lt (List.countP_mono_left fun k _ hsome => ?_) (Nat.lt_succ_of_le hreached)
    by_contra hnot
    rw [not_listed_none bucket pre after hne (by simpa using hnot) _
      (shelves_ascending pre after h) (fun _ => le_rfl) o] at hsome
    cases hsome
  have hmem := mem_take_filterMap _ l r k info hwhole (m+1) hcount
  rw [← hsplit, ← whole_eq bucket pre after h, ← htake] at hmem
  obtain ⟨k',-,hgk⟩ := List.mem_filterMap.mp (List.mem_of_mem_take hmem)
  have hname := shelf_name bucket pre after hnames (shelves_ascending pre after h) o k info hwhole
  rw [← hname, hg k' info hgk]
  exact hgk

omit hnames hne in
theorem outcome_of_live (k : String) (sig : Signature) (hlive : sig.deleted = false)
    (hpos : 0 < holders (shelves disks pre after) k sig) :
    k ∈ keys Prod.fst (shelves disks pre after) ∧
      ∃ info, outcome bucket (shelves disks pre after) k sig = some info := by
  obtain ⟨s,hs,hany⟩ := List.countP_pos_iff.mp hpos
  obtain ⟨e,he,hsig⟩ := List.any_eq_true.mp hany
  rw [decide_eq_true_eq] at hsig
  refine ⟨(mem_keys _ k).mpr ⟨s,hs,e,he,hsig.1⟩,?_⟩
  have hfind : ((under Prod.fst k (shelves disks pre after)).find?
      (fun e => signature e.2 = sig)).isSome := by
    rw [List.find?_isSome]
    exact ⟨e,(mem_under _ (shelves_ascending pre after h) k e).mpr ⟨hsig.1,s,hs,he⟩,
      by simpa using hsig.2⟩
  obtain ⟨e',he'⟩ := Option.isSome_iff_exists.mp hfind
  exact ⟨toObjectInfo bucket e'.2,by simp [outcome, hlive, he']⟩

theorem settled_of_page (hpages : ∀ o o',
      (mergeWithinSet o (windows disks pre after m) (quorum disks) bucket).take (m+1) =
        (mergeWithinSet o' (shelves disks pre after) (quorum disks) bucket).take (m+1))
    (k : String) (hlisted : Listed disks pre after k) (hreached : Reached disks pre after m k) :
    Settled disks bucket pre after m k := by
  obtain ⟨sig,hlive,hsig⟩ := hlisted
  have hq := quorum_pos hne
  have hasc := shelves_ascending pre after h
  have hasc' := windows_ascending pre after m h
  have hshelves : (shelves disks pre after).length ≤ 2*quorum disks := by
    rw [shelves, List.length_map, quorum]
    omega
  have hwindows : (windows disks pre after m).length ≤ 2*quorum disks := by
    rwa [windows, List.length_map]
  obtain ⟨hk,info,hinfo⟩ := outcome_of_live bucket pre after h k sig hlive (hq.trans_le hsig)
  obtain ⟨o₀,ho₀⟩ := exists_outcome bucket (quorum disks) hasc hq hshelves k sig hsig
  rw [hinfo] at ho₀
  have hpage : ∀ o, electObject o (quorum disks) bucket
      (under Prod.fst k (windows disks pre after m)) = some info := by
    intro o
    refine elects_of_take bucket pre after m h hne hnames (fun k => electObject o (quorum disks)
      bucket (under Prod.fst k (windows disks pre after m))) (fun k' info' hk' => ?_) o₀ ?_ k hk
      hreached info ho₀
    · refine elected_name bucket hnames _ (fun s hs => ?_) hasc' o k' info' hk'
      obtain ⟨t,ht,hst⟩ := mem_windows pre after m s hs
      obtain ⟨d,hd,htd⟩ := mem_shelves pre after t ht
      exact ⟨d,hd,hst.trans htd⟩
    · rw [← page_eq bucket pre after m h, hpages o o₀]
  refine ⟨info,fun sig' hsig' => ?_,?_,fun sig' hsig' => ?_⟩
  · obtain ⟨o,ho⟩ := exists_outcome bucket (quorum disks) hasc hq hshelves k sig' hsig'
    rw [← ho]
    refine elects_of_take bucket pre after m h hne hnames (fun k => electObject o (quorum disks)
      bucket (under Prod.fst k (shelves disks pre after)))
      (fun k' info' hk' => shelf_name bucket pre after hnames hasc o k' info' hk') o₀ ?_ k hk
      hreached info ho₀
    rw [← whole_eq bucket pre after h, ← hpages o₀ o, hpages o₀ o₀]
  · rcases electObject_outcome bucket (quorum disks) hasc' hq o₀ k with ⟨sig',hsig',-⟩ | ⟨-,hnone⟩
    · exact ⟨sig',hsig'⟩
    · rw [hpage o₀] at hnone
      cases hnone
  · obtain ⟨o,ho⟩ := exists_outcome bucket (quorum disks) hasc' hq hwindows k sig' hsig'
    rw [← ho]
    exact hpage o

end Pages

def held (ks : List String) : Listing := ks.map (fun k => (k,oneKey k))

end Openlake.CappedListing
