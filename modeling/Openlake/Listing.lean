import Openlake.GetObject
import Openlake.Lib.Merge
import Openlake.Walk

/-!
# Listing a bucket

Every disk of a set walks the bucket, the streams of the set are merged under a
vote on the records of each key, and the streams of the sets are merged by key.
A page is cut from the sorted result. With a delimiter the whole listing is
rolled up first and the page is cut from the entries. The caps are natural
numbers: the handlers clamp the page size to a thousand.

The streams meet key by key. Within a set a key is returned under the record its
streams elect: a signature on enough streams wins under some order of the votes,
and no other does. Across the sets each key is returned with its newest record.
-/

set_option autoImplicit false

namespace Openlake.Listing
open Openlake.Types XlMeta LocalFs Consensus GetObject Lib.Effects Lib.Tally Lib.Merge

structure Signature where
  etag : String
  modTimeMs : UInt64
  versionId : String
  size : Int64
  deleted : Bool
  deriving DecidableEq

def signature (fi : FileInfo) : Signature :=
  ⟨(etagOf fi).getD "",fi.modTimeMs,fi.versionId,fi.size,fi.deleted⟩

abbrev VoteOrder := IterOrder (Signature × ℕ × FileInfo)

def voteFileinfo (o : VoteOrder) (candidates : List FileInfo) (quorum : ℕ) : Option FileInfo :=
  (maxByKey (fun e => e.2.1)
    ((o.arrange (tally signature firstStep candidates [])).filter (fun e => quorum ≤ e.2.1))).map
      (fun e => e.2.2)

def electObject (o : VoteOrder) (quorum : ℕ) (bucket : String) (group : Listing) :
    Option ObjectInfo :=
  if group.length < quorum then none
  else
    match voteFileinfo o (group.map Prod.snd) quorum with
    | none => none
    | some canonical => if canonical.deleted then none else some (toObjectInfo bucket canonical)

def mergeWithinSet (o : VoteOrder) (streams : List Listing) (quorum : ℕ) (bucket : String) :
    List ObjectInfo :=
  merge Prod.fst (electObject o quorum bucket) streams

def newer (chosen oi : ObjectInfo) : ObjectInfo :=
  if chosen.modifiedMs < oi.modifiedMs then oi else chosen

def newest : List ObjectInfo → Option ObjectInfo
  | [] => none
  | oi::rest => some (rest.foldl newer oi)

def mergeAcrossSets (streams : List (List ObjectInfo)) : List ObjectInfo :=
  merge ObjectInfo.key newest streams

section List

variable (c : MetaCodec) (o : VoteOrder) (bucket : String)

def walkOptions (prefixFilter : String) (startAfter : Option String) (cap : Option ℕ) :
    WalkOptions :=
  ⟨true,prefixFilter,startAfter,cap⟩

def listOneSet (prefixFilter : String) (startAfter : Option String) (cap : Option ℕ)
    (disks : List Disk) : List ObjectInfo :=
  if disks = [] then []
  else
    let streams := disks.filterMap (fun t =>
      (value (walkDir c bucket (walkOptions prefixFilter startAfter cap) "" t)).toOption)
    let quorum := (disks.length+1)/2
    if streams.length < quorum then [] else mergeWithinSet o streams quorum bucket

def list (prefixFilter : String) (startAfter : Option String) (maxKeys : ℕ)
    (sets : List (List Disk)) : List ObjectInfo :=
  if sets = [] then []
  else
    let perSetCap := if maxKeys = 0 then none else some (maxKeys+1)
    let merged := mergeAcrossSets (sets.map (listOneSet c o bucket prefixFilter startAfter perSetCap))
    if maxKeys = 0 then merged else merged.take (maxKeys+1)

inductive ListEntry where
  | object (info : ObjectInfo)
  | common (path : String)
  deriving DecidableEq

def entryName : ListEntry → String
  | .object info => info.key
  | .common path => path

/-- The text up to the end of the first occurrence of the delimiter. -/
def upTo (delim : List Char) : List Char → Option (List Char)
  | [] => if delim = [] then some [] else none
  | ch::rest => if delim.isPrefixOf (ch::rest) then some delim else (upTo delim rest).map (ch :: ·)

def rollupEntries (start : String) (delim : String) : Option String → List ObjectInfo →
    List ListEntry
  | _,[] => []
  | prev,info::infos =>
    if startsWith info.key start = false then
      .object info::rollupEntries start delim prev infos
    else
      match upTo delim.toList (info.key.toList.drop start.toList.length) with
      | none => .object info::rollupEntries start delim prev infos
      | some cut =>
        let common := start ++ String.ofList cut
        if prev = some common then rollupEntries start delim prev infos
        else .common common::rollupEntries start delim (some common) infos

def byKey (infos : List ObjectInfo) : List ObjectInfo :=
  infos.insertionSort (fun a b => a.key ≤ b.key)

structure Page where
  entries : List ListEntry
  truncated : Bool
  next : Option String

def rolledPage (entries : List ListEntry) (cursor : Option String) (maxKeys : ℕ) : Page :=
  let start := cursor.elim 0 (fun c => entries.findIdx (fun e => c < entryName e))
  let stop := min (start+maxKeys) entries.length
  let truncated : Bool := stop < entries.length
  ⟨(entries.drop start).take (stop-start),truncated,
    if truncated then (entries[stop-1]?).map entryName else none⟩

def flatPage (infos : List ObjectInfo) (maxKeys : ℕ) : Page :=
  let truncated : Bool := maxKeys < infos.length
  let returned := infos.take maxKeys
  ⟨returned.map .object,truncated,if truncated then returned.getLast?.map ObjectInfo.key else none⟩

def listPage (prefixFilter : String) (delimiter cursor : Option String) (maxKeys : ℕ)
    (sets : List (List Disk)) : Page :=
  match delimiter with
  | some delim =>
    rolledPage (rollupEntries prefixFilter delim none
      (byKey (list c o bucket prefixFilter none 0 sets))) cursor maxKeys
  | none => flatPage (byKey (list c o bucket prefixFilter cursor maxKeys sets)) maxKeys

end List

section Vote

variable (o : VoteOrder) (candidates : List FileInfo) (quorum : ℕ)

theorem voteFileinfo_some (fi : FileInfo) (h : voteFileinfo o candidates quorum = some fi) :
    fi ∈ candidates ∧
      LeadsAmong (fun _ => quorum) (candidates.map signature) (signature fi) := by
  rw [voteFileinfo, Option.map_eq_some_iff] at h
  obtain ⟨⟨s,n,fi⟩,hmax,rfl⟩ := h
  obtain ⟨hmem,hle⟩ := maxByKey_spec _ _ _ hmax
  have hT := counts_firstStep signature candidates
  rw [List.mem_filter, o.mem_arrange, decide_eq_true_eq] at hmem
  obtain ⟨hhead,-⟩ := (mem_tally_first signature candidates s n fi).mp hmem.1
  obtain ⟨hin,hs⟩ := List.mem_filter.mp (List.mem_of_head? hhead)
  obtain rfl : s = signature fi := by simpa using hs
  refine ⟨hin,List.mem_map_of_mem hin,?_,fun l hl hq => ?_⟩
  · rw [← hT.size _ hmem.1]
    exact hmem.2
  · obtain ⟨w,hw⟩ := (hT.key l).mp hl
    rw [← hT.size _ hmem.1]
    rw [← hT.size _ hw] at hq ⊢
    exact hle _ (List.mem_filter.mpr ⟨(o.mem_arrange _ _).mpr hw,by simpa using hq⟩)

theorem voteFileinfo_none :
    voteFileinfo o candidates quorum = none ↔
      ∀ s ∈ candidates.map signature, (candidates.map signature).count s < quorum := by
  have hT := counts_firstStep signature candidates
  rw [voteFileinfo, Option.map_eq_none_iff, maxByKey_eq_none, List.filter_eq_nil_iff]
  constructor
  · intro h s hs
    obtain ⟨w,hw⟩ := (hT.key s).mp hs
    have hlt := h _ ((o.mem_arrange _ _).mpr hw)
    rw [decide_eq_true_eq, not_le] at hlt
    have hsize := hT.size _ hw
    simp only at hsize hlt
    omega
  · intro h e he
    rw [o.mem_arrange] at he
    rw [decide_eq_true_eq, not_le, hT.size e he]
    exact h e.1 ((hT.key e.1).mpr ⟨e.2,he⟩)

theorem exists_voteFileinfo (s : Signature)
    (hs : LeadsAmong (fun _ => quorum) (candidates.map signature) s) :
    ∃ o fi, voteFileinfo o candidates quorum = some fi ∧ signature fi = s := by
  have hT := counts_firstStep signature candidates
  obtain ⟨o,⟨s',n,fi⟩,hmem,rfl,hmax⟩ := hT.exists_filtered_vote quorum hs
  refine ⟨o,fi,by rw [voteFileinfo, hmax]; rfl,?_⟩
  have hhead := ((mem_tally_first signature candidates s' n fi).mp hmem).1
  exact (of_decide_eq_true (List.mem_filter.mp (List.mem_of_head? hhead)).2).symm

theorem voteFileinfo_agreed (s : Signature) (hs : ∀ fi ∈ candidates, signature fi = s)
    (hne : candidates ≠ []) (hq : quorum ≤ candidates.length) :
    ∃ fi ∈ candidates, voteFileinfo o candidates quorum = some fi := by
  cases hv : voteFileinfo o candidates quorum with
  | some fi => exact ⟨fi,(voteFileinfo_some o candidates quorum fi hv).1,rfl⟩
  | none =>
    rw [voteFileinfo_none] at hv
    have hrep : candidates.map signature = List.replicate candidates.length s :=
      List.eq_replicate_iff.mpr ⟨by simp,fun x hx => by
        obtain ⟨fi,hfi,rfl⟩ := List.mem_map.mp hx
        exact hs fi hfi⟩
    obtain ⟨fi,hfi⟩ := List.exists_mem_of_ne_nil _ hne
    have hlt := hv s (hs fi hfi ▸ List.mem_map_of_mem hfi)
    rw [hrep, List.count_replicate_self] at hlt
    omega

end Vote

theorem newest_keyed : Keyed ObjectInfo.key newest ObjectInfo.key := by
  constructor
  intro k g hne hk
  cases g with
  | nil => exact absurd rfl hne
  | cons oi rest =>
    refine ⟨_,rfl,?_⟩
    have hfold : ∀ (rest : List ObjectInfo) (oi : ObjectInfo), oi.key = k →
        (∀ a ∈ rest, a.key = k) → (rest.foldl newer oi).key = k := by
      intro rest
      induction rest with
      | nil => exact fun oi h _ => h
      | cons a rest ih =>
        intro oi h hrest
        apply ih (newer oi a) _ (fun b hb => hrest b (List.mem_cons_of_mem a hb))
        rw [newer]
        split_ifs
        · exact hrest a List.mem_cons_self
        · exact h
    exact hfold rest oi (hk oi List.mem_cons_self) (fun a ha => hk a (List.mem_cons_of_mem oi ha))

theorem mem_keys_mergeAcrossSets (streams : List (List ObjectInfo)) (k : String) :
    k ∈ (mergeAcrossSets streams).map ObjectInfo.key ↔
      ∃ s ∈ streams, k ∈ s.map ObjectInfo.key := by
  rw [mergeAcrossSets, newest_keyed.mem_merge]
  simp only [List.mem_map]

theorem mergeAcrossSets_sorted (streams : List (List ObjectInfo))
    (h : ∀ s ∈ streams, (s.map ObjectInfo.key).Pairwise (· < ·)) :
    ((mergeAcrossSets streams).map ObjectInfo.key).Pairwise (· < ·) :=
  newest_keyed.merge_sorted streams (fun s hs => List.pairwise_map.mp (h s hs))

/-- Streams that report the same keys, with records that agree and are not
delete markers, merge to these keys. -/
theorem keys_mergeWithinSet (o : VoteOrder) (bucket : String) (streams : List Listing)
    (quorum : ℕ) (ks : List String) (sig : String → Signature) (hne : streams ≠ [])
    (hq : quorum ≤ streams.length)
    (h : ∀ s ∈ streams, s.map Prod.fst = ks ∧
      ∀ e ∈ s, signature e.2 = sig e.1 ∧ e.2.deleted = false ∧ e.2.name = e.1) :
    (mergeWithinSet o streams quorum bucket).map ObjectInfo.key = ks := by
  apply rounds_same (fun e => signature e.2 = sig e.1 ∧ e.2.deleted = false ∧ e.2.name = e.1) _
    streams ks hne h
  · obtain ⟨s,hs⟩ := List.exists_mem_of_ne_nil _ hne
    have hle : s.length ≤ size streams := List.single_le_sum (by simp) _ (List.mem_map_of_mem hs)
    rwa [← (h s hs).1, List.length_map]
  · intro k g hlen hg
    have hg0 : g.map Prod.snd ≠ [] := by
      rw [Ne, List.map_eq_nil_iff, ← List.length_eq_zero_iff, hlen, List.length_eq_zero_iff]
      exact hne
    obtain ⟨fi,hfi,hvote⟩ := voteFileinfo_agreed o (g.map Prod.snd) quorum (sig k)
      (fun fi hfi => by
        obtain ⟨e,he,rfl⟩ := List.mem_map.mp hfi
        obtain ⟨hk,hsig,-⟩ := hg e he
        rw [hsig, hk]) hg0 (by rw [List.length_map, hlen]; exact hq)
    obtain ⟨e,he,rfl⟩ := List.mem_map.mp hfi
    obtain ⟨hk,-,hlive,hname⟩ := hg e he
    refine ⟨toObjectInfo bucket e.2,?_,hname.trans hk⟩
    rw [electObject, if_neg (by omega), hvote]
    simp [hlive]

section AcrossSets

theorem newer_spec (a b : ObjectInfo) : (newer a b = a ∨ newer a b = b) ∧
    a.modifiedMs ≤ (newer a b).modifiedMs ∧ b.modifiedMs ≤ (newer a b).modifiedMs := by
  rw [newer]
  split_ifs with h
  · exact ⟨.inr rfl,UInt64.le_of_lt h,UInt64.le_refl _⟩
  · exact ⟨.inl rfl,UInt64.le_refl _,UInt64.not_lt.mp h⟩

theorem foldl_newer (rest : List ObjectInfo) (oi : ObjectInfo) :
    rest.foldl newer oi ∈ oi::rest ∧
      ∀ a ∈ oi::rest, a.modifiedMs ≤ (rest.foldl newer oi).modifiedMs := by
  induction rest generalizing oi with
  | nil => simp
  | cons b rest ih =>
    obtain ⟨hmem,hle⟩ := ih (newer oi b)
    obtain ⟨hpick,ha,hb⟩ := newer_spec oi b
    have hnewer := hle _ List.mem_cons_self
    rw [List.foldl_cons]
    refine ⟨?_,fun a hin => ?_⟩
    · rcases List.mem_cons.mp hmem with h | h
      · rw [h]
        rcases hpick with hpick | hpick <;> simp [hpick]
      · simp [h]
    · rcases List.mem_cons.mp hin with rfl | hin
      · exact UInt64.le_trans ha hnewer
      · rcases List.mem_cons.mp hin with rfl | hin
        · exact UInt64.le_trans hb hnewer
        · exact hle a (List.mem_cons_of_mem _ hin)

theorem newest_spec (group : List ObjectInfo) (hne : group ≠ []) :
    ∃ info ∈ group, newest group = some info ∧ ∀ a ∈ group, a.modifiedMs ≤ info.modifiedMs := by
  cases group with
  | nil => exact absurd rfl hne
  | cons oi rest =>
    obtain ⟨hmem,hle⟩ := foldl_newer rest oi
    exact ⟨_,hmem,rfl,hle⟩

def stamp (info : ObjectInfo) : String × UInt64 := (info.key,info.modifiedMs)

variable {streams : List (List ObjectInfo)} (h : ∀ s ∈ streams, Ascending ObjectInfo.key s)

include h

theorem newest_under (k : String) (hk : k ∈ keys ObjectInfo.key streams) :
    ∃ info, newest (under ObjectInfo.key k streams) = some info ∧ info.key = k ∧
      (∃ s ∈ streams, info ∈ s) ∧
      ∀ s ∈ streams, ∀ a ∈ s, a.key = k → a.modifiedMs ≤ info.modifiedMs := by
  obtain ⟨s,hs,a,ha,hak⟩ := (mem_keys streams k).mp hk
  have hne : under ObjectInfo.key k streams ≠ [] :=
    List.ne_nil_of_mem ((mem_under streams h k a).mpr ⟨hak,s,hs,ha⟩)
  obtain ⟨info,hmem,hnewest,hle⟩ := newest_spec _ hne
  obtain ⟨hkey,hfrom⟩ := (mem_under streams h k info).mp hmem
  exact ⟨info,hnewest,hkey,hfrom,
    fun s hs b hb hbk => hle b ((mem_under streams h k b).mpr ⟨hbk,s,hs,hb⟩)⟩

theorem stamps_mergeAcrossSets (streams' : List (List ObjectInfo)) (hperm : streams'.Perm streams) :
    (mergeAcrossSets streams').map stamp = (mergeAcrossSets streams).map stamp := by
  have hmem : ∀ s, s ∈ streams' ↔ s ∈ streams := fun s => hperm.mem_iff
  have h' : ∀ s ∈ streams', Ascending ObjectInfo.key s := fun s hs => h s ((hmem s).mp hs)
  have hkeys : keys ObjectInfo.key streams' = keys ObjectInfo.key streams := by
    apply (keys_sorted streams').eq_of_mem_iff (keys_sorted streams)
    intro k
    simp only [mem_keys, hmem]
  rw [mergeAcrossSets, mergeAcrossSets, merge_eq _ _ h, merge_eq _ _ h', hkeys,
    List.map_filterMap, List.map_filterMap]
  apply List.filterMap_congr
  intro k hk
  obtain ⟨info,hnew,hkey,⟨s,hs,hin⟩,hle⟩ := newest_under h k hk
  obtain ⟨info',hnew',hkey',⟨s',hs',hin'⟩,hle'⟩ := newest_under h' k (hkeys ▸ hk)
  have htime : info'.modifiedMs = info.modifiedMs :=
    UInt64.le_antisymm (hle s' ((hmem s').mp hs') info' hin' hkey')
      (hle' s ((hmem s).mpr hs) info hin hkey)
  rw [hnew, hnew', Option.map_some, Option.map_some, stamp, stamp, hkey, hkey', htime]

/-- The merge of the sets returns each key of its streams once, in order, with
a newest record of the key, and which stamps it returns does not depend on the
order of the streams. -/
theorem mergeAcrossSets_newest :
    ((mergeAcrossSets streams).map ObjectInfo.key).Pairwise (· < ·) ∧
    (∀ k, k ∈ (mergeAcrossSets streams).map ObjectInfo.key ↔
      ∃ s ∈ streams, k ∈ s.map ObjectInfo.key) ∧
    (∀ info ∈ mergeAcrossSets streams, (∃ s ∈ streams, info ∈ s) ∧
      ∀ s ∈ streams, ∀ a ∈ s, a.key = info.key → a.modifiedMs ≤ info.modifiedMs) ∧
    ∀ streams' : List (List ObjectInfo), streams'.Perm streams →
      ∀ k ms, (k,ms) ∈ (mergeAcrossSets streams').map stamp ↔
        (k,ms) ∈ (mergeAcrossSets streams).map stamp := by
  refine ⟨mergeAcrossSets_sorted streams (fun s hs => List.pairwise_map.mpr (h s hs)),
    mem_keys_mergeAcrossSets streams,fun info hinfo => ?_,fun streams' hperm k ms => ?_⟩
  · obtain ⟨k,hk,hnewest⟩ := (mem_merge newest streams h info).mp hinfo
    obtain ⟨info',hnewest',rfl,hfrom,hle⟩ := newest_under h k hk
    obtain rfl := Option.some.inj (hnewest.symm.trans hnewest')
    exact ⟨hfrom,hle⟩
  · rw [stamps_mergeAcrossSets h streams' hperm]

end AcrossSets

def sampleInfo (key : String) (modifiedMs : UInt64) : ObjectInfo :=
  ⟨"b",key,1,"e",.single,modifiedMs,none,"null",false⟩

def sampleSets : List (List ObjectInfo) :=
  [[sampleInfo "k" 1,sampleInfo "l" 1],[sampleInfo "k" 2]]

theorem sampleSets_newest : (∀ s ∈ sampleSets, Ascending ObjectInfo.key s) ∧
    ∀ info ∈ mergeAcrossSets sampleSets, info.key = "k" → 2 ≤ info.modifiedMs := by
  have hsorted : ∀ s ∈ sampleSets, Ascending ObjectInfo.key s := by
    unfold Ascending
    decide +kernel
  refine ⟨hsorted,fun info hinfo hkey => ?_⟩
  have hle := ((mergeAcrossSets_newest hsorted).2.2.1 info hinfo).2
  exact hle [sampleInfo "k" 2] (by simp [sampleSets]) (sampleInfo "k" 2) (by simp) hkey.symm

section WithinSet

def holders (streams : List Listing) (k : String) (sig : Signature) : ℕ :=
  streams.countP (fun s => s.any (fun e => e.1 = k ∧ signature e.2 = sig))

theorem any_holds_iff (s : Listing) (hs : Ascending Prod.fst s) (k : String) (sig : Signature) :
    s.any (fun e => e.1 = k ∧ signature e.2 = sig) =
      ((s.find? (fun e => e.1 = k)).map (fun e => decide (signature e.2 = sig))).getD false := by
  cases hfind : s.find? (fun e => e.1 = k) with
  | none =>
    rw [List.find?_eq_none] at hfind
    simp only [Option.map_none, Option.getD_none, List.any_eq_false]
    intro e he
    have := hfind e he
    simp_all
  | some e =>
    have hek : e.1 = k := by simpa using List.find?_some hfind
    rw [Bool.eq_iff_iff, List.any_eq_true]
    simp only [Option.map_some, Option.getD_some, decide_eq_true_eq]
    constructor
    · rintro ⟨e',he',hk,hsig⟩
      have hsame := find_ascending s hs e' he'
      rw [hk, hfind] at hsame
      rw [Option.some.inj hsame, hsig]
    · intro hsig
      exact ⟨e,List.mem_of_find?_eq_some hfind,hek,hsig⟩

variable {streams : List Listing} (h : ∀ s ∈ streams, Ascending Prod.fst s)

include h

theorem count_under (k : String) (sig : Signature) :
    (((under Prod.fst k streams).map Prod.snd).map signature).count sig = holders streams k sig := by
  rw [List.count, List.countP_map, List.countP_map, under, List.countP_filterMap, holders]
  apply List.countP_congr
  intro s hs
  rw [any_holds_iff s (h s hs)]
  cases s.find? (fun e => e.1 = k) with
  | none => simp
  | some e => simp

variable (o : VoteOrder) (bucket : String) (quorum : ℕ)

omit h in
theorem electObject_eq_some (group : Listing) (info : ObjectInfo) :
    electObject o quorum bucket group = some info ↔ quorum ≤ group.length ∧
      ∃ fi, voteFileinfo o (group.map Prod.snd) quorum = some fi ∧ fi.deleted = false ∧
        toObjectInfo bucket fi = info := by
  rw [electObject]
  split_ifs with hlen
  · simp [Nat.not_le.mpr hlen]
  · cases hvote : voteFileinfo o (group.map Prod.snd) quorum with
    | none => simp
    | some fi => cases hdel : fi.deleted <;> simp [hdel, Nat.le_of_not_lt hlen]

theorem elected_under (k : String) (info : ObjectInfo)
    (helect : electObject o quorum bucket (under Prod.fst k streams) = some info) :
    ∃ fi, info = toObjectInfo bucket fi ∧ fi.deleted = false ∧ (∃ s ∈ streams, (k,fi) ∈ s) ∧
      quorum ≤ holders streams k (signature fi) := by
  obtain ⟨-,fi,hvote,hlive,rfl⟩ := (electObject_eq_some o bucket quorum _ info).mp helect
  obtain ⟨hmem,-,hcount,-⟩ := voteFileinfo_some o _ quorum fi hvote
  obtain ⟨⟨k',fi⟩,he,rfl⟩ := List.mem_map.mp hmem
  obtain ⟨rfl,hfrom⟩ := (mem_under streams h k _).mp he
  rw [count_under h] at hcount
  exact ⟨fi,rfl,hlive,hfrom,hcount⟩

/-- A key with a live signature on enough streams and no deleted one elects a
record. -/
theorem elects_under (k : String) (sig : Signature) (hsig : quorum ≤ holders streams k sig)
    (hdel : ∀ sig', sig'.deleted = true → holders streams k sig' < quorum) :
    ∃ info, electObject o quorum bucket (under Prod.fst k streams) = some info := by
  have hpos : 0 < quorum := Nat.zero_lt_of_lt (hdel { sig with deleted := true } rfl)
  have hcount := count_under h k sig
  cases hvote : voteFileinfo o ((under Prod.fst k streams).map Prod.snd) quorum with
  | none =>
    rw [voteFileinfo_none] at hvote
    have := hvote sig (List.count_pos_iff.mp (by omega))
    omega
  | some fi =>
    obtain ⟨-,-,hfi,-⟩ := voteFileinfo_some o _ quorum fi hvote
    rw [count_under h] at hfi
    have hlen := List.count_le_length
      (a := signature fi) (l := ((under Prod.fst k streams).map Prod.snd).map signature)
    rw [count_under h, List.length_map, List.length_map] at hlen
    refine ⟨_,(electObject_eq_some o bucket quorum _ _).mpr ⟨hfi.trans hlen,fi,hvote,?_,rfl⟩⟩
    cases hfd : fi.deleted with
    | false => rfl
    | true => exact absurd (hdel (signature fi) hfd) (Nat.not_lt.mpr hfi)

/-- The merge of a set returns keys in order, each once and with a live record
whose signature enough streams hold, and misses no key with such a record
unless a deletion has as many votes. -/
theorem mergeWithinSet_elects : ∃ ks : List String, ks.Pairwise (· < ·) ∧
    List.Forall₂ (fun k info => ∃ fi, info = toObjectInfo bucket fi ∧ fi.deleted = false ∧
        (∃ s ∈ streams, (k,fi) ∈ s) ∧ quorum ≤ holders streams k (signature fi))
      ks (mergeWithinSet o streams quorum bucket) ∧
    (∀ k sig, sig.deleted = false → quorum ≤ holders streams k sig →
      (∀ sig', sig'.deleted = true → holders streams k sig' < quorum) → k ∈ ks) ∧
    ((∀ s ∈ streams, ∀ e ∈ s, e.2.name = e.1) →
      (mergeWithinSet o streams quorum bucket).map ObjectInfo.key = ks) := by
  have hreturned := forall₂_filterMap
    (fun k => electObject o quorum bucket (under Prod.fst k streams)) (keys Prod.fst streams)
  rw [← merge_eq _ streams h] at hreturned
  refine ⟨_,(keys_sorted streams).filter _,hreturned.imp fun k info helect =>
    elected_under h o bucket quorum k info helect,fun k sig _ hsig hdel => ?_,fun hnames => ?_⟩
  · obtain ⟨info,helect⟩ := elects_under h o bucket quorum k sig hsig hdel
    obtain ⟨fi,-,-,⟨s,hs,hin⟩,-⟩ := elected_under h o bucket quorum k info helect
    exact List.mem_filter.mpr ⟨(mem_keys streams k).mpr ⟨s,hs,_,hin,rfl⟩,by simp [helect]⟩
  · rw [mergeWithinSet, ← List.forall₂_eq_eq_eq, List.forall₂_map_left_iff]
    refine hreturned.flip.imp fun info k helect => ?_
    obtain ⟨fi,rfl,-,⟨s,hs,hin⟩,-⟩ := elected_under h o bucket quorum k info helect
    exact hnames s hs _ hin

end WithinSet

def sampleRecord (key : String) (modTimeMs : UInt64) : String × FileInfo :=
  (key,{ volume := "b", name := key, versionId := "null", modTimeMs := modTimeMs, size := 1 })

def sampleStreams : List Listing :=
  [[sampleRecord "k" 1,sampleRecord "l" 1],[sampleRecord "k" 1],[sampleRecord "k" 2]]

theorem sampleStreams_elect : (∀ s ∈ sampleStreams, Ascending Prod.fst s) ∧
    "k" ∈ (mergeWithinSet (.insertion _) sampleStreams 2 "b").map ObjectInfo.key := by
  have hsorted : ∀ s ∈ sampleStreams, Ascending Prod.fst s := by
    unfold Ascending
    decide +kernel
  obtain ⟨ks,-,-,hmem,hkeys⟩ := mergeWithinSet_elects hsorted (.insertion _) "b" 2
  rw [hkeys (by decide +kernel)]
  refine ⟨hsorted,hmem "k" (signature (sampleRecord "k" 1).2) rfl (by decide +kernel) fun sig' hdel => ?_⟩
  have hall : ∀ s ∈ sampleStreams, ∀ e ∈ s, e.2.deleted = false := by decide +kernel
  have hnone : holders sampleStreams "k" sig' = 0 := by
    rw [holders, List.countP_eq_zero]
    intro s hs
    rw [Bool.not_eq_true, List.any_eq_false]
    intro e he hholds
    rw [decide_eq_true_eq] at hholds
    have hlive := hall s hs e he
    rw [← hholds.2] at hdel
    exact absurd (hlive.symm.trans hdel) (by decide)
  omega

open Lib.Tally

section Outcomes

variable (bucket : String) (quorum : ℕ) (streams : List Listing)

/-- What is listed for a key when a signature wins: the first record with it. -/
def outcome (k : String) (sig : Signature) : Option ObjectInfo :=
  if sig.deleted then none
  else ((under Prod.fst k streams).find? (fun e => signature e.2 = sig)).map
    (fun e => toObjectInfo bucket e.2)

theorem voteFileinfo_first (o : VoteOrder) (candidates : List FileInfo) (fi : FileInfo)
    (h : voteFileinfo o candidates quorum = some fi) :
    candidates.find? (fun fi' => signature fi' = signature fi) = some fi := by
  rw [voteFileinfo, Option.map_eq_some_iff] at h
  obtain ⟨⟨s,n,fi⟩,hmax,rfl⟩ := h
  have hmem := (maxByKey_spec _ _ _ hmax).1
  rw [List.mem_filter, o.mem_arrange] at hmem
  have hhead := ((mem_tally_first signature candidates s n fi).mp hmem.1).1
  have hsig := of_decide_eq_true (List.mem_filter.mp (List.mem_of_head? hhead)).2
  subst hsig
  rw [List.head?_filter] at hhead
  rw [← hhead]
  congr 1
  funext fi'
  simp [eq_comm]

variable {streams} (h : ∀ s ∈ streams, Ascending Prod.fst s) (hq : 0 < quorum)

include h

theorem elected_outcome (o : VoteOrder) (k : String) (fi : FileInfo)
    (hvote : voteFileinfo o ((under Prod.fst k streams).map Prod.snd) quorum = some fi) :
    quorum ≤ holders streams k (signature fi) ∧
      electObject o quorum bucket (under Prod.fst k streams) =
        outcome bucket streams k (signature fi) := by
  have hfirst := voteFileinfo_first quorum o _ fi hvote
  obtain ⟨-,-,hcount,-⟩ := voteFileinfo_some o _ quorum fi hvote
  rw [count_under h] at hcount
  have hlen : quorum ≤ (under Prod.fst k streams).length := by
    have hle := List.count_le_length
      (a := signature fi) (l := ((under Prod.fst k streams).map Prod.snd).map signature)
    rw [count_under h, List.length_map, List.length_map] at hle
    exact hcount.trans hle
  rw [List.find?_map] at hfirst
  obtain ⟨e,he,rfl⟩ := Option.map_eq_some_iff.mp hfirst
  refine ⟨hcount,?_⟩
  rw [electObject, if_neg (Nat.not_lt.mpr hlen), hvote, outcome]
  simp only [Function.comp_def] at he
  rw [he]
  rfl

include hq

/-- The vote on a key ends in the outcome of a signature on enough streams, if
there is one. -/
theorem electObject_outcome (o : VoteOrder) (k : String) :
    (∃ sig, quorum ≤ holders streams k sig ∧
      electObject o quorum bucket (under Prod.fst k streams) = outcome bucket streams k sig) ∨
    (∀ sig, holders streams k sig < quorum) ∧
      electObject o quorum bucket (under Prod.fst k streams) = none := by
  cases hvote : voteFileinfo o ((under Prod.fst k streams).map Prod.snd) quorum with
  | some fi => exact .inl ⟨_,elected_outcome bucket quorum h o k fi hvote⟩
  | none =>
    refine .inr ⟨fun sig => ?_,?_⟩
    · rw [← count_under h]
      by_cases hsig : sig ∈ ((under Prod.fst k streams).map Prod.snd).map signature
      · exact (voteFileinfo_none o _ quorum).mp hvote sig hsig
      · rwa [List.count_eq_zero_of_not_mem hsig]
    · rw [electObject, hvote]
      split_ifs <;> rfl

theorem exists_outcome (hhalf : streams.length ≤ 2*quorum) (k : String) (sig : Signature)
    (hsig : quorum ≤ holders streams k sig) :
    ∃ o, electObject o quorum bucket (under Prod.fst k streams) =
      outcome bucket streams k sig := by
  have hlen : (((under Prod.fst k streams).map Prod.snd).map signature).length ≤ 2*quorum := by
    rw [List.length_map, List.length_map, under]
    exact (List.length_filterMap_le _ _).trans hhalf
  have hleads : LeadsAmong (fun _ => quorum)
      (((under Prod.fst k streams).map Prod.snd).map signature) sig := by
    rw [← count_under h] at hsig
    refine ⟨List.count_pos_iff.mp (by omega),hsig,fun l _ _ => ?_⟩
    by_cases hl : l = sig
    · rw [hl]
    · have := count_add_count_le (((under Prod.fst k streams).map Prod.snd).map signature) l sig hl
      omega
  obtain ⟨o,fi,hvote,rfl⟩ := exists_voteFileinfo _ quorum sig hleads
  exact ⟨o,(elected_outcome bucket quorum h o k fi hvote).2⟩

end Outcomes

end Openlake.Listing
