import Openlake.KeyOrder
import Openlake.Lib.SortedLists
import Openlake.ListedKeys
import Openlake.WalkExact

/-!
# A listing read page by page

Where no key clashes with the path of another and no directory on the way to a
key holds a directory named like a metadata file, every set reports its keys
past the cursor in byte order. The first keys of the merged streams are then
the first keys past the cursor, although every stream was cut.

The pages of a listing without a delimiter start from the cursor of the one
before. The walk drops a directory that comes before the cursor, although keys
below it may come after: after `a-b` it drops `a` and never reports `a/b`.
-/

set_option autoImplicit false

namespace Openlake.ListPages
open XlMeta LocalFs GetObject Listing ListedKeys KeyOrder Lib.FileTree Lib.SortedLists

def matching (K : Finset String) (pre : String) : List String :=
  (K.filter (fun k => startsWith k pre = true)).sort (· ≤ ·)

def past (cursor : Option String) (k : String) : Bool := cursor.all (fun c => c < k)

theorem matching_sorted (K : Finset String) (pre : String) :
    (matching K pre).Pairwise (· < ·) := (Finset.sortedLT_sort _).pairwise

theorem mem_matching (K : Finset String) (pre k : String) :
    k ∈ matching K pre ↔ k ∈ K ∧ startsWith k pre = true := by
  rw [matching, Finset.mem_sort, Finset.mem_filter]

theorem rejects_iff (pre : String) (cursor : Option String) (cap : Option ℕ) (k : String) :
    (walkOptions pre cursor cap).rejects k = false ↔
      startsWith k pre = true ∧ past cursor k = true := by
  by_cases hpre : pre = ""
  · cases cursor <;> simp [WalkOptions.rejects, walkOptions, past, hpre, startsWith]
  · cases cursor <;> simp [WalkOptions.rejects, walkOptions, past, hpre]

theorem before_iff {pre c child : String} {cap : Option ℕ} :
    (walkOptions pre (some c) cap).before child = true ↔
      child < c ∧ startsWith c (child ++ "/") = false := by
  simp only [WalkOptions.before, walkOptions, Option.any_some, Bool.and_eq_true,
    decide_eq_true_eq, Bool.not_eq_true', and_iff_left_iff_imp]
  exact fun h => h.1.ne'

/-- A key that the cursor does not clash with is admitted when it is past the
cursor. -/
theorem admits_iff (pre : String) (cursor : Option String) (cap : Option ℕ) (k : String)
    (hk : PlainKey k) (hclash : ∀ c ∈ cursor, ¬Clash c (segments k)) :
    Admits (walkOptions pre cursor cap) (segments k) ↔
      startsWith k pre = true ∧ past cursor k = true := by
  rw [Admits, hk.joined, rejects_iff, and_iff_right_iff_imp]
  rintro ⟨hstarts,hpast⟩ a ha ha0
  have hnames : ∀ s ∈ a, FileName s := fun s hs => hk.names s (ha.subset hs)
  refine ⟨?_,?_⟩
  · cases cursor with
    | none => rfl
    | some c =>
      by_contra hbefore
      rw [Bool.not_eq_false, before_iff] at hbefore
      apply hclash c rfl
      apply clash_of_before c (segments k) a hk.names ha ha0 _ hbefore.1 hbefore.2
      rw [hk.joined]
      simpa [past] using hpast
  · obtain ⟨r,hr⟩ := ha
    apply not_outside _ a r hnames (fun s hs => hk.names s (by rw [← hr]; simp [hs])) ha0
    rw [hr, hk.joined]
    exact hstarts

theorem keys_shelf (K : Finset String) (pre : String) (cursor : Option String) (cap : Option ℕ)
    (hplain : ∀ k ∈ K, PlainKey k) (hclear : ∀ k ∈ matching K pre, Clear K (segments k))
    (hcursor : ∀ k ∈ matching K pre, ∀ c ∈ cursor, ¬Clash c (segments k))
    (hclash : ∀ k ∈ matching K pre, ∀ c ∈ matching K pre, ¬Clash c (segments k)) :
    (shelf K (walkOptions pre cursor cap)).map keyOf =
      (matching K pre).filter (past cursor) := by
  have hmem : ∀ p, p ∈ shelf K (walkOptions pre cursor cap) ↔
      ∃ k ∈ matching K pre, past cursor k = true ∧ segments k = p := by
    intro p
    rw [mem_shelf]
    constructor
    · rintro ⟨⟨k,hk,rfl⟩,-,hadm⟩
      have hrej := hadm.2
      rw [(hplain k hk).joined, rejects_iff] at hrej
      exact ⟨k,(mem_matching K pre k).mpr ⟨hk,hrej.1⟩,hrej.2,rfl⟩
    · rintro ⟨k,hk,hpast,rfl⟩
      obtain ⟨hkK,hstarts⟩ := (mem_matching K pre k).mp hk
      refine ⟨⟨k,hkK,rfl⟩,hclear k hk,?_⟩
      rw [admits_iff pre cursor cap k (hplain k hkK) (hcursor k hk)]
      exact ⟨hstarts,hpast⟩
  have hsorted : ((shelf K (walkOptions pre cursor cap)).map keyOf).Pairwise (· < ·) := by
    rw [List.pairwise_map]
    apply (shelf_sorted K _).imp_of_mem
    intro p q hp hq hlt
    obtain ⟨k,hk,-,rfl⟩ := (hmem p).mp hp
    obtain ⟨k',hk',-,rfl⟩ := (hmem q).mp hq
    have hkp := hplain k ((mem_matching K pre k).mp hk).1
    have hkp' := hplain k' ((mem_matching K pre k').mp hk').1
    rw [hkp.joined, hkp'.joined]
    rcases lt_trichotomy k k' with h | rfl | h
    · exact h
    · exact absurd hlt (lt_irrefl _)
    · apply absurd _ (hclash k hk k' hk')
      have hdis := clash_of_disorder _ _ hkp.names hkp'.names hkp.segments_ne hlt
      rw [hkp.joined, hkp'.joined] at hdis
      exact hdis h
  apply hsorted.eq_of_mem_iff ((matching_sorted K pre).filter _)
  intro k
  rw [List.mem_map, List.mem_filter]
  constructor
  · rintro ⟨p,hp,rfl⟩
    obtain ⟨k,hk,hpast,rfl⟩ := (hmem p).mp hp
    rw [(hplain k ((mem_matching K pre k).mp hk).1).joined]
    exact ⟨hk,hpast⟩
  · rintro ⟨hk,hpast⟩
    exact ⟨segments k,(hmem _).mpr ⟨k,hk,hpast,rfl⟩,(hplain k ((mem_matching K pre k).mp hk).1).joined⟩

/-- The keys lie in the sets that `place` gives, the same records on every disk
of a set. -/
structure Placed (c : MetaCodec) (bucket : String) (sig : String → Signature) (K : Finset String)
    {n : ℕ} (place : String → Fin n) (disks : Fin n → List Disk) : Prop where
  separate : Separate K
  full : ∀ i, disks i ≠ []
  stocked : ∀ i, ∀ t ∈ disks i, Stocked c bucket sig (K.filter (fun k => place k = i)) t

section Pages

variable {c : MetaCodec} {bucket : String} {sig : String → Signature} {K : Finset String} {n : ℕ}
  {place : String → Fin n} {disks : Fin n → List Disk}

theorem Placed.separate_set (h : Placed c bucket sig K place disks) (i : Fin n) :
    Separate (K.filter (fun k => place k = i)) :=
  ⟨fun k hk => h.separate.split k (Finset.mem_filter.mp hk).1,
    fun k hk k' hk' => h.separate.apart k (Finset.mem_filter.mp hk).1 k' (Finset.mem_filter.mp hk').1⟩

theorem Placed.plain (h : Placed c bucket sig K place disks) {k : String} (hk : k ∈ K) :
    PlainKey k := by
  obtain ⟨t,ht⟩ := List.exists_mem_of_ne_nil _ (h.full (place k))
  exact (h.stocked _ t ht).plain (h.separate_set _) (Finset.mem_filter.mpr ⟨hk,rfl⟩)

theorem Placed.keys_set (h : Placed c bucket sig K place disks) (o : VoteOrder) (pre : String)
    (cursor : Option String) (cap : ℕ) (i : Fin n) :
    (listOneSet c o bucket pre cursor (some cap) (disks i)).map ObjectInfo.key =
      ((shelf (K.filter (fun k => place k = i)) (walkOptions pre cursor (some cap))).map
        keyOf).take cap :=
  keys_listOneSet (h.separate_set i) o pre cursor (some cap) (disks i) (h.full i) (h.stocked i)

/-- Nothing hides a key that starts with the filter: no directory on its path
is taken for an object, and no other such key clashes with its path. -/
def Visible (K : Finset String) {n : ℕ} (place : String → Fin n) (pre : String) : Prop :=
  ∀ k ∈ matching K pre, Clear (K.filter (fun k' => place k' = place k)) (segments k) ∧
    ∀ k' ∈ matching K pre, ¬Clash k' (segments k)

theorem keys_matching_set (pre k : String) (i : Fin n) :
    k ∈ matching (K.filter (fun k => place k = i)) pre ↔ k ∈ matching K pre ∧ place k = i := by
  simp only [mem_matching, Finset.mem_filter]
  tauto

theorem Placed.keys_set_of_visible (h : Placed c bucket sig K place disks) {pre : String}
    (hvis : Visible K place pre) (o : VoteOrder) (cursor : Option String)
    (hcursor : ∀ k ∈ cursor, k ∈ matching K pre) (cap : ℕ) (i : Fin n) :
    (listOneSet c o bucket pre cursor (some cap) (disks i)).map ObjectInfo.key =
      ((matching (K.filter (fun k => place k = i)) pre).filter (past cursor)).take cap := by
  rw [h.keys_set, keys_shelf]
  · exact fun k hk => h.plain (Finset.mem_filter.mp hk).1
  · intro k hk
    obtain ⟨hmem,rfl⟩ := (keys_matching_set pre k i).mp hk
    exact (hvis k hmem).1
  · intro k hk k' hk'
    exact (hvis k ((keys_matching_set pre k i).mp hk).1).2 k' (hcursor k' hk')
  · intro k hk k' hk'
    exact (hvis k ((keys_matching_set pre k i).mp hk).1).2 k' ((keys_matching_set pre k' i).mp hk').1

theorem mem_take_set (pre : String) (cursor : Option String) (cap : ℕ) (k : String)
    (hk : k ∈ ((matching K pre).filter (past cursor)).take cap) :
    k ∈ ((matching (K.filter (fun k' => place k' = place k)) pre).filter (past cursor)).take cap := by
  rw [mem_take_iff _ ((matching_sorted _ pre).filter _)] at hk ⊢
  obtain ⟨hmem,hlt⟩ := hk
  rw [List.mem_filter] at hmem
  refine ⟨List.mem_filter.mpr ⟨(keys_matching_set pre k _).mpr ⟨hmem.1,rfl⟩,hmem.2⟩,?_⟩
  apply lt_of_le_of_lt _ hlt
  apply List.Subperm.length_le
  apply List.subperm_of_subset
  · exact (((matching_sorted _ pre).filter _).filter _).imp (fun h => h.ne)
  · intro k' hk'
    simp only [List.mem_filter, keys_matching_set] at hk' ⊢
    exact ⟨⟨hk'.1.1.1,hk'.1.2⟩,hk'.2⟩

theorem mem_keys_sets (f : List Disk → List ObjectInfo) (k : String) :
    k ∈ (mergeAcrossSets ((List.ofFn disks).map f)).map ObjectInfo.key ↔
      ∃ i, k ∈ (f (disks i)).map ObjectInfo.key := by
  rw [mem_keys_mergeAcrossSets]
  simp only [List.map_ofFn, List.mem_ofFn, Function.comp_apply, exists_exists_eq_and]

theorem Placed.keys_list (h : Placed c bucket sig K place disks) {pre : String}
    (hvis : Visible K place pre) (o : VoteOrder) (cursor : Option String)
    (hcursor : ∀ k ∈ cursor, k ∈ matching K pre) (m : ℕ) (hm : 0 < m) :
    (list c o bucket pre cursor m (List.ofFn disks)).map ObjectInfo.key =
      ((matching K pre).filter (past cursor)).take (m+1) := by
  have hset := h.keys_set_of_visible hvis o cursor hcursor (m+1)
  have hn : 0 < n := Fin.pos (place "")
  rw [list, if_neg (by simp; omega)]
  simp only [if_neg hm.ne', List.map_take]
  apply take_eq_take
  · apply mergeAcrossSets_sorted
    intro s hs
    simp only [List.mem_map, List.mem_ofFn, exists_exists_eq_and] at hs
    obtain ⟨i,rfl⟩ := hs
    rw [hset]
    exact ((matching_sorted _ pre).filter _).take
  · exact (matching_sorted K pre).filter _
  · intro k hk
    obtain ⟨i,hi⟩ := (mem_keys_sets _ k).mp hk
    rw [hset] at hi
    have hmem := List.mem_filter.mp (List.mem_of_mem_take hi)
    exact List.mem_filter.mpr ⟨((keys_matching_set pre k i).mp hmem.1).1,hmem.2⟩
  · intro k hk
    rw [mem_keys_sets]
    refine ⟨place k,?_⟩
    rw [hset]
    exact mem_take_set pre cursor (m+1) k hk

end Pages

open RecordBytes WalkExact Lib.Effects

section Pages

variable {c : MetaCodec} {bucket : String} {sig : String → Signature} {K : Finset String} {n : ℕ}
  {place : String → Fin n} {disks : Fin n → List Disk}

/-- The pages from a cursor on, up to the first one without a next cursor. -/
inductive Paged (page : Option String → Page) : Option String → List ListEntry → Prop where
  | last (cursor : Option String) (h : (page cursor).next = none) :
    Paged page cursor (page cursor).entries
  | more (cursor : Option String) (next : String) (rest : List ListEntry)
    (h : (page cursor).next = some next) (hrest : Paged page (some next) rest) :
    Paged page cursor ((page cursor).entries ++ rest)

variable (infos : List ObjectInfo)

theorem byKey_of_sorted (h : (infos.map ObjectInfo.key).Pairwise (· < ·))
    : byKey infos = infos := by
  apply List.Pairwise.insertionSort_eq
  exact (List.pairwise_map.mp h).imp (fun h => h.le)

theorem flatPage_next (m : ℕ) (h : m < infos.length) :
    (flatPage infos m).next = ((infos.take m).map ObjectInfo.key).getLast? := by
  rw [List.getLast?_map]
  simp [flatPage, h]

theorem flatPage_last (m : ℕ) (h : infos.length ≤ m) :
    (flatPage infos m).next = none := by
  simp [flatPage, Nat.not_lt.mpr h]

variable (c bucket disks) in
/-- The pages of the listing under a filter, without a delimiter. -/
def pages (o : VoteOrder) (pre : String) (m : ℕ) (cursor : Option String) : Page :=
  listPage c o bucket pre none cursor m (List.ofFn disks)

theorem past_getLast (l r : List String) (h : (l ++ r).Pairwise (· < ·)) :
    (l ++ r).filter (past l.getLast?) = r := by
  rcases List.eq_nil_or_concat l with rfl | ⟨l,c,rfl⟩
  · simp [past]
  · rw [List.concat_eq_append, List.append_assoc, List.singleton_append] at h ⊢
    have hpast : past (l ++ [c]).getLast? = fun k => decide (c < k) := by
      funext k
      simp [past]
    rw [hpast]
    exact filter_above l r c h

theorem Placed.pages_from (h : Placed c bucket sig K place disks) {pre : String}
    (hvis : Visible K place pre) (o : VoteOrder) (m : ℕ) (hm : 0 < m) (l r : List String)
    (hsplit : matching K pre = l ++ r) :
    ∃ infos : List ObjectInfo, Paged (pages c bucket disks o pre m) l.getLast? (infos.map .object) ∧
      infos.map ObjectInfo.key = r := by
  induction hlen : r.length using Nat.strong_induction_on generalizing l r with
  | _ len ih =>
    have hkeys := h.keys_list hvis o l.getLast?
      (fun k hk => by rw [hsplit]; exact List.mem_append_left _ (List.mem_of_getLast? hk)) m hm
    rw [hsplit, past_getLast l r (hsplit ▸ matching_sorted K pre)] at hkeys
    generalize hinfos : list c o bucket pre l.getLast? m (List.ofFn disks) = infos at hkeys
    have hsorted : (infos.map ObjectInfo.key).Pairwise (· < ·) := by
      rw [hkeys]
      exact ((List.pairwise_append.mp (hsplit ▸ matching_sorted K pre)).2.1).take
    have hpage : pages c bucket disks o pre m l.getLast? = flatPage infos m := by
      rw [pages, listPage, hinfos, byKey_of_sorted infos hsorted]
    have hlength : infos.length = min (m+1) r.length := by
      rw [← List.length_map ObjectInfo.key, hkeys, List.length_take]
    have htake : (infos.take m).map ObjectInfo.key = r.take m := by
      rw [List.map_take, hkeys, List.take_take, Nat.min_eq_left (by omega)]
    by_cases hmore : m < r.length
    · have hnext := flatPage_next infos m (by omega)
      rw [htake, ← hpage] at hnext
      obtain ⟨next,hlast⟩ : ∃ next, (r.take m).getLast? = some next :=
        Option.isSome_iff_exists.mp (by
          rw [List.getLast?_isSome, ← List.length_pos_iff, List.length_take]; omega)
      obtain ⟨rest,hrest,hkeysRest⟩ := ih (r.drop m).length (by rw [List.length_drop]; omega)
        (l ++ r.take m) (r.drop m) (by rw [List.append_assoc, List.take_append_drop, hsplit]) rfl
      rw [List.getLast?_append, hlast, Option.some_or] at hrest
      refine ⟨infos.take m ++ rest,?_,?_⟩
      · have hpaged := Paged.more _ next _ (hnext.trans hlast) hrest
        rw [hpage] at hpaged
        rw [List.map_append]
        exact hpaged
      · rw [List.map_append, htake, hkeysRest, List.take_append_drop]
    · have hnone := flatPage_last infos m (by omega)
      rw [← hpage] at hnone
      refine ⟨infos,?_,?_⟩
      · have hpaged := Paged.last _ hnone
        rw [hpage, flatPage, List.take_of_length_le (by omega)] at hpaged
        exact hpaged
      · rw [hkeys, List.take_of_length_le (by omega)]

theorem mem_flatPage (m : ℕ) (k : String)
    (hk : k ∈ (flatPage (byKey infos) m).entries.map entryName) :
    k ∈ infos.map ObjectInfo.key := by
  simp only [flatPage, List.map_map, List.mem_map, Function.comp_apply, entryName] at hk ⊢
  obtain ⟨info,hinfo,rfl⟩ := hk
  exact ⟨info,(List.perm_insertionSort _ infos).mem_iff.mp (List.mem_of_mem_take hinfo),rfl⟩

theorem Placed.listed (h : Placed c bucket sig K place disks) (o : VoteOrder) (pre : String) (m : ℕ)
    (hm : 0 < m) (cursor : Option String) (k : String)
    (hk : k ∈ (pages c bucket disks o pre m cursor).entries.map entryName) :
    Clear (K.filter (fun k' => place k' = place k)) (segments k) ∧
      Admits (walkOptions pre cursor (some (m+1))) (segments k) := by
  have hlist := mem_flatPage _ m k hk
  have hn : 0 < n := Fin.pos (place "")
  rw [list, if_neg (by simp; omega)] at hlist
  simp only [if_neg hm.ne', List.map_take] at hlist
  obtain ⟨i,hi⟩ := (mem_keys_sets _ k).mp (List.mem_of_mem_take hlist)
  rw [h.keys_set] at hi
  obtain ⟨p,hp,rfl⟩ := List.mem_map.mp (List.mem_of_mem_take hi)
  obtain ⟨⟨k,hmem,rfl⟩,hclear,hadm⟩ := (mem_shelf _ _ p).mp hp
  obtain ⟨hkK,rfl⟩ := Finset.mem_filter.mp hmem
  rw [(h.plain hkK).joined]
  exact ⟨hclear,hadm⟩

variable {cursor : Option String} {es : List ListEntry}

theorem listed_of_paged {page : Option String → Page}
    (h : Paged page cursor es) (k : String) (hk : k ∈ es.map entryName) :
    ∃ cursor, k ∈ (page cursor).entries.map entryName := by
  induction h with
  | last cursor h => exact ⟨cursor,hk⟩
  | more cursor next rest h hrest ih =>
    rw [List.map_append, List.mem_append] at hk
    rcases hk with hk | hk
    · exact ⟨cursor,hk⟩
    · exact ih hk

/-- In pages of one entry each, every entry but the first is listed under the
cursor of the entry before it. -/
theorem chain_of_paged (o : VoteOrder) (pre : String)
    (h : Paged (pages c bucket disks o pre 1) cursor es) :
    (∀ k ∈ (es.map entryName).head?,
      k ∈ (pages c bucket disks o pre 1 cursor).entries.map entryName) ∧
    (es.map entryName).IsChain
      (fun a b => b ∈ (pages c bucket disks o pre 1 (some a)).entries.map entryName) := by
  induction h with
  | last cursor h =>
    refine ⟨fun k hk => List.mem_of_head? hk,?_⟩
    generalize hinfos : byKey (list c o bucket pre cursor 1 (List.ofFn disks)) = infos
    have hpage : pages c bucket disks o pre 1 cursor = flatPage infos 1 := by
      rw [pages, listPage, hinfos]
    rw [hpage, flatPage]
    cases infos with
    | nil => exact List.IsChain.nil
    | cons info infos => exact List.IsChain.singleton _
  | more cursor next rest h hrest ih =>
    generalize hinfos : byKey (list c o bucket pre cursor 1 (List.ofFn disks)) = infos
    have hpage : pages c bucket disks o pre 1 cursor = flatPage infos 1 := by
      rw [pages, listPage, hinfos]
    rw [hpage] at h ⊢
    cases infos with
    | nil => cases h
    | cons info infos =>
      have hnext : info.key = next := by
        rw [flatPage] at h
        split_ifs at h
        exact Option.some.inj h
      subst hnext
      exact ⟨fun k hk => by simpa [flatPage, eq_comm] using hk,List.isChain_cons.mpr ih⟩

theorem Placed.not_clash (h : Placed c bucket sig K place disks) (o : VoteOrder) (pre : String)
    (hchain : (matching K pre).IsChain
      (fun a b => b ∈ (pages c bucket disks o pre 1 (some a)).entries.map entryName))
    (k k' : String) (hk : k ∈ matching K pre) (hk' : k' ∈ matching K pre) :
    ¬Clash k' (segments k) := by
  rintro ⟨a,⟨r,hr⟩,ha0,hap,e,rest,hcont,he⟩
  have hkp := h.plain ((mem_matching K pre k).mp hk).1
  have hnames : ∀ s ∈ a, FileName s := fun s hs => hkp.names s (by rw [← hr]; simp [hs])
  have hr0 : r ≠ [] := fun h0 => hap (by rw [← hr, h0, List.append_nil])
  have hbelow : startsWith k (keyOf a ++ "/") = true := by
    rw [startsWith_iff, ← hkp.joined, ← hr, toList_keyOf_append a r hnames
      (fun s hs => hkp.names s (by rw [← hr]; simp [hs])) ha0 hr0]
    exact ⟨(keyOf r).toList,by simp⟩
  -- the first key below the directory, and the key before it
  obtain ⟨first,hfirst⟩ : ∃ first,
      (matching K pre).find? (fun k => startsWith k (keyOf a ++ "/")) = some first :=
    Option.isSome_iff_exists.mp (List.find?_isSome.mpr ⟨k,hk,hbelow⟩)
  obtain ⟨hunder,l,l',hsplit,hl⟩ := List.find?_eq_some_iff_append.mp hfirst
  obtain ⟨u,hu⟩ := (startsWith_iff _ _).mp hunder
  have hlt : k' < first := by
    rw [String.lt_iff_toList_lt, hcont, ← hu, String.toList_append, List.append_assoc,
      append_lt_append_iff]
    exact List.cons_lt_cons_iff.mpr (.inl he)
  have hsorted := matching_sorted K pre
  rw [hsplit] at hchain hsorted hk'
  have hbefore : k' ∈ l := by
    rcases List.mem_append.mp hk' with hmem | hmem
    · exact hmem
    · rcases List.mem_cons.mp hmem with rfl | hmem
      · exact absurd hlt (lt_irrefl _)
      · exact absurd hlt (lt_asymm
          ((List.pairwise_cons.mp (List.pairwise_append.mp hsorted).2.1).1 k' hmem))
  obtain ⟨l,prev,rfl⟩ : ∃ l₀ prev, l = l₀ ++ [prev] := by
    rcases List.eq_nil_or_concat l with rfl | ⟨l₀,prev,rfl⟩
    · cases hbefore
    · exact ⟨l₀,prev,List.concat_eq_append⟩
  have hprev : keyOf a < prev := by
    have hk'a : keyOf a < k' := by
      rw [String.lt_iff_toList_lt, hcont]
      have hnil := (append_lt_append_iff (keyOf a).toList [] (e::rest)).mpr (List.nil_lt_cons e rest)
      rwa [List.append_nil] at hnil
    rcases List.mem_append.mp hbefore with hmem | hmem
    · exact hk'a.trans ((List.pairwise_append.mp (List.pairwise_append.mp hsorted).1).2.2 k' hmem
        prev List.mem_cons_self)
    · exact List.mem_singleton.mp hmem ▸ hk'a
  rw [List.append_assoc, List.singleton_append, List.isChain_split, List.isChain_cons_cons]
    at hchain
  have hfirstK := h.plain ((mem_matching K pre first).mp (List.mem_of_find?_eq_some hfirst)).1
  have hunderPath : a <+: segments first :=
    prefix_of_startsWith _ a hfirstK.names hnames (by rwa [hfirstK.joined])
  obtain ⟨-,hpass,-⟩ := h.listed o pre 1 one_pos (some prev) first hchain.2.1
  have hpassed := (hpass a hunderPath ha0).1
  have hprevNot := hl prev (by simp)
  rw [Bool.not_eq_true'] at hprevNot
  rw [before_iff.mpr ⟨hprev,hprevNot⟩] at hpassed
  cases hpassed

end Pages

def pagedDisk : Disk := left (promoteKey "a/b" (left (promoteKey "a-b" emptyBucket)))

def pagedKeys : Finset String := {"a-b","a/b"}

theorem pagedDisk_stocked :
    Stocked putCodec "b" (fun _ => signature firstPut) pagedKeys pagedDisk := by
  have hnames : ∀ q ∈ paths pagedDisk, ∀ s ∈ q, FileName s := by decide +kernel
  have honly : ∀ q ∈ paths pagedDisk, q.getLast? = some metaFilename → q.tail.dropLast ≠ [] →
      keyOf q.tail.dropLast ∈ pagedKeys := by decide +kernel
  have hreads : ∀ k ∈ pagedKeys, (value (readVersion putCodec "b" k none false pagedDisk)).toOption.any
      (fun fi => signature fi = signature firstPut ∧ fi.deleted = false) = true := by decide +kernel
  refine ⟨fun q hq => hnames q (mem_paths _ q hq),by decide +kernel,fun p hp0 hp => .inl ?_,?_⟩
  · have hmem := honly _ (mem_paths _ _ hp) List.getLast?_concat
    simpa using hmem (by simpa using hp0)
  · intro k hk
    have hread := hreads k hk
    cases hv : value (readVersion putCodec "b" k none false pagedDisk) with
    | error e => simp [hv, Except.toOption] at hread
    | ok fi => exact ⟨fi,rfl,by simpa [hv, Except.toOption] using hread⟩

theorem pagedDisk_placed :
    Placed putCodec "b" (fun _ => signature firstPut) pagedKeys (fun _ => (0 : Fin 1))
      (fun _ => [pagedDisk]) := by
  refine ⟨⟨by decide +kernel,by decide +kernel⟩,fun _ => List.cons_ne_nil _ _,?_⟩
  intro i t ht
  rw [List.mem_singleton.mp ht, Finset.filter_true_of_mem (fun _ _ => Subsingleton.elim _ _)]
  exact pagedDisk_stocked

end Openlake.ListPages
