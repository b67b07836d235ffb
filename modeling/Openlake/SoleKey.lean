import Openlake.ListedKeys
import Openlake.ListedStat

/-!
# A set that holds one key

Every disk of the set has some version of the key or none, and nothing else.
The walk of a disk then reports the latest version, provided the key is spelled
as the walk spells it and no directory on its path is taken for a metadata
file, and the listing is the outcome of one vote.
-/

set_option autoImplicit false

namespace Openlake.SoleKey
open Openlake.Types XlMeta LocalFs GetObject Listing ListedKeys Consensus ConsensusVerdict StatVotes
open ListedStat Lib.Effects Lib.Merge
open Lib.FileTree hiding stat

/-- A walk can report the key: it is the path of a directory below the bucket,
and no directory above it holds a directory named like a metadata file. -/
structure Listable (key : String) : Prop where
  joined : keyOf (segments key) = key
  below : segments key ≠ []
  clear : Clear {key} (segments key)

/-- A disk with the key, at parity `p`, or without it, and nothing else. -/
structure Sole (c : MetaCodec) (bucket key : String) (p : UInt8) (t : Disk) : Prop where
  named : WellNamed t
  volume : look t [bucket] = some .dir
  file : ∀ q b, q ≠ [] → look t (bucket::q ++ [metaFilename]) = some (.file b) → q = segments key
  dir : ∀ q, q ≠ [] → look t (bucket::q ++ [metaFilename]) = some .dir →
    q ++ [metaFilename] <+: segments key
  reads : (∃ fi, value (readVersion c bucket key none false t) = .ok fi ∧
    fi.erasure.parityBlocks = p) ∨
    ∃ v k, value (readVersion c bucket key none false t) = .error (.fileNotFound v k)

section Disk

variable {c : MetaCodec} {bucket key : String} {p : UInt8} {t : Disk}

theorem Sole.file_of_found (h : Sole c bucket key p t) (q : Path) (hq : ∀ s ∈ q, FileName s)
    (hq0 : q ≠ []) (fi : FileInfo) (hfound : FoundAt c bucket t q fi) :
    q = segments key ∧ ∃ b, look t (bucket::q ++ [metaFilename]) = some (.file b) := by
  obtain ⟨bytes,hread,-⟩ := readVersion_ok c bucket _ t none false fi hfound
  rw [readFile_eq_ok, metaPath, filePath_keyOf bucket q hq] at hread
  exact ⟨h.file q bytes hq0 hread,bytes,hread⟩

theorem Sole.route_iff (h : Sole c bucket key p t) (q : Path) (hq : ∀ s ∈ q, FileName s)
    (hq0 : q ≠ []) (fi : FileInfo) :
    Route c bucket (walkOptions "" none none) t [] q fi ↔
      q = segments key ∧ Clear {key} q ∧ FoundAt c bucket t q fi := by
  have hdir : ∀ a, FoundAt c bucket t q fi → a <+: q → look t (bucket::a) = some .dir :=
    fun a hfound ha =>
      prefix_shows_dir t _ _ (look_of_found q hq fi hfound) (by simpa using ha)
  constructor
  · rintro ⟨-,henter,hfound,-⟩
    obtain ⟨hkey,b,hb⟩ := h.file_of_found q hq hq0 fi hfound
    refine ⟨hkey,fun a ha ha0 haq k hk hthrough => ?_,hfound⟩
    have hnone := henter a ha ha0 haq
    rw [List.nil_append, noRecord_iff h.volume a (fun s hs => hq s (ha.subset hs))
      (hdir a hfound ha), List.cons_append] at hnone
    rw [Finset.mem_singleton.mp hk, ← hkey] at hthrough
    rw [hdir _ hfound hthrough] at hnone
    cases hnone
  · rintro ⟨hkey,hclear,hfound⟩
    refine ⟨fun a _ _ => ⟨rfl,rfl⟩,fun a ha ha0 haq => ?_,hfound,rfl⟩
    have hnames : ∀ s ∈ a, FileName s := fun s hs => hq s (ha.subset hs)
    rw [List.nil_append, noRecord_iff h.volume a hnames (hdir a hfound ha)]
    cases hlook : look t (bucket::a ++ [metaFilename]) with
    | none => rfl
    | some kd =>
      exfalso
      cases kd with
      | file b => exact haq ((h.file a b ha0 hlook).trans hkey.symm)
      | dir => exact hclear a ha ha0 haq key (Finset.mem_singleton_self key) (h.dir a ha0 hlook)

theorem Sole.mem_visited (h : Sole c bucket key p t) (fuel : ℕ) (hfuel : Within t fuel) (q : Path)
    (fi : FileInfo) :
    (q,fi) ∈ visited c bucket (walkOptions "" none none) t fuel [] ↔
      q = segments key ∧ q ≠ [] ∧ (∀ s ∈ q, FileName s) ∧ Clear {key} q ∧
        FoundAt c bucket t q fi := by
  rw [LocalFs.mem_visited rfl h.named fuel [] (by simp) hfuel]
  constructor
  · rintro ⟨_,rfl,hq0,hq,hroute⟩
    obtain ⟨hkey,hclear,hfound⟩ := (h.route_iff _ hq hq0 fi).mp hroute
    exact ⟨hkey,hq0,hq,hclear,hfound⟩
  · rintro ⟨hkey,hq0,hq,hclear,hfound⟩
    exact ⟨q,rfl,hq0,hq,(h.route_iff q hq hq0 fi).mpr ⟨hkey,hclear,hfound⟩⟩

variable (c bucket key) in
def report (t : Disk) : Listing :=
  ((value (readVersion c bucket key none false t)).toOption.map (fun fi => (key,fi))).toList

theorem Sole.names_of_read (h : Sole c bucket key p t) (fi : FileInfo)
    (hfi : value (readVersion c bucket key none false t) = .ok fi) :
    ∀ s ∈ segments key, FileName s := by
  obtain ⟨bytes,hread,-⟩ := readVersion_ok c bucket _ t none false fi hfi
  rw [readFile_eq_ok] at hread
  intro s hs
  exact h.named _ (by rw [hread]; simp) s (by simp [metaPath, filePath, hs])

theorem Sole.reported_eq (h : Sole c bucket key p t) (hl : Listable key) (fuel : ℕ)
    (hfuel : Within t fuel) :
    reported (visited c bucket (walkOptions "" none none) t fuel []) = report c bucket key t := by
  have hmem := h.mem_visited fuel hfuel
  have hfound : ∀ fi, FoundAt c bucket t (segments key) fi ↔
      value (readVersion c bucket key none false t) = .ok fi := by
    intro fi
    rw [FoundAt, hl.joined]
  cases hv : value (readVersion c bucket key none false t) with
  | error e =>
    have hnil : visited c bucket (walkOptions "" none none) t fuel [] = [] := by
      rw [List.eq_nil_iff_forall_not_mem]
      rintro ⟨q,fi⟩ hq
      obtain ⟨rfl,-,-,-,hf⟩ := (hmem q fi).mp hq
      rw [hfound, hv] at hf
      cases hf
    rw [hnil, report, hv]
    rfl
  | ok fi =>
    have hpaths : (visited c bucket (walkOptions "" none none) t fuel []).map Prod.fst =
        [segments key] := by
      have hsorted : ((visited c bucket (walkOptions "" none none) t fuel []).map
          Prod.fst).Pairwise (· < ·) := List.pairwise_map.mpr (visited_sorted rfl fuel [])
      apply hsorted.eq_of_mem_iff (List.pairwise_singleton _ _)
      intro q
      simp only [List.mem_map, Prod.exists, exists_and_right, exists_eq_right, hmem,
        List.mem_singleton]
      constructor
      · rintro ⟨_,rfl,-⟩
        rfl
      · rintro rfl
        exact ⟨fi,rfl,hl.below,h.names_of_read fi hv,hl.clear,(hfound fi).mpr hv⟩
    obtain ⟨⟨q,fi'⟩,hone,rfl⟩ := List.map_eq_singleton_iff.mp hpaths
    have hf := ((hmem (segments key) fi').mp (by rw [hone]; exact List.mem_singleton_self _)).2.2.2.2
    rw [hfound, hv] at hf
    obtain rfl := Except.ok.inj hf
    rw [hone, report, hv, reported, List.map_singleton, hl.joined]
    rfl

theorem Sole.walk (h : Sole c bucket key p t) :
    ∃ s, value (walkDir c bucket (walkOptions "" none none) "" t) = .ok s ∧
      (∀ e ∈ s, e.2.name = e.1 ∧ (e.1 = key → Listable key)) ∧
      (Listable key → s = report c bucket key t) := by
  obtain ⟨fuel,hfuel,hwalk⟩ := walkDir_eq (c := c) (o := walkOptions "" none none) h.volume h.named
  refine ⟨_,hwalk,fun e he => ?_,fun hl => h.reported_eq hl fuel hfuel⟩
  obtain ⟨⟨q,fi⟩,hq,rfl⟩ := List.mem_map.mp (show e ∈ List.map _ _ from he)
  obtain ⟨rfl,hq0,-,hclear,hf⟩ := (h.mem_visited fuel hfuel q fi).mp hq
  exact ⟨readVersion_named c bucket _ t none false fi hf,fun hkey => ⟨hkey,hq0,hclear⟩⟩

end Disk

section Set

variable {c : MetaCodec} {bucket key : String} {p : UInt8} {disks : List Disk}

variable (c bucket key) in
def answers (disks : List Disk) : Results :=
  disks.map (fun t => value (readVersion c bucket key none false t))

theorem records_answers :
    records (answers c bucket key disks) =
      disks.filterMap (fun t => (value (readVersion c bucket key none false t)).toOption) := by
  rw [records, metasOf, answers, List.map_map, List.reduceOption, List.filterMap_map]
  rfl

theorem flatten_reports :
    (disks.map (report c bucket key)).flatten =
      (records (answers c bucket key disks)).map (fun fi => (key,fi)) := by
  rw [records_answers]
  induction disks with
  | nil => rfl
  | cons t disks ih =>
    rw [List.map_cons, List.flatten_cons, ih]
    cases hv : (value (readVersion c bucket key none false t)).toOption with
    | none => simp [report, hv]
    | some fi => simp [report, hv]

theorem electObject_key (o : VoteOrder) (quorum : ℕ) (fis : List FileInfo) :
    electObject o quorum bucket (fis.map (fun fi => (key,fi))) =
      ((voteFileinfo o fis quorum).filter (fun fi => !fi.deleted)).map (toObjectInfo bucket) := by
  have hmap : (fis.map (fun fi => (key,fi))).map Prod.snd = fis := by
    rw [List.map_map]
    exact List.map_id _
  rw [electObject, hmap, List.length_map]
  split_ifs with hlen
  · have hnone : voteFileinfo o fis quorum = none := by
      rw [voteFileinfo_none]
      intro s _
      apply lt_of_le_of_lt List.count_le_length
      rwa [List.length_map]
    rw [hnone]
    rfl
  · cases voteFileinfo o fis quorum with
    | none => rfl
    | some fi => cases hd : fi.deleted <;> simp [hd]

variable (hsole : ∀ t ∈ disks, Sole c bucket key p t) (hne : disks ≠ [])

include hsole hne

theorem listOneSet_eq (o : VoteOrder) :
    ∃ streams : List Listing,
      listOneSet c o bucket "" none none disks =
        mergeWithinSet o streams (majority disks.length) bucket ∧
      (∀ s ∈ streams, ∀ e ∈ s, e.2.name = e.1 ∧ (e.1 = key → Listable key)) ∧
      (Listable key → streams = disks.map (report c bucket key)) := by
  have hwalk := fun t ht => (hsole t ht).walk
  have hlen : (disks.filterMap (fun t =>
      (value (walkDir c bucket (walkOptions "" none none) "" t)).toOption)).length =
      disks.length := by
    rw [List.length_filterMap_eq_countP, List.countP_eq_length]
    intro t ht
    obtain ⟨s,hs,-⟩ := hwalk t ht
    simp [hs, Except.toOption]
  refine ⟨disks.filterMap (fun t =>
      (value (walkDir c bucket (walkOptions "" none none) "" t)).toOption),?_,?_,?_⟩
  · rw [listOneSet, if_neg hne]
    simp only [hlen, if_neg (show ¬disks.length < (disks.length+1)/2 by
      have := List.length_pos_iff.mpr hne; omega)]
    rfl
  · intro s hs
    obtain ⟨t,ht,hv⟩ := List.mem_filterMap.mp hs
    obtain ⟨s',hs',hrecs,-⟩ := hwalk t ht
    rw [hs'] at hv
    obtain rfl := Option.some.inj hv
    exact hrecs
  · intro hl
    rw [← List.filterMap_eq_map]
    apply List.filterMap_congr
    intro t ht
    obtain ⟨s,hs,-,hrep⟩ := hwalk t ht
    rw [hs, hrep hl]
    rfl

theorem list_of_listable (hl : Listable key) (o : VoteOrder) :
    list c o bucket "" none 0 [disks] =
      ((listed o (answers c bucket key disks)).map (toObjectInfo bucket)).toList := by
  obtain ⟨streams,heq,-,hstreams⟩ := listOneSet_eq hsole hne o
  obtain rfl := hstreams hl
  have hset : listOneSet c o bucket "" none none disks =
      ((listed o (answers c bucket key disks)).map (toObjectInfo bucket)).toList := by
    rw [heq, mergeWithinSet, merge_single key, flatten_reports, electObject_key, listed]
    · split_ifs with hnil
      · rw [List.map_eq_nil_iff] at hnil
        have hnone : voteFileinfo o (records (answers c bucket key disks))
            (majority (answers c bucket key disks).length) = none := by
          rw [voteFileinfo_none, hnil]
          simp
        rw [hnone]
        rfl
      · rw [answers, List.length_map]
    · intro s hs
      obtain ⟨t,-,rfl⟩ := List.mem_map.mp hs
      cases hv : (value (readVersion c bucket key none false t)).toOption with
      | none => exact .inl (by simp [report, hv])
      | some fi => exact .inr ⟨(key,fi),by simp [report, hv],rfl⟩
  rw [list, if_neg (by simp)]
  simp only [if_true, List.map_singleton, hset]
  cases hopt : (listed o (answers c bucket key disks)).map (toObjectInfo bucket) with
  | none => rfl
  | some info =>
    rw [mergeAcrossSets, merge_single info.key]
    · rfl
    · intro s hs
      exact .inr ⟨info,List.mem_singleton.mp hs,rfl⟩

theorem listable_of_mem (o : VoteOrder) (info : ObjectInfo)
    (hinfo : info ∈ list c o bucket "" none 0 [disks]) (hkey : info.key = key) : Listable key := by
  rw [list, if_neg (by simp)] at hinfo
  simp only [if_true, List.map_singleton] at hinfo
  have hin : key ∈ (mergeAcrossSets [listOneSet c o bucket "" none none disks]).map ObjectInfo.key :=
    List.mem_map.mpr ⟨info,hinfo,hkey⟩
  obtain ⟨s,hs,hmem⟩ := (mem_keys_mergeAcrossSets _ key).mp hin
  obtain ⟨streams,heq,hrecs,-⟩ := listOneSet_eq hsole hne o
  rw [List.mem_singleton.mp hs, heq] at hmem
  obtain ⟨info',hinfo',hkey'⟩ := List.mem_map.mp hmem
  obtain ⟨g,hg,helect⟩ := List.mem_filterMap.mp hinfo'
  rw [electObject] at helect
  split_ifs at helect
  split at helect
  · cases helect
  · rename_i fi hvote
    split_ifs at helect
    obtain rfl := Option.some.inj helect
    obtain ⟨e,he,rfl⟩ := List.mem_map.mp (voteFileinfo_some o _ _ fi hvote).1
    obtain ⟨s,hs,hes⟩ := (mem_rounds _ streams le_rfl e).mp ⟨g,hg,he⟩
    obtain ⟨hname,hl⟩ := hrecs s hs e hes
    exact hl (hname.symm.trans hkey')

end Set

end Openlake.SoleKey
