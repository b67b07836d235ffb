import Openlake.RecordBytes
import Openlake.SoleKey

/-!
# A listing against a stat

The listing and the stat of a key vote on the same records with different
quorums and different ballots. They show the same object under all iteration
orders exactly when the counts concur.
-/

set_option autoImplicit false

namespace Openlake.ListVsStat
open Openlake.Types XlMeta XlMetaRoundTrip LocalFs GetObject Promote Listing Consensus
open ConsensusVerdict ConsensusUniform StatVotes ListedStat SoleKey RecordBytes Lib.FileTree
open Lib.Effects Lib.Outcomes

variable {n : ℕ} {H : Type} [DecidableEq H]

def statLatest (o : HashOrders H) (blake3 : Bytes → H) (c : MetaCodec) (bucket key : String)
    (disks : Disks n) : Except StorageError ObjectInfo := do
  let (_,fi) ← readVersioned o blake3 c bucket key none false disks
  return toObjectInfo bucket fi

structure Entry where
  etag : String
  modifiedMs : UInt64
  versionId : String
  size : UInt64
  deriving DecidableEq

def entryOf (info : ObjectInfo) : Entry := ⟨info.etag,info.modifiedMs,info.versionId,info.size⟩

def Shows (infos : List ObjectInfo) (key : String) (e : Entry) : Prop :=
  ∃ info ∈ infos, info.key = key ∧ entryOf info = e

def Returns (r : Except StorageError ObjectInfo) (e : Entry) : Prop :=
  ∃ info, r = .ok info ∧ entryOf info = e ∧ info.isDeleteMarker = false

theorem size_of_read (c : MetaCodec) (bucket key : String) (t : Disk) (fi : FileInfo)
    (h : value (readVersion c bucket key none false t) = .ok fi) : 0 ≤ fi.size := by
  obtain ⟨bytes,-,hfrom⟩ := readVersion_ok c bucket key t none false fi h
  rw [versionFrom, bind_eq_ok] at hfrom
  obtain ⟨r,hr,hfi⟩ := hfrom
  obtain ⟨rs,hrs,hmem⟩ := pickVersion_mem c bucket key bytes none r hr
  obtain ⟨v,_,_,hv,rfl⟩ := decodeAll_mem c bytes rs hrs r hmem
  simp only [validateDecodedVersion, unit_bind_eq_ok, refuse_eq_ok] at hv
  obtain rfl := Except.ok.inj hfi
  exact Int64.not_lt.mp hv.2.1

theorem signature_of_entry (bucket : String) (a b : FileInfo) (ha : 0 ≤ a.size) (hb : 0 ≤ b.size)
    (hdel : a.deleted = b.deleted)
    (h : entryOf (toObjectInfo bucket a) = entryOf (toObjectInfo bucket b)) :
    signature a = signature b := by
  simp only [entryOf, toObjectInfo, Entry.mk.injEq] at h
  obtain ⟨hetag,hmod,hid,hsize⟩ := h
  have hmax : ∀ x : Int64, 0 ≤ x → max x 0 = x := by
    intro x hx
    show (if x ≤ 0 then 0 else x) = x
    split_ifs with h0
    · exact Int64.le_antisymm hx h0
    · rfl
  rw [hmax _ ha, hmax _ hb] at hsize
  have hsizes : a.size = b.size := congrArg Int64.ofUInt64 hsize
  rw [signature, signature, hetag, hmod, hid, hdel, hsizes]

theorem entry_of_signature (bucket : String) (a b : FileInfo) (h : signature a = signature b) :
    entryOf (toObjectInfo bucket a) = entryOf (toObjectInfo bucket b) := by
  simp only [signature, Signature.mk.injEq] at h
  obtain ⟨hetag,hmod,hid,hsize,-⟩ := h
  simp only [entryOf, toObjectInfo, hetag, hmod, hid, hsize]

section Set

variable {c : MetaCodec} {bucket key : String} {d p : UInt8} {disks : Disks n}

theorem probes_eq : probes c bucket key none false disks = answers c bucket key (List.ofFn disks) := by
  rw [probes, answers, List.map_ofFn]
  rfl

theorem size_of_record (fi : FileInfo)
    (h : fi ∈ records (probes c bucket key none false disks)) : 0 ≤ fi.size := by
  rw [mem_records, probes, List.mem_ofFn] at h
  obtain ⟨i,hi⟩ := h
  exact size_of_read c bucket key _ fi hi

theorem geometry_of_sole (hn : n = d.toNat+p.toNat) (hp : 1 ≤ p.toNat) (hle : p.toNat ≤ d.toNat)
    (hsole : ∀ i, Sole c bucket key p (disks i)) :
    Geometry d p (probes c bucket key none false disks) := by
  refine ⟨by rw [probes, List.length_ofFn, hn],hp,hle,?_,?_⟩
  · intro e he
    rw [probes, List.mem_ofFn] at he
    obtain ⟨i,hi⟩ := he
    rcases (hsole i).reads with ⟨fi,hfi,-⟩ | ⟨v,k,hv⟩
    · rw [hfi] at hi
      cases hi
    · exact ⟨v,k,(Except.error.inj (hv.symm.trans hi)).symm⟩
  · intro fi hfi
    rw [mem_records, probes, List.mem_ofFn] at hfi
    obtain ⟨i,hi⟩ := hfi
    obtain ⟨bytes,-,hv⟩ := readVersion_ok c bucket key _ none false fi hi
    obtain ⟨-,h2,h3,h4,h5,h6,-⟩ := versionFrom_erasure c bucket key bytes none false fi hv
    refine ⟨by simp [erasureIsValid, h2, h3, h4, h5, h6],?_⟩
    rcases (hsole i).reads with ⟨fi',hfi',hpar⟩ | ⟨v,k,hv⟩
    · obtain rfl := Except.ok.inj (hfi'.symm.trans hi)
      exact hpar
    · rw [hv] at hi
      cases hi

theorem shows_iff (hsole : ∀ i, Sole c bucket key p (disks i)) (hn : 0 < n) (o : VoteOrder)
    (e : Entry) :
    Shows (list c o bucket "" none 0 [List.ofFn disks]) key e ↔
      Listable key ∧ ∃ fi, listed o (probes c bucket key none false disks) = some fi ∧
        entryOf (toObjectInfo bucket fi) = e := by
  have hall : ∀ t ∈ List.ofFn disks, Sole c bucket key p t := by
    intro t ht
    obtain ⟨i,rfl⟩ := List.mem_ofFn.mp ht
    exact hsole i
  have hne : List.ofFn disks ≠ [] := by simp; omega
  constructor
  · rintro ⟨info,hinfo,hkey,rfl⟩
    have hl := listable_of_mem hall hne o info hinfo hkey
    rw [list_of_listable hall hne hl, Option.mem_toList, Option.map_eq_some_iff] at hinfo
    obtain ⟨fi,hfi,rfl⟩ := hinfo
    exact ⟨hl,fi,by rw [probes_eq]; exact hfi,rfl⟩
  · rintro ⟨hl,fi,hfi,rfl⟩
    refine ⟨toObjectInfo bucket fi,?_,?_,rfl⟩
    · rw [list_of_listable hall hne hl, ← probes_eq, hfi]
      exact List.mem_singleton_self _
    · rw [listed, Option.filter_eq_some_iff] at hfi
      have hmem := (voteFileinfo_some o _ _ fi hfi.1).1
      rw [mem_records, probes, List.mem_ofFn] at hmem
      obtain ⟨i,hi⟩ := hmem
      exact readVersion_named c bucket key _ none false fi hi

theorem returns_iff (o : HashOrders H) (blake3 : Bytes → H) (e : Entry) :
    Returns (statLatest o blake3 c bucket key disks) e ↔
      ∃ fi, stated o blake3 bucket key (probes c bucket key none false disks) = some fi ∧
        entryOf (toObjectInfo bucket fi) = e := by
  simp only [stated_eq_some, statLatest, readVersioned, Returns]
  cases readWithConsensus o blake3 bucket key (probes c bucket key none false disks) with
  | error err =>
    constructor
    · rintro ⟨info,hinfo,-⟩
      cases hinfo
    · rintro ⟨fi,⟨i,hi,-⟩,-⟩
      cases hi
  | ok w =>
    constructor
    · rintro ⟨info,hinfo,he,hlive⟩
      obtain rfl := Except.ok.inj hinfo
      exact ⟨w.2,⟨w.1,rfl,hlive⟩,he⟩
    · rintro ⟨fi,⟨i,hi,hlive⟩,he⟩
      obtain rfl := Except.ok.inj hi
      exact ⟨_,rfl,he,hlive⟩

theorem listed_record (o : VoteOrder) (fi : FileInfo)
    (h : listed o (probes c bucket key none false disks) = some fi) :
    0 ≤ fi.size ∧ fi.deleted = false := by
  have hlive := (held_of_listed o fi h).2
  rw [listed, Option.filter_eq_some_iff] at h
  exact ⟨size_of_record fi (voteFileinfo_some o _ _ fi h.1).1,hlive⟩

theorem stated_record (o : HashOrders H) (blake3 : Bytes → H) (fi : FileInfo)
    (h : stated o blake3 bucket key (probes c bucket key none false disks) = some fi) :
    0 ≤ fi.size ∧ fi.deleted = false := by
  obtain ⟨i,hread,hlive⟩ := (stated_eq_some o blake3 bucket key fi).mp h
  obtain ⟨-,q,e,h,-,-,hhead⟩ := read_ok_head o blake3 bucket key _ _ hread
  exact ⟨size_of_record fi (mem_votersOf blake3 e h _ (List.mem_of_head? hhead)).2,hlive⟩

theorem entries_iff_alike (hsole : ∀ i, Sole c bucket key p (disks i)) (hn : 0 < n)
    (blake3 : Bytes → H) :
    (∀ (ol : VoteOrder) (os : HashOrders H) (e : Entry),
      Shows (list c ol bucket "" none 0 [List.ofFn disks]) key e ↔
        Returns (statLatest os blake3 c bucket key disks) e) ↔
      Alike blake3 bucket key (probes c bucket key none false disks) (Listable key) := by
  simp only [shows_iff hsole hn, returns_iff]
  constructor
  · intro hent ol os s
    constructor
    · rintro ⟨hl,hlist⟩
      obtain ⟨fi,hfi,rfl⟩ := Option.map_eq_some_iff.mp hlist
      obtain ⟨fi',hfi',he⟩ := (hent ol os _).mp ⟨hl,fi,hfi,rfl⟩
      obtain ⟨hsize,hlive⟩ := listed_record ol fi hfi
      obtain ⟨hsize',hlive'⟩ := stated_record os blake3 fi' hfi'
      rw [hfi', Option.map_some, signature_of_entry bucket fi' fi hsize' hsize
        (hlive'.trans hlive.symm) he]
    · intro hstat
      obtain ⟨fi,hfi,rfl⟩ := Option.map_eq_some_iff.mp hstat
      obtain ⟨hl,fi',hfi',he⟩ := (hent ol os _).mpr ⟨fi,hfi,rfl⟩
      obtain ⟨hsize,hlive⟩ := stated_record os blake3 fi hfi
      obtain ⟨hsize',hlive'⟩ := listed_record ol fi' hfi'
      refine ⟨hl,?_⟩
      rw [hfi', Option.map_some, signature_of_entry bucket fi' fi hsize' hsize
        (hlive'.trans hlive.symm) he]
  · intro hal ol os e
    constructor
    · rintro ⟨hl,fi,hfi,rfl⟩
      have hstat := (hal ol os (signature fi)).mp ⟨hl,by rw [hfi, Option.map_some]⟩
      obtain ⟨fi',hfi',hsig⟩ := Option.map_eq_some_iff.mp hstat
      exact ⟨fi',hfi',entry_of_signature bucket fi' fi hsig⟩
    · rintro ⟨fi,hfi,rfl⟩
      obtain ⟨hl,hlist⟩ := (hal ol os (signature fi)).mpr (by rw [hfi, Option.map_some])
      obtain ⟨fi',hfi',hsig⟩ := Option.map_eq_some_iff.mp hlist
      exact ⟨hl,fi',hfi',entry_of_signature bucket fi' fi hsig⟩

/-- A key is listed with the values that a stat returns, under all iteration
orders, exactly when the counts of its records concur. -/
theorem list_stat_iff (hn : n = d.toNat+p.toNat) (hp : 1 ≤ p.toNat) (hle : p.toNat ≤ d.toNat)
    (hsole : ∀ i, Sole c bucket key p (disks i)) (blake3 : Bytes → H) :
    (∀ (ol : VoteOrder) (os : HashOrders H) (e : Entry),
      Shows (list c ol bucket "" none 0 [List.ofFn disks]) key e ↔
        Returns (statLatest os blake3 c bucket key disks) e) ↔
      Concurs blake3 p (probes c bucket key none false disks) (Listable key) := by
  rw [entries_iff_alike hsole (by omega)]
  exact alike_iff (geometry_of_sole hn hp hle hsole) blake3 bucket key (Listable key)

end Set

def halfDisks : Disks 2 := ![storedFirst,emptyBucket]

theorem sole_of_paths (t : Disk) (hnames : ∀ q ∈ paths t, ∀ s ∈ q, FileName s)
    (hvol : look t ["b"] = some .dir)
    (honly : ∀ q ∈ paths t, q.getLast? = some metaFilename → q.tail.dropLast ≠ [] →
      q.tail.dropLast = ["k"] ∧ look t q ≠ some .dir)
    (hreads : (∃ fi, value (readVersion putCodec "b" "k" none false t) = .ok fi ∧
      fi.erasure.parityBlocks = 1) ∨
      ∃ v k, value (readVersion putCodec "b" "k" none false t) = .error (.fileNotFound v k)) :
    Sole putCodec "b" "k" 1 t := by
  have hmeta : ∀ q, q ≠ [] → look t ("b"::q ++ [metaFilename]) ≠ none →
      q = ["k"] ∧ look t ("b"::q ++ [metaFilename]) ≠ some .dir := by
    intro q hq0 hq
    have h := honly _ (mem_paths t _ hq) List.getLast?_concat
    simpa using h (by simpa using hq0)
  refine ⟨fun q hq => hnames q (mem_paths t q hq),hvol,?_,?_,hreads⟩
  · intro q b hq0 hb
    rw [(hmeta q hq0 (by rw [hb]; simp)).1]
    decide +kernel
  · intro q hq0 hd
    exact absurd hd (hmeta q hq0 (by rw [hd]; simp)).2

theorem halfDisks_sole (i : Fin 2) : Sole putCodec "b" "k" 1 (halfDisks i) := by
  have hread : (value (readVersion putCodec "b" "k" none false storedFirst)).toOption.map
      (fun fi => fi.erasure.parityBlocks) = some 1 := by decide +kernel
  have hnone : value (readVersion putCodec "b" "k" none false emptyBucket) =
      .error (.fileNotFound "b" "k") := by decide +kernel
  match i with
  | 0 =>
    apply sole_of_paths storedFirst (by decide +kernel) (by decide +kernel) (by decide +kernel)
    cases hv : value (readVersion putCodec "b" "k" none false storedFirst) with
    | error e => simp [hv, Except.toOption] at hread
    | ok fi => exact .inl ⟨fi,rfl,by simpa [hv, Except.toOption] using hread⟩
  | 1 =>
    apply sole_of_paths emptyBucket (by decide +kernel) (by decide +kernel) (by decide +kernel)
    exact .inr ⟨_,_,hnone⟩

theorem halfDisks_list_stat :
    (∀ i, Sole putCodec "b" "k" 1 (halfDisks i)) ∧
    ((∀ (ol : VoteOrder) (os : HashOrders Bytes) (e : Entry),
      Shows (list putCodec ol "b" "" none 0 [List.ofFn halfDisks]) "k" e ↔
        Returns (statLatest os id putCodec "b" "k" halfDisks) e) ↔
      Concurs (id : Bytes → Bytes) 1 (probes putCodec "b" "k" none false halfDisks) (Listable "k")) :=
  ⟨halfDisks_sole,list_stat_iff (show 2 = UInt8.toNat 1+UInt8.toNat 1 by decide) (by decide)
    (by decide) halfDisks_sole id⟩

/-- A key on one of two disks is listed, and a stat does not find it. -/
theorem halfDisks_listed_not_found :
    (∀ i, Sole putCodec "b" "k" 1 (halfDisks i)) ∧
    ¬∀ (ol : VoteOrder) (os : HashOrders Bytes) (e : Entry),
      Shows (list putCodec ol "b" "" none 0 [List.ofFn halfDisks]) "k" e ↔
        Returns (statLatest os id putCodec "b" "k" halfDisks) e := by
  refine ⟨halfDisks_sole,fun h => ?_⟩
  have hlist : (list putCodec (.insertion _) "b" "" none 0 [List.ofFn halfDisks]).map
      (fun info => (info.key,entryOf info)) =
      [("k",⟨"0cc175b9c0f1b6a831c399e269772661",1,"11111111-1111-4111-8111-111111111111",1⟩)] := by
    decide +kernel
  have hstat : (statLatest ⟨.insertion _,.insertion _,.insertion _,.insertion _⟩ (id : Bytes → Bytes)
      putCodec "b" "k" halfDisks).toOption = none := by
    decide +kernel
  obtain ⟨info,hinfo,hpair⟩ := List.map_eq_singleton_iff.mp hlist
  obtain ⟨hkey,hentry⟩ := Prod.mk.inj hpair
  obtain ⟨info',hok,-⟩ := (h _ ⟨.insertion _,.insertion _,.insertion _,.insertion _⟩ _).mp
    ⟨info,by rw [hinfo]; exact List.mem_singleton_self _,hkey,hentry⟩
  rw [hok] at hstat
  cases hstat

end Openlake.ListVsStat
