import Openlake.CompletedParts
import Openlake.ErasureGeometry
import Openlake.SetRecords
import Openlake.VerifiedUploads

/-!
# Reading what a put stored

A put that returns has promoted its record on every disk of the set, and the
shards of a large object with it. If what the disks held before is older, every
disk then reads the new record, the votes agree on it, and the stream that a GET
opens yields the bytes the put took from its source.
-/

set_option autoImplicit false

namespace Openlake.PutThenGet
open Openlake.Types XlMeta XlMetaRoundTrip LocalFs Promote Ops Records Ec Consensus ConsensusVerdict
open ConsensusUniform VersionList VersionHistory GetObject StripeReader Multipart PartFiles
open PartAttempt PartEncoding PutObject HeldParts RangedRead Completion CompletedParts Lib.FileTree
open Lib.Effects Lib.FanOut Lib.Chunks Lib.Outcomes
open StoredBytes hiding stored

section Disk

variable {c : MetaCodec} {bucket key : String} {existing : List DecodedRecord}

theorem head_merged {m : Int32} {fi : FileInfo}
    (h : ∀ r ∈ existing, r.modTimeMs < fi.modTimeMs) :
    (merged m fi bucket key existing).head? = some (recordOf m (stored fi)) := by
  have hsorted := List.pairwise_insertionSort
    (fun a b : DecodedRecord => b.modTimeMs ≤ a.modTimeMs)
    (kept m fi bucket key existing ++ [recordOf m (stored fi)])
  have hmem : ∀ r, r ∈ merged m fi bucket key existing ↔
      r ∈ kept m fi bucket key existing ∨ r = recordOf m (stored fi) := by
    simp [merged, newestRecordFirst]
  have hkept : ∀ r ∈ kept m fi bucket key existing, r.modTimeMs < fi.modTimeMs := by
    intro r hr
    obtain ⟨s,hs,rfl⟩ := List.mem_map.mp hr
    exact h s (List.mem_of_mem_filter hs)
  cases hl : merged m fi bucket key existing with
  | nil =>
    have := (hmem (recordOf m (stored fi))).mpr (.inr rfl)
    rw [hl] at this
    cases this
  | cons a l =>
    rw [hl] at hmem
    rcases (hmem a).mp List.mem_cons_self with ha | rfl
    · rcases List.mem_cons.mp ((hmem _).mpr (.inr rfl)) with heq | hin
      · exact congrArg some heq.symm
      · have hle : fi.modTimeMs ≤ a.modTimeMs := by
          rw [show List.insertionSort _ _ = _ from hl] at hsorted
          exact (List.pairwise_cons.mp hsorted).1 _ hin
        exact absurd (hkept a ha) (UInt64.not_lt.mpr hle)
    · rfl

theorem encoded_bounds {versions : List FileInfo} {bytes : Bytes}
    (h : encodeVersions c versions = .ok bytes) :
    ∃ body, encodeBody c versions = .ok body ∧ body.length ≤ bytes.length ∧
      (inlineTail versions).length ≤ bytes.length := by
  obtain ⟨body,hbody,h⟩ := bind_eq_ok.mp h
  obtain rfl := Except.ok.inj h
  refine ⟨body,hbody,?_,?_⟩ <;> simp only [frame, List.length_append] <;> omega

/-- A promoted record that is newer than the others is what the disk reads. -/
theorem reads_promoted {fi : FileInfo} {encoded : Bytes} {t : Disk}
    (henc : encodeVersions c (mergeVersions fi bucket key existing) = .ok encoded)
    (hlen : encoded.length < 2^32) (hfile : look t (metaPath bucket key) = some (.file encoded))
    (hold : ∀ r ∈ existing, r.modTimeMs < fi.modTimeMs) :
    ∃ m, value (readVersion c bucket key none true t) =
      .ok (fileInfoFromRecord (recordOf m (stored fi)) bucket key) := by
  obtain ⟨body,hbody,hle,htail⟩ := encoded_bounds henc
  have hdec := decodeAll_encodeVersions c _ body encoded hbody henc (by omega) (by omega)
  rw [newestRecordFirst_mergeVersions] at hdec
  exact ⟨_,readVersion_latest ((readFile_eq_ok t _ _).mpr hfile) hdec (head_merged hold)⟩

end Disk

section Put

variable {n : ℕ} {c : MetaCodec} {md5 : Bytes → Bytes} {rs : ReedSolomon} {bucket key : String}
  {u : PutCall n} {disks s d : Disks n} {info : ObjectInfo} {fi : FileInfo}

/-- What the commit of a put finds and leaves on a disk. -/
structure Landed (c : MetaCodec) (bucket key : String) (u : PutCall n) (fi : FileInfo)
    (t t' : Disk) : Prop where
  file : ∃ existing encoded, encodeVersions c (mergeVersions fi bucket key existing) = .ok encoded ∧
    look t' (metaPath bucket key) = some (.file encoded) ∧
    ∀ r ∈ existing, ∃ raw rs, look t (metaPath bucket key) = some (.file raw) ∧
      decodeAll c raw = .ok rs ∧ r ∈ rs
  moved : ∀ x k, fi.dataDir ≠ "" →
    look t (filePath stagingVol u.stagingId ++ [fi.dataDir,x]) = some k →
      look t' (filePath bucket key ++ [fi.dataDir,x]) = some k

theorem commit_landed (hvol : stagingVol ≠ bucket)
    (h : (u.commit c bucket key fi).run s = .ok () d) (i : Fin n) :
    Landed c bucket key u (indexed fi u.erasure i) (s i) (d i) := by
  rw [PutCall.commit, Prog.run_bind, run_bind_eq_ok] at h
  obtain ⟨_,s',hfence,h⟩ := h
  rw [Prog.run_ofExcept, Lib.Effects.lift_eq_ok] at hfence
  obtain ⟨-,rfl⟩ := hfence
  rw [run_promoteOp] at h
  obtain ⟨-,old,t,hok,hd⟩ := promoteVersions_ok c _ _ _ _ _ _ _ _ h i
  obtain ⟨raw,existing,encoded,hp,hswept⟩ := promotion_swept c bucket key hvol hok
  rw [← hd] at hswept
  constructor
  · refine ⟨existing,encoded,hp.encodes,?_,fun r hr => ?_⟩
    · have hshows := hp.shows (metaPath bucket key) (apart_cons hvol _ _)
      rw [if_pos rfl] at hshows
      exact (hswept _ [] (.inr rfl)).trans hshows
    · rcases priorVersions_ok c bucket key _ raw existing hp.prior with
        ⟨-,rfl,-⟩ | ⟨bytes,-,hdec,hread⟩
      · cases hr
      · exact ⟨bytes,existing,(readFile_eq_ok _ _ _).mp hread,hdec,hr⟩
  · intro x k hne (hk : look (s i) (filePath stagingVol u.stagingId ++ [fi.dataDir,x]) = some k)
    have hdir : isDir (s i) (filePath stagingVol u.stagingId ++ [fi.dataDir]) := by
      rw [isDir_iff]
      exact look_above _ _ [] x k (by simpa using hk)
    have hlen : ∀ y, filePath bucket key ++ [fi.dataDir,x] ≠ filePath bucket key ++ [y] := by
      simp
    have hshows := hp.shows (filePath bucket key ++ [fi.dataDir,x]) (apart_cons hvol _ _)
    rw [metaPath, if_neg (hlen _), if_neg (fun hb => hlen _ hb.1),
      if_pos ⟨by simp [indexed],hne,hdir⟩] at hshows
    rw [hswept _ _ (.inl rfl)]
    refine hshows.trans ?_
    simpa [indexed] using hk

theorem Landed.encodable {t t' : Disk} (h : Landed c bucket key u fi t t') : Encodable fi := by
  obtain ⟨existing,encoded,henc,-⟩ := h.file
  obtain ⟨body,hbody,-⟩ := encoded_bounds henc
  exact (encodeBody_eq_ok c _ body hbody).2.1 fi ((List.mem_insertionSort _).mpr (by simp))

theorem Landed.volume {t t' : Disk} (h : Landed c bucket key u fi t t') :
    look t' [bucket] = some .dir := by
  obtain ⟨existing,encoded,-,hfile,-⟩ := h.file
  exact prefix_shows_dir _ _ _ (look_above _ _ [] metaFilename _ hfile) (by simp [filePath])

theorem keeps_onDisks {α : Type} (I : Disk → Prop) (faults : Fin n → Option IoError)
    (call : Fin n → Fs α) (h : ∀ i, Keeps I (call i)) (i : Fin n) :
    Keeps (fun disks : Disks n => I (disks i)) (onDisks faults call).run := by
  constructor
  intro disks hi
  show I (left (attempt (faults i) (call i) (disks i)))
  cases faults i with
  | none => exact (h i).kept _ hi
  | some e => exact hi

theorem stagePart_keeps (hvol : stagingVol ≠ bucket) (v : PartUpload n) (ec : Erasure) (i : Fin n)
    (k : Option (Kind Bytes)) :
    Keeps (fun disks : Disks n => look (disks i) (metaPath bucket key) = k)
      (stagePart md5 rs bucket v ec).run := by
  have hoff : ∀ r, ¬metaPath bucket key <+: stagingVol::r := fun r hpre =>
    hvol (List.cons_prefix_cons.mp hpre).1.symm
  have hne : metaPath bucket key ≠ filePath stagingVol v.tmpPath := fun he =>
    hoff (segments v.tmpPath) (he ▸ List.prefix_refl (filePath stagingVol v.tmpPath))
  have hpure : ∀ {α : Type} (x : Except StorageError α),
      Keeps (fun disks : Disks n => look (disks i) (metaPath bucket key) = k)
        (Prog.ofExcept x : Op n α).run := keeps_lift
  have hfan := fun faults (call : Fin n → Fs Unit) h =>
    keeps_onDisks (fun t => look t (metaPath bucket key) = k) faults call h i
  rw [stagePart, Prog.run_bind]
  refine keeps_bind (hfan _ _ fun _ => ?_) fun opened _ _ _ => ?_
  · rw [createFileWriter]
    refine keeps_bind (keeps_requireVol _ k _ (hoff _)) fun _ _ _ _ =>
      keeps_bind (keeps_createDirs _ k _ ?_) fun _ _ _ _ => keeps_change fun t t' ht h => ?_
    · intro hpre
      exact hoff _ (hpre.trans (List.dropLast_prefix _))
    · rw [mapError_eq_ok] at h
      rw [look_writeFile [] t t' _ h, if_neg hne, ht]
  rw [Prog.run_bind]
  refine keeps_bind (hpure _) fun _ _ _ _ => ?_
  rw [Prog.run_bind]
  refine keeps_bind (hpure _) fun r _ _ _ => ?_
  rw [Prog.run_bind]
  refine keeps_bind (hfan _ _ fun _ => ?_) fun finished _ _ _ => ?_
  · exact keeps_bind (keeps_lift _) fun _ _ _ _ => keeps_overwrite _ k _ _ hne
  rw [Prog.run_bind]
  exact keeps_bind (hpure _) fun _ _ _ _ => hpure (.ok r.1)

/-- The record as a disk with `m` versions of the key reads it. -/
def found (bucket key : String) (u : PutCall n) (fi : FileInfo) (m : Int32) (i : ℕ) : FileInfo :=
  fileInfoFromRecord (recordOf m (stored (indexed fi u.erasure i))) bucket key

theorem found_valid {t : Disk} {m : Int32} {i : ℕ}
    (h : value (readVersion c bucket key none true t) = .ok (found bucket key u fi m i)) :
    erasureIsValid (found bucket key u fi m i).erasure := by
  obtain ⟨bytes,-,hv⟩ := readVersion_ok c bucket key _ none true _ h
  obtain ⟨-,h2,h3,h4,h5,h6,-⟩ := versionFrom_erasure c bucket key bytes none true _ hv
  simp [erasureIsValid, h2, h3, h4, h5, h6]

/-- Some disks are blank, the others are as they were. -/
structure Replaced (bucket : String) (lost : Fin n → Bool) (d e : Disks n) : Prop where
  kept : ∀ i, lost i = false → e i = d i
  blank : ∀ i, lost i = true → look (e i) [bucket] = none

def lostOn (lost : Fin n → Bool) : ℕ := (List.finRange n).countP lost

theorem left_of_lost (lost : Fin n → Bool) :
    (List.finRange n).countP (fun i => lost i = false) = n-lostOn lost := by
  have hsplit := List.length_eq_countP_add_countP lost (l := List.finRange n)
  simp only [List.length_finRange, Bool.not_eq_true] at hsplit
  rw [lostOn]
  omega

theorem blank_requireVol (hname : isSystemVol bucket = false) {t : Disk}
    (ht : look t [bucket] = none) : ∃ err t', requireVol bucket t = .error err t' := by
  cases hv : requireVol bucket t with
  | error err t' => exact ⟨err,t',rfl⟩
  | ok v t' =>
    rw [(Leftovers.requireVol_user hname t).mp ⟨v,t',hv⟩] at ht
    cases ht

theorem length_ballots_le (results : Results) :
    (errorBallots results).length+(records results).length ≤ results.length := by
  have hsplit : (errsOf results).reduceOption.length+(records results).length =
      results.length := by
    induction results with
    | nil => rfl
    | cons x results ih =>
      cases x <;> simp [errsOf, records, metasOf, Except.toOption] at ih ⊢ <;> omega
  have hle := List.length_filter_le (fun e => !livenessNoise e) (errsOf results).reduceOption
  rw [errorBallots, List.length_map, votingErrors]
  omega

section Votes

variable {H : Type} [DecidableEq H] (o : HashOrders H) (blake3 : Bytes → H)
  {reads : Fin n → Except IoError FileInfo} {lost : Fin n → Bool}

/-- Disks that read the record of one put outvote those that fail. -/
theorem read_agreed (hn : 0 < n) (h255 : n ≤ 255) (hcount : lostOn lost ≤ u.parityShards)
    (hparity : u.parityShards ≤ n) (hhalf : lostOn lost < half n) {etag : String}
    (hne : etag ≠ "") (hetag : etagOf fi = some etag)
    (hvalid : ∀ i m, reads i = .ok (found bucket key u fi m i) →
      erasureIsValid (found bucket key u fi m i).erasure)
    (hreads : ∀ i, lost i = false → ∃ m, reads i = .ok (found bucket key u fi m i))
    (hfails : ∀ i, lost i = true → ∃ err, reads i = .error err) :
    ∃ (i : Fin n) (m : Int32), readWithConsensus o blake3 bucket key (List.ofFn reads) =
      .ok (i.val,found bucket key u fi m i) := by
  choose! m hm using hreads
  rw [half] at hhalf
  have hlen : (List.ofFn reads).length = n := List.length_ofFn
  have hok : ∀ i r, reads i = .ok r → r = found bucket key u fi (m i) i := by
    intro i r hr
    cases hi : lost i with
    | false => exact Except.ok.inj (hr.symm.trans (hm i hi))
    | true =>
      obtain ⟨err,herr⟩ := hfails i hi
      rw [herr] at hr
      cases hr
  have hu : Uniform blake3 (List.ofFn reads)
      (parityVote n (found bucket key u fi 0 0)) etag
      (decodeContractHash blake3 (found bucket key u fi 0 0)) := by
    refine ⟨hne,fun r hr => ?_,fun r hr => ?_,fun r hr => ?_,fun r hr => ?_⟩ <;>
      obtain ⟨i,hi⟩ := List.mem_ofFn.mp hr <;> obtain rfl := hok i r hi
    · exact hvalid i _ hi
    · rw [hlen]
      rfl
    · exact hetag
    · rfl
  have hrecords : (records (List.ofFn reads)).length = n-lostOn lost := by
    rw [← left_of_lost, records, metasOf, List.ofFn_eq_map, List.map_map, List.reduceOption,
      List.filterMap_map, List.length_filterMap_eq_countP]
    apply List.countP_congr
    intro i _
    cases hi : lost i with
    | false => simp [hm i hi, Except.toOption]
    | true =>
      obtain ⟨err,herr⟩ := hfails i hi
      simp [herr, Except.toOption]
  have hgate : ¬Gated (List.ofFn reads) := by
    rintro ⟨t,ht⟩
    have hle := length_ballots_le (List.ofFn reads)
    have hcast := List.count_le_length (a := t) (l := errorBallots (List.ofFn reads))
    rw [hlen, hrecords] at hle
    rw [hlen, half] at ht
    omega
  have hquorum : readQuorum n (parityVote n (found bucket key u fi 0 0)) ≤ n-lostOn lost := by
    have hvote : lostOn lost ≤ (parityVote n (found bucket key u fi 0 0)).toNat ∧
        (parityVote n (found bucket key u fi 0 0)).toNat ≤ n := by
      rw [parityVote]
      split_ifs
      · rw [ErasureGeometry.toNat_ofNat_le h255 (Nat.div_le_self n 2)]
        omega
      · show _ ≤ (UInt8.ofNat u.parityShards).toNat ∧ (UInt8.ofNat u.parityShards).toNat ≤ n
        rw [ErasureGeometry.toNat_ofNat_le h255 hparity]
        exact ⟨hcount,hparity⟩
    rw [readQuorum, if_pos hvote.2]
    exact Nat.sub_le_sub_left hvote.1 n
  obtain ⟨⟨i,r⟩,hr⟩ := Option.isSome_iff_exists.mp
    ((served_isSome (List.ofFn reads)).mpr (by omega))
  have hi := served_mem _ i r hr
  have hin : i < n := by
    rw [← hlen]
    exact (List.getElem?_eq_some_iff.mp hi).1
  rw [List.getElem?_ofFn, dif_pos hin] at hi
  obtain rfl := hok _ r (Option.some.inj hi)
  exact ⟨⟨i,hin⟩,m ⟨i,hin⟩,(hu.readWithConsensus_eq_ok o bucket key _).mpr
    ⟨hgate,by rw [hlen, hrecords]; exact hquorum,hr⟩⟩

end Votes

theorem hexLower_ne {bytes : Bytes} (h : bytes ≠ []) : VersionIds.hexLower bytes ≠ "" := by
  intro he
  obtain ⟨b,rest,rfl⟩ := List.exists_cons_of_ne_nil h
  have := congrArg String.toList he
  simp [VersionIds.hexLower, VersionIds.hexByte] at this

section Record

variable {versionId : String} {m : Int32} {i : ℕ}
  (h : Written md5 rs bucket key u versionId disks s info fi)

include h

/-- Staging leaves the metadata alone. -/
theorem metadata_kept (hvol : stagingVol ≠ bucket) (i : Fin n) :
    look (s i) (metaPath bucket key) = look (disks i) (metaPath bucket key) := by
  cases h with
  | inline => rfl
  | striped hlarge ec etag s hec hstage =>
    have hkeeps : look (left ((stagePart md5 rs bucket u.part ec).run disks) i)
        (metaPath bucket key) = look (disks i) (metaPath bucket key) :=
      (stagePart_keeps hvol u.part ec i _).kept disks rfl
    rw [hstage] at hkeeps
    exact hkeeps

theorem recorded_etag : etagOf fi = some info.etag ∧
    BTreeMap.get contentTypeMetaKey fi.metadata = u.contentType := by
  have hmeta : fi.metadata = u.contentType.elim (BTreeMap.insert etagMetaKey info.etag [])
      (fun ct => BTreeMap.insert contentTypeMetaKey ct
        (BTreeMap.insert etagMetaKey info.etag [])) := by cases h <;> rfl
  have hlt : contentTypeMetaKey < etagMetaKey := by decide
  have hkeys : contentTypeMetaKey ≠ etagMetaKey := by decide
  rw [etagOf, hmeta]
  cases u.contentType <;> simp [BTreeMap.insert, BTreeMap.get, hlt, hkeys, hkeys.symm]

theorem recorded_size : fi.size = Int64.ofNat u.size.toNat := by cases h <;> rfl

/-- A GET reports what the put reported, but for the storage class of an empty object. -/
theorem reported_info (hsize : 0 ≤ fi.size)
    (hid : respell VersionIds.formatVersionIdBytes "version_id" versionId = versionId)
    (hlong : u.size.toNat ≤ (contents u.src).length) :
    toObjectInfo bucket (found bucket key u fi m i) =
      { info with storageClass := if u.size = 0 then .single else info.storageClass } := by
  obtain ⟨hetag,htype⟩ := recorded_etag h
  have hfields : fi.versionId = versionId ∧ fi.modTimeMs = u.modTimeMs ∧ fi.deleted = false := by
    cases h <;> exact ⟨rfl,rfl,rfl⟩
  obtain ⟨hversion,htime,hlive⟩ := hfields
  have hmax : (max fi.size 0).toUInt64 = u.size := by
    rw [show max fi.size 0 = if fi.size ≤ 0 then 0 else fi.size from rfl]
    split_ifs with hle
    · rw [Int64.le_antisymm hsize hle, recorded_size h]
      exact UInt64.ofNat_toNat
    · rw [recorded_size h]
      exact UInt64.ofNat_toNat
  have hclass : (if (found bucket key u fi m i).data.isSome then StorageClass.inline else .single) =
      if u.size = 0 then .single else info.storageClass := by
    cases h with
    | striped => exact (ite_self _).symm
    | inline hsmall frames etag hdrain =>
      have hempty : frames.flatten = [] ↔ u.size = 0 := by
        rw [← List.length_eq_zero_iff, (drainInlinePayload_inv hdrain).2.1,
          List.length_take_of_le hlong, ← UInt64.toNat_inj, UInt64.toNat_zero]
      show (if (if frames.flatten = [] then none else some [frames.flatten]).isSome then _
        else _) = _
      by_cases hz : u.size = 0
      · rw [if_pos (hempty.mpr hz), if_pos hz]
        rfl
      · rw [if_neg (fun he => hz (hempty.mp he)), if_neg hz]
        rfl
  have hinfo : info = u.info bucket key info.etag versionId info.storageClass := by cases h <;> rfl
  rw [toObjectInfo, hclass, show etagOf (found bucket key u fi m i) = _ from hetag, hinfo]
  simp only [found, fileInfoFromRecord, recordOf, stored, indexed, hmax, htype, hversion, hid,
    htime, hlive, Option.getD_some, PutCall.info]

section Opening

variable {e : Disks n} {lost : Fin n → Bool} (hn : 0 < n)
  (hland : ∀ i : Fin n, Landed c bucket key u (indexed fi u.erasure i) (s i) (d i))
  (hname : isSystemVol bucket = false) (hrep : Replaced bucket lost d e)
  (hcount : lostOn lost ≤ u.parityShards) (h255 : n ≤ 255) (hparity : u.parityShards ≤ n)
  (hmds : ¬u.size.toNat ≤ u.inlineThreshold → ∀ ec : Erasure,
    Erasure.new (n-u.parityShards) u.parityShards = .ok ec → Mds rs ec defaultEcPerShardBytes)
  (hdir : ∃ id, u.dataDir = VersionIds.formatDataDirBytes id)

include hn hland hname hrep hcount h255 hparity hmds hdir

/-- The disks that are left hold the object of a put: in the record, or in the shards that moved
with it. -/
theorem put_holds (hne : payload u.part ≠ []) (hpos : fi.size > 0) :
    Holds rs bucket key e (found bucket key u fi m i) (payload u.part) := by
  cases h with
  | inline hsmall frames etag hdrain =>
    refine .inline [payload u.part] ?_ (by simpa only [List.forall_mem_singleton] using hne)
      List.flatten_singleton
    show (if frames.flatten = [] then none else some [frames.flatten]) = _
    rw [(drainInlinePayload_inv hdrain).2.1]
    exact if_neg hne
  | striped hlarge ec etag s hec hstage =>
    obtain ⟨sinks,henc,hstaged⟩ := stagePart_ok md5 rs bucket u.part ec _ _ _ hstage
    obtain ⟨hdata,hpar⟩ := dataShards_of_new hec
    have htotal : n = ec.total := by
      rw [Erasure.total, hdata, hpar]
      omega
    have hsome : u.dataDir ≠ "" := (hland ⟨0,hn⟩).encodable.dataDir rfl hpos rfl
    obtain ⟨id,hid⟩ := hdir
    have hdd : FileName u.dataDir := by
      rw [hid, VersionIds.formatDataDirBytes] at hsome ⊢
      split_ifs at hsome ⊢
      · exact absurd rfl hsome
      · exact fileName_formatUuidHex id
    have hfile : ∀ j, fileAt bucket (partPath key u.dataDir 1) (e j) =
        if lost j then none else some (shardOn sinks j) := by
      intro j
      by_cases hl : lost j
      · obtain ⟨err,t',herr⟩ := blank_requireVol hname (hrep.blank j hl)
        rw [if_pos hl, fileAt, herr]
        rfl
      have hj := hstaged j
      rw [PartUpload.tmpPath, filePath_child _ _ _ (fileName_partName _),
        show u.part.stagingId = u.stagingId ++ "/" ++ u.dataDir from rfl, filePath_child _ _ _ hdd,
        List.append_assoc] at hj
      rw [if_neg hl, hrep.kept j (by simpa using hl), fileAt_eq _ _ _ _ (hland j).volume,
        show (1 : Int32) = Int32.ofNat (1 : UInt32).toNat from rfl,
        filePath_partPath _ _ _ hdd _ (by decide)]
      exact (hland j).moved (partName 1) _ hsome hj
    have hheld : PartHeld rs bucket key u.dataDir e ec defaultEcPerShardBytes
        (u.part.info ec etag) (payload u.part) := by
      refine partHeld_of_files henc (hmds hlarge ec hec) htotal (fun j bytes hb => ?_) ?_
      · have hb := (hfile j).symm.trans hb
        split_ifs at hb
        exact (Option.some.inj hb).symm
      · have hfiles : (List.finRange n).countP (fun j => lost j = false) ≤ (List.ofFn (fun j =>
            fileAt bucket (partPath key u.dataDir 1) (e j))).countP Option.isSome := by
          rw [List.ofFn_eq_map, List.countP_map]
          refine List.countP_mono_left fun j _ hj => ?_
          simp_all
        rw [left_of_lost] at hfiles
        rw [hdata]
        exact (Nat.sub_le_sub_left hcount n).trans hfiles
    have hspell : respell VersionIds.formatDataDirBytes "data_dir" u.dataDir = u.dataDir := by
      rw [hid, respell_dataDir]
    refine .striped rfl ec defaultEcPerShardBytes htotal (by decide) (by decide) ?_ ?_ ?_ ?_ [_] ?_
      List.flatten_singleton
    · rw [hdata]
      exact ErasureGeometry.toNat_ofNat_le h255 (Nat.sub_le _ _)
    · rw [hpar]
      exact ErasureGeometry.toNat_ofNat_le h255 hparity
    · rw [hdata]
      exact ErasureGeometry.blockSize_eq u h255
    · exact fun he => hsome (hspell.symm.trans he)
    · show List.Forall₂ (PartHeld rs bucket key (respell _ _ u.dataDir) e ec _) [_] [_]
      rw [hspell]
      exact .cons hheld .nil

theorem found_opens (hlong : u.size.toNat ≤ (contents u.src).length) :
    ∃ stream, openObject bucket key e (found bucket key u fi m i) none =
        .ok (toObjectInfo bucket (found bucket key u fi m i),none,stream) ∧
      Drains (ObjectStream.step rs) stream (payload u.part) none := by
  have hsize : (found bucket key u fi m i).size.toUInt64.toNat = u.size.toNat := by
    show fi.size.toUInt64.toNat = _
    rw [recorded_size h]
    exact congrArg UInt64.toNat UInt64.ofNat_toNat
  by_cases hz : u.size = 0
  · have hinline : hasInline (found bucket key u fi m i) = false := by
      cases h with
      | striped => rfl
      | inline hsmall frames etag hdrain =>
        show Option.any _ (if frames.flatten = [] then none else some [frames.flatten]) = false
        rw [(drainInlinePayload_inv hdrain).2.1, hz, UInt64.toNat_zero, if_pos List.take_zero]
        rfl
    have hzero : (found bucket key u fi m i).size = 0 := by
      show fi.size = 0
      rw [recorded_size h, hz]
      rfl
    refine ⟨.whole (.rope []),?_,by rw [payload, PutCall.part, hz]; exact .done _ rfl⟩
    simp only [openObject, openBody, hinline, hzero]
    rfl
  · have hlen : (payload u.part).length = u.size.toNat := List.length_take_of_le hlong
    have hne : payload u.part ≠ [] := fun he => hz (UInt64.toNat_inj.mp (by rw [← hlen, he]; rfl))
    have hpos : fi.size > 0 := by
      apply Int64.lt_of_le_of_ne (hland ⟨0,hn⟩).encodable.size
      intro he
      rw [show (found bucket key u fi m i).size = 0 from he.symm] at hsize
      exact hz (UInt64.toNat_inj.mp hsize.symm)
    exact (put_holds h hn hland hname hrep hcount h255 hparity hmds hdir hne hpos).opens rs bucket
      key e (hsize.trans hlen.symm) hne none (by simp) (by simp)

end Opening

end Record

end Put

section Sample

open VerifiedUploads StripeRoundTrip RecordBytes ConsensusTolerance SetRecords

/-- The put of `quadPut`. -/
def namedPut : PutCall 4 :=
  { bytePut [.ok [97]] with
    parityShards := 2
    freshVersionId := VersionIds.nullVersionId
    create := fun _ => none
    writeAll := fun _ _ => none
    finish := fun _ => none
    rename := fun _ => none
    cleanup := fun _ => none }

def namedInfo : ObjectInfo :=
  namedPut.info "b" "k" "0cc175b9c0f1b6a831c399e269772661" VersionIds.nullVersionId .inline

def digestOfA (_ : Bytes) : Bytes :=
  [12,193,117,185,192,241,182,168,49,195,153,226,105,119,38,97]

def namedRun : EStateM.Result StorageError (Disks 4) ObjectInfo :=
  (put quadCodec digestOfA mirror "b" "k" namedPut).run (fun _ => emptyBucket)

def isFirst (i : Fin 4) : Bool := i.val = 0

def withoutFirst : Disks 4 := fun i => if isFirst i then .dir [] else left namedRun i

end Sample

end Openlake.PutThenGet
