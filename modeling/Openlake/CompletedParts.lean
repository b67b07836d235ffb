import Openlake.ClearedParts
import Openlake.CompletionOutcome
import Openlake.PartPairing

/-!
# Parts of a completed object

A completed object has the files of the session. As long as each attempt clears
what is left of the one before, its parts can be read. An attempt that stops
after its deletes can leave a sidecar with no shard, and a completion goes by
the sidecar.
-/

set_option autoImplicit false

namespace Openlake.CompletedParts
open Openlake.Types XlMeta LocalFs Promote Ec GetObject StripeWriter StripeReader Multipart
open PartFiles PartAttempt PartEncoding Sessions PartRuns Records HeldParts Completion ClearedParts
open CompletionReads CompletionOutcome PartPairing RecordBytes StripeRoundTrip PartStaged Leftovers
open Lib.FileTree Lib.Effects Lib.Chunks

section Files

variable {n : ℕ} {sidecars : Rmp ObjectPartInfo} {md5 : Bytes → Bytes} {rs : ReedSolomon}
  {bucket key session : String} {sk : SessionKey}

theorem fileAt_eq (bucket path : String) (t : Disk) (bytes : Bytes)
    (hvol : look t [bucket] = some .dir) :
    fileAt bucket path t = some bytes ↔ look t (filePath bucket path) = some (.file bytes) := by
  obtain ⟨s,hs,hsame⟩ := requireVol_of_dir bucket t hvol
  rw [← hsame, look]
  simp only [fileAt, hs, value, left, stat]
  cases get s (filePath bucket path) with
  | none => simp
  | some node => cases node <;> simp [kind]

theorem toString_number (a : UInt32) (ha : a.toNat ≤ 10000) :
    toString (Int32.ofNat a.toNat) = toString a := by
  have hint : (Int32.ofNat a.toNat).toInt = (a.toNat : ℤ) := by
    rw [Int32.toInt_ofNat_of_lt (by omega)]
  show toString (Int32.ofNat a.toNat).toInt = toString a.toNat
  rw [hint]
  rfl

theorem filePath_partPath (bucket key dataDir : String) (hdd : FileName dataDir) (a : UInt32)
    (ha : a.toNat ≤ 10000) :
    filePath bucket (partPath key dataDir (Int32.ofNat a.toNat)) =
      filePath bucket key ++ [dataDir,partName a] := by
  have hpath : partPath key dataDir (Int32.ofNat a.toNat) =
      key ++ "/" ++ dataDir ++ "/" ++ partName a := by
    rw [partPath, toString_number a ha, partName, show ("/part." : String) = "/" ++ "part." by decide]
    simp only [String.append_assoc]
  rw [hpath, filePath_child _ _ _ (fileName_partName a), filePath_child _ _ _ hdd]
  simp

variable {a : UInt32}

theorem inRange_le (h : checkPartNumber a = .ok ()) : a.toNat ≤ 10000 := by
  rw [checkPartNumber] at h
  split_ifs at h with hbad
  have : ¬10000 < a := fun hlt => hbad (.inr hlt)
  simpa [UInt32.lt_iff_toNat_lt] using this

variable {ec : Erasure}

theorem dataShards_of_new {d p : ℕ} (h : Erasure.new d p = .ok ec) :
    ec.dataShards = d ∧ ec.parityShards = p := by
  rw [Erasure.new] at h
  split_ifs at h
  obtain rfl := Except.ok.inj h
  exact ⟨rfl,rfl⟩

variable {sinks : List (PartSink n)}

theorem shardOn_column {cols : List Bytes}
    (h : sinks.map PartSink.written = cols) (hlen : cols.length = n) (i : Fin n) :
    cols[i.val]? = some (shardOn sinks i) := by
  subst h
  rw [List.length_map] at hlen
  rw [shardOn, List.getElem?_map, List.getElem?_eq_getElem (by rw [hlen]; exact i.isLt)]
  rfl

variable {u : PartUpload n}

theorem partHeld_of_files {d : Disks n} {etag dataDir : String}
    (henc : u.encode md5 rs ec = .ok (etag,sinks))
    (hmds : Mds rs ec defaultEcPerShardBytes) (hn : n = ec.total)
    (hfile : ∀ i bytes, fileAt bucket (partPath key dataDir (u.info ec etag).number) (d i) =
      some bytes → bytes = shardOn sinks i)
    (henough : ec.dataShards ≤ (List.ofFn (fun i => fileAt bucket
      (partPath key dataDir (u.info ec etag).number) (d i))).countP Option.isSome) :
    PartHeld rs bucket key dataDir d ec defaultEcPerShardBytes (u.info ec etag) (payload u) := by
  obtain ⟨hsize,-,ws,hws,hcols⟩ := encode_inv md5 rs u ec hmds hn etag sinks henc
  have hcount : (columns ec.total ws).length = n := by
    rw [length_columns _ _ (codewords_total rs ec _ _ ws hws), hn]
  refine ⟨?_,⟨ws,hws,fun i bytes hb => ?_⟩,henough⟩
  · show (Int64.ofNat u.size.toNat).toUInt64.toNat = _
    rw [hsize]
    exact congrArg UInt64.toNat UInt64.ofNat_toNat
  · rw [hfile i bytes hb]
    exact shardOn_column hcols hcount i

theorem partHeld_of_heldBy {disks d : Disks n}
    {etag : String}
    (h : HeldBy sidecars md5 rs session sk disks a u ec etag sinks)
    (hmds : Mds rs ec defaultEcPerShardBytes) (hn : n = ec.total) (hdd : FileName sk.dataDir)
    (hvol : ∀ i, look (d i) [bucket] = some .dir)
    (hmoved : ∀ i, look (d i) (filePath bucket key ++ [sk.dataDir,partName a]) =
      look (disks i) (partsDir session sk.dataDir ++ [partName a])) :
    PartHeld rs bucket key sk.dataDir d ec defaultEcPerShardBytes (u.info ec etag) (payload u) := by
  have hfile : ∀ i bytes, fileAt bucket (partPath key sk.dataDir (u.info ec etag).number) (d i) =
      some bytes ↔ look (disks i) (partsDir session sk.dataDir ++ [partName a]) =
        some (.file bytes) := by
    intro i bytes
    have hnumber : (u.info ec etag).number = Int32.ofNat a.toNat := by rw [← h.number]; rfl
    rw [fileAt_eq _ _ _ _ (hvol i), hnumber, filePath_partPath _ _ _ hdd _ (inRange_le h.inRange),
      hmoved]
  refine partHeld_of_files h.encoded hmds hn (fun i bytes hb => ?_) ?_
  · rw [hfile] at hb
    rcases h.part i with hnone | hshard
    · rw [hnone] at hb
      cases hb
    · rw [hshard] at hb
      cases hb
      rfl
  · rw [(dataShards_of_new h.code).1, List.ofFn_eq_map, List.countP_map]
    apply h.enough.trans
    apply List.countP_mono_left
    intro i _ hi
    rw [decide_eq_true_eq, ← hfile] at hi
    simp [hi]

end Files

section Completed

variable {n : ℕ} {c : MetaCodec} {sidecars : Rmp ObjectPartInfo} {md5 : Bytes → Bytes}
  {rs : ReedSolomon} {bucket key uploadId : String} {sk : SessionKey}

theorem exists_held {P : CompletePart → ObjectPartInfo → Prop} {Q : CompletePart → PartUpload n → Prop}
    {R : PartUpload n → Prop} {f : PartUpload n → ObjectPartInfo} {parts : List CompletePart}
    {infos : List ObjectPartInfo} (h : List.Forall₂ P parts infos)
    (hP : ∀ p info, P p info → ∃ u, Q p u ∧ info = f u ∧ R u) :
    ∃ held, List.Forall₂ Q parts held ∧ infos = held.map f ∧ ∀ u ∈ held, R u := by
  induction h with
  | nil => exact ⟨[],.nil,rfl,by simp⟩
  | cons hp _ ih =>
    obtain ⟨u,hQ,rfl,hR⟩ := hP _ _ hp
    obtain ⟨held,hheld,rfl,hall⟩ := ih
    exact ⟨u::held,.cons hQ hheld,rfl,by simpa using ⟨hR,hall⟩⟩

/-- If every attempt clears what is left of its part, each part of a completed
object is held by the attempt whose record it carries, and the object can be
read. -/
theorem completed_parts_read {start disks d : Disks n} {us : List (PartUpload n)} {ec : Erasure}
    {info : ObjectInfo} {call : CompleteCall n}
    (hec : Erasure.new sk.dataBlocks.toNat sk.parityBlocks.toNat = .ok ec) (hn : n = ec.total)
    (hmds : Mds rs ec defaultEcPerShardBytes)
    (hmaj : Majority c (sessionPath bucket key uploadId) sk start)
    (hfresh : ∀ i, Fresh (partsDir (sessionPath bucket key uploadId) sk.dataDir) (start i))
    (hnew : ∀ i, look (start i) (filePath bucket key ++ [sk.dataDir]) = none)
    (hrun : Attempts c sidecars md5 rs bucket key uploadId
      (Clears (sessionPath bucket key uploadId) sk) start us disks)
    (hok : (completeMultipartUpload c sidecars md5 bucket key uploadId call).run disks = .ok info d) :
    ∃ (held : List (PartUpload n)) (infos : List ObjectPartInfo) (fi : FileInfo) (digests : Bytes),
      List.Forall₂ (fun p u => u ∈ us ∧ u.partNumber = p.partNumber) call.parts held ∧
      infos = held.map (fun u => u.info ec (VersionIds.hexLower (md5 (payload u)))) ∧
      (∀ i, ∃ existing encoded,
        encodeVersions c (mergeVersions (assembledOn md5 bucket key call fi infos digests i) bucket
          key existing) = .ok encoded ∧ look (d i) (metaPath bucket key) = some (.file encoded)) ∧
      List.Forall₂ (PartHeld rs bucket key sk.dataDir d ec defaultEcPerShardBytes) infos
        (held.map payload) ∧
      Drains (MultiPartEcStream.step rs)
        (stripedFrom bucket key sk.dataDir d ec defaultEcPerShardBytes infos 0)
        (held.map payload).flatten none := by
  have hwhole := whole_attempts c sidecars md5 rs bucket key uploadId sk hmaj hfresh hrun
  obtain ⟨hmaj',-⟩ := hrun.session hmaj fun i => (hfresh i).roomy
  obtain ⟨s,fi,infos,digests,hdone⟩ := complete_ok c sidecars md5 bucket key uploadId call disks d
    info hok
  have hkey : sessionKey fi = sk := hmaj'.unique c hdone.majority
  have hdir : fi.dataDir = sk.dataDir := by rw [← hkey]; rfl
  have hdd : FileName sk.dataDir := hdir ▸ hdone.majority.fileName c hdone.dataDir
  have hvol : ∀ i, look (d i) [bucket] = some .dir := by
    intro i
    obtain ⟨_,encoded,-,hfile⟩ := hdone.recorded i
    exact prefix_shows_dir _ _ _ (look_above _ _ [] metaFilename _ hfile) (by simp [filePath])
  have hmoved : ∀ i a, look (d i) (filePath bucket key ++ [sk.dataDir,partName a]) =
      look (disks i) (partsDir (sessionPath bucket key uploadId) sk.dataDir ++ [partName a]) := by
    intro i a
    have hkept := attempts_keep_bucket (validName_user bucket hdone.bucketName) hrun hmaj
      (fun i => (hfresh i).roomy) (segments key ++ [sk.dataDir]) i
    have := hdone.moved i (partName a) (fun p _ => partName_ne_metaName a p.partNumber)
      (by rw [hdir]; exact hkept.trans (hnew i))
    rwa [hdir] at this
  obtain ⟨held,hheld,rfl,hall⟩ := exists_held (n := n)
    (Q := fun p u => u ∈ us ∧ u.partNumber = p.partNumber)
    (R := fun u => PartHeld rs bucket key sk.dataDir d ec defaultEcPerShardBytes
      (u.info ec (VersionIds.hexLower (md5 (payload u)))) (payload u))
    (f := fun u => u.info ec (VersionIds.hexLower (md5 (payload u)))) hdone.sidecars (by
      rintro p info ⟨i,bytes,hbytes,hdec⟩
      rw [hdir] at hbytes
      obtain ⟨u,hu,ec',etag,sinks,hby⟩ := hwhole p.partNumber i (by rw [hbytes]; simp)
      obtain rfl : ec = ec' := Except.ok.inj (hec.symm.trans hby.code)
      obtain ⟨-,hetag,-⟩ := encode_inv md5 rs u ec hmds hn etag sinks hby.encoded
      refine ⟨u,⟨hu,hby.number⟩,?_,?_⟩
      · rw [hby.sidecar i bytes hbytes, hetag] at hdec
        exact (Except.ok.inj hdec).symm
      · rw [← hetag]
        exact partHeld_of_heldBy hby hmds hn hdd hvol fun i => hmoved i _)
  have hparts : List.Forall₂ (PartHeld rs bucket key sk.dataDir d ec defaultEcPerShardBytes)
      (held.map (fun u => u.info ec (VersionIds.hexLower (md5 (payload u))))) (held.map payload) := by
    rw [List.forall₂_map_left_iff, List.forall₂_map_right_iff, List.forall₂_same]
    exact hall
  exact ⟨held,_,fi,digests,hheld,rfl,hdone.recorded,hparts,parts_drain hn (by decide) _ _ hparts⟩

end Completed

def finalCall : CompleteCall 2 where
  parts := [⟨1,"d4"⟩]
  modTimeMs := 3
  lock := .ok ()
  fence := .ok ()
  renameFaults _ := none

def foundFi : FileInfo := { sampleFi 0 with fresh := false, numVersions := 1 }

def finalFi (i : Fin 2) : FileInfo :=
  assembledOn sampleMd5 "bkt" "k" finalCall foundFi [firstTry.info mirrorCode "d4"] [212] i

def finalTable : List (List VersionRecord) :=
  [recordsOf [sampleFi 0],recordsOf [sampleFi 1]] ++ List.ofFn (fun i => recordsOf [finalFi i])

theorem finalTable_injective :
    ∀ a ∈ finalTable, ∀ b ∈ finalTable, onDiskMeta a = onDiskMeta b → a = b := by
  decide +kernel

def finalCodec : MetaCodec := tableCodec finalTable Lib.Xxh64.xxh64 finalTable_injective

/-- A session for an object of an empty bucket, on two disks. -/
def started : Disks 2 :=
  left ((createMultipartUpload finalCodec "bkt" "k" sampleCall).run
    (fun _ => .dir [("bkt",.dir [])]))

theorem started_evaluated :
    2 ≤ ((List.ofFn started).filterMap (keyOn finalCodec "bkt/k/up")).count sampleKey ∧
    agreed finalCodec "bkt/k/up" started = some foundFi ∧
    ∀ i, (encodeVersions finalCodec (mergeVersions (finalFi i) "bkt" "k" [])).toOption.isSome ∧
      (fileOf (look (started i) (metaPath multipartVol "bkt/k/up"))).isSome ∧
      look (started i) (filePath multipartVol "bkt/k/up") = some .dir ∧
      look (started i) (partsDir "bkt/k/up" sampleKey.dataDir) = none ∧
      look (started i) [] = some .dir ∧ look (started i) [stagingVol] = none ∧
      look (started i) ["bkt"] = some .dir ∧ look (started i) ["bkt","k"] = none := by
  decide +kernel

theorem started_fresh (i : Fin 2) : Fresh (partsDir "bkt/k/up" sampleKey.dataDir) (started i) := by
  obtain ⟨-,-,hdir,hnone,-⟩ := started_evaluated.2.2 i
  exact fresh_of_absent _ _ _ hdir hnone

theorem started_new (i : Fin 2) :
    look (started i) (filePath "bkt" "k" ++ [sampleKey.dataDir]) = none := by
  obtain ⟨-,-,-,-,-,-,-,hnone⟩ := started_evaluated.2.2 i
  exact look_below_none (started i) ["bkt","k"] hnone [sampleKey.dataDir]

theorem started_ready (u : PartUpload 2) (i : Fin 2) : Ready u (started i) := by
  obtain ⟨-,-,-,-,hroot,hvol,-⟩ := started_evaluated.2.2 i
  exact ready_of_unstaged u _ hroot hvol

def oneSidecar : Bytes := partBlock (firstTry.info mirrorCode "d4")

theorem final_completable {ok : PartUpload 2 → Disks 2 → Prop} {us : List (PartUpload 2)}
    {disks : Disks 2} (hrun : Attempts finalCodec sampleSidecars sampleMd5 mirror "bkt" "k" "up" ok
      started us disks)
    (hside : look (disks 0) (partsDir "bkt/k/up" sampleKey.dataDir ++ [metaName 1]) =
      some (.file oneSidecar)) :
    Completable finalCodec sampleSidecars sampleMd5 "bkt" "k" "up" finalCall disks foundFi
      [firstTry.info mirrorCode "d4"] [212] := by
  have hroom : ∀ i, Roomy (partsDir (sessionPath "bkt" "k" "up") sampleKey.dataDir) (started i) :=
    fun i => (started_fresh i).roomy
  have hbucket := attempts_keep_bucket (by decide) hrun started_evaluated.1 hroom
  have hmeta := attempts_keep hrun started_evaluated.1 hroom
    (metaPath multipartVol (sessionPath "bkt" "k" "up")) (fun id => off_metaPath _ _ id (by decide))
    (fun x => by simp [metaPath, partsDir])
  have hinfo : partInfo sampleSidecars "bkt/k/up" foundFi.dataDir disks ⟨1,"d4"⟩ =
      some (firstTry.info mirrorCode "d4") := by
    have hfirst : sidecarOn "bkt/k/up" foundFi.dataDir 1 (disks 0) = some oneSidecar :=
      congrArg fileOf hside
    have hdecode : (sampleSidecars.decode oneSidecar).toOption =
        some (firstTry.info mirrorCode "d4") := by
      decide +kernel
    rw [partInfo, List.ofFn_succ, List.filterMap_cons_some hfirst]
    exact hdecode
  refine ⟨⟨by decide +kernel,by decide,rfl,(agreed_congr hmeta).trans started_evaluated.2.1,by decide,
    .cons hinfo .nil,by decide +kernel⟩,rfl,fun _ => rfl,fun i => ?_⟩
  obtain ⟨hencodes,hfile,-,-,hroot,-,hvol,hkey⟩ := started_evaluated.2.2 i
  obtain ⟨encoded,hencoded⟩ := Option.isSome_iff_exists.mp hencodes
  obtain ⟨raw,hraw⟩ := Option.isSome_iff_exists.mp hfile
  have hraw' : look (disks i) (filePath multipartVol (sessionPath "bkt" "k" "up") ++
      [metaFilename]) = some (.file raw) := (hmeta i).trans ((fileOf_eq_some _ _).mp hraw)
  have hnone : look (disks i) ["bkt","k"] = none := (hbucket ["k"] i).trans hkey
  have hdir : look (disks i) ["bkt"] = some .dir := (hbucket [] i).trans hvol
  have hway : Passable (disks i) ["bkt","k"] := by
    intro q hq
    rcases List.prefix_concat_iff.mp (show q <+: ["bkt"] ++ ["k"] from hq) with rfl | hq
    · exact .inl hnone
    · exact .inr (prefix_shows_dir _ _ q hdir hq)
  have hencoded' : encodeVersions finalCodec (mergeVersions (finalFi i) "bkt" "k" []) =
      .ok encoded := by
    cases he : encodeVersions finalCodec (mergeVersions (finalFi i) "bkt" "k" []) with
    | error e => rw [he] at hencoded; cases hencoded
    | ok b => rw [he] at hencoded; exact congrArg _ (Option.some.inj hencoded)
  exact ⟨none,[],encoded,renamable_new (look_above _ _ [] metaFilename _ hraw')
    (by rw [hraw']; simp) hdir hway hnone hencoded'⟩

def uploadedOnce : Disks 2 :=
  left ((uploadPart finalCodec sampleSidecars sampleMd5 mirror "bkt" "k" "up" firstTry).run started)

theorem firstTry_committed : ∃ sinks, Committed "bkt/k/up" sampleKey firstTry mirrorCode "d4" sinks
    oneSidecar started ((uploadPart finalCodec sampleSidecars sampleMd5 mirror "bkt" "k" "up"
      firstTry).run started) :=
  byteUpload_committed finalCodec "one" noFaults started (by decide)
    ⟨fun _ => rfl,fun _ => rfl,fun _ _ => rfl,fun _ => rfl,rfl⟩ (started_ready _)
    started_evaluated.1 fun i => (started_fresh i).roomy

theorem uploadedOnce_sidecar (i : Fin 2) :
    look (uploadedOnce i) (partsDir "bkt/k/up" sampleKey.dataDir ++ [metaName 1]) =
      some (.file oneSidecar) := by
  obtain ⟨sinks,h⟩ := firstTry_committed
  have hmeta := (h.renewed i).metaEntry
  rw [if_pos ⟨fun _ => rfl,rfl,rfl⟩] at hmeta
  exact hmeta

theorem firstTry_read :
    (∀ i, Fresh (partsDir "bkt/k/up" sampleKey.dataDir) (started i)) ∧
    ∃ info d infos, (completeMultipartUpload finalCodec sampleSidecars sampleMd5 "bkt" "k" "up"
        finalCall).run uploadedOnce = .ok info d ∧
      Drains (MultiPartEcStream.step mirror) (stripedFrom "bkt" "k" sampleKey.dataDir d mirrorCode
        defaultEcPerShardBytes infos 0) [7] none := by
  have hrun : Attempts finalCodec sampleSidecars sampleMd5 mirror "bkt" "k" "up"
      (Clears "bkt/k/up" sampleKey) started [firstTry] uploadedOnce :=
    .next firstTry .start (by decide) ⟨fun i => .inl ((started_fresh i).empty _),
      fun _ => ⟨fun i => .inl ((started_fresh i).empty _),by decide⟩⟩
  obtain ⟨d,hd⟩ := (complete_ok_iff finalCodec sampleSidecars sampleMd5 "bkt" "k" "up" finalCall
    uploadedOnce _).mpr ⟨_,_,_,final_completable hrun (uploadedOnce_sidecar 0),rfl⟩
  obtain ⟨held,infos,_,_,hheld,-,-,-,hdrains⟩ := @completed_parts_read 2 finalCodec sampleSidecars
    sampleMd5 mirror "bkt" "k" "up" sampleKey started uploadedOnce d [firstTry] mirrorCode _ finalCall
    rfl rfl (mirror_mds _) started_evaluated.1 started_fresh started_new hrun hd
  obtain ⟨u,rest,⟨hu,-⟩,hrest,rfl⟩ := List.forall₂_cons_left_iff.mp hheld
  obtain rfl := List.forall₂_nil_left_iff.mp hrest
  obtain rfl := List.mem_singleton.mp hu
  have hbyte : ([firstTry].map payload).flatten = [7] := by decide +kernel
  rw [hbyte] at hdrains
  exact ⟨started_fresh,_,d,infos,hd,hdrains⟩

/-- The second attempt fails and leaves a sidecar and no shard of the part; the
completion succeeds. -/
theorem secondTry_lost :
    Majority finalCodec "bkt/k/up" sampleKey started ∧
    (∀ i, Fresh (partsDir "bkt/k/up" sampleKey.dataDir) (started i)) ∧
    ∃ disks info d, Attempts finalCodec sampleSidecars sampleMd5 mirror "bkt" "k" "up"
        (fun _ _ => True) started [firstTry,secondTry] disks ∧
      (completeMultipartUpload finalCodec sampleSidecars sampleMd5 "bkt" "k" "up" finalCall).run
        disks = .ok info d ∧
      ∀ i, look (d i) (filePath "bkt" "k" ++ [sampleKey.dataDir,partName 1]) = none := by
  have hrun₁ : Attempts finalCodec sampleSidecars sampleMd5 mirror "bkt" "k" "up"
      (fun _ _ => True) started [firstTry] uploadedOnce := .next firstTry .start (by decide) trivial
  obtain ⟨sinks₁,hfirst⟩ := firstTry_committed
  obtain ⟨hmaj,hroom⟩ := hrun₁.session started_evaluated.1 fun i => (started_fresh i).roomy
  obtain ⟨sinks₂,hsecond⟩ := byteUpload_committed finalCodec "two" halfDone uploadedOnce (by decide)
    ⟨fun _ => rfl,fun _ => rfl,fun _ _ => rfl,fun _ => rfl,rfl⟩
    (ready_next hfirst (by decide) (started_ready _)) hmaj hroom
  have hrun₂ : Attempts finalCodec sampleSidecars sampleMd5 mirror "bkt" "k" "up"
      (fun _ _ => True) started [firstTry,secondTry] _ := .next secondTry hrun₁ (by decide) trivial
  have hmeta := (hsecond.renewed 0).metaEntry
  rw [if_neg (by decide), if_neg (by decide)] at hmeta
  obtain ⟨d,hd⟩ := (complete_ok_iff finalCodec sampleSidecars sampleMd5 "bkt" "k" "up" finalCall
    _ _).mpr ⟨_,_,_,final_completable hrun₂ (hmeta.trans (uploadedOnce_sidecar 0)),rfl⟩
  refine ⟨started_evaluated.1,started_fresh,_,_,d,hrun₂,hd,fun i => ?_⟩
  obtain ⟨s,fi,infos,digests,hdone⟩ := complete_ok finalCodec sampleSidecars sampleMd5 "bkt" "k" "up"
    finalCall _ d _ hd
  obtain ⟨hmaj',-⟩ := hrun₂.session started_evaluated.1 fun i => (started_fresh i).roomy
  have hkey : sessionKey fi = sampleKey := hmaj'.unique finalCodec hdone.majority
  have hdir : fi.dataDir = sampleKey.dataDir := by rw [← hkey]; rfl
  have hnew := attempts_keep_bucket (by decide) hrun₂ started_evaluated.1
    (fun i => (started_fresh i).roomy) (segments "k" ++ [sampleKey.dataDir]) i
  have hmoved := hdone.moved i (partName 1) (fun p _ => partName_ne_metaName 1 p.partNumber)
    (by rw [hdir]; exact hnew.trans (started_new i))
  have hpart := (hsecond.renewed i).partEntry
  have hgone : (byteUpload "two" halfDone).faults.deletePart i = none := rfl
  have hstops : ¬∀ j, halfDone.makeDir j = none := by decide
  rw [if_neg fun h => hstops h.1, if_pos hgone] at hpart
  rw [hdir] at hmoved
  exact hmoved.trans hpart

end Openlake.CompletedParts
