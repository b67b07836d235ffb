import Openlake.Promote
import Openlake.Records

/-!
# Buckets

A bucket is a volume on every disk of the cluster and a metadata object in the
system bucket. The sets partition the disks; an operation on one set leaves the
disks outside it alone. The encoder of the bucket metadata and the hash of its
etag are parameters, and the time, the staging id and the outcome of the lock
are inputs.
The check of a bucket name looks at the name without its surrounding white space,
while the callers go on with the name as it came.
-/

set_option autoImplicit false

namespace Openlake.Buckets
open Openlake.Types XlMeta LocalFs Promote Records Lib.FileTree Lib.Effects

def isWhitespace (c : Char) : Bool :=
  let n := c.toNat
  (9 ≤ n && n ≤ 13) || n = 0x20 || n = 0x85 || n = 0xa0 || n = 0x1680 ||
    (0x2000 ≤ n && n ≤ 0x200a) || n = 0x2028 || n = 0x2029 || n = 0x202f || n = 0x205f || n = 0x3000

def trim (cs : List Char) : List Char :=
  ((cs.dropWhile isWhitespace).reverse.dropWhile isWhitespace).reverse

def isAlnum (c : Char) : Bool := ('a' ≤ c && c ≤ 'z') || ('0' ≤ c && c ≤ '9')

def validBucketNameStrict (cs : List Char) : Bool :=
  cs.all (fun c => isAlnum c || c = '.' || c = '-') && cs.head?.any isAlnum &&
    cs.getLast?.any isAlnum && 3 ≤ cs.length && cs.length ≤ 63

/-- Four runs of digits between dots. Digits outside ASCII fail the strict
pattern anyway. -/
def ipAddress (cs : List Char) : Bool :=
  let groups := cs.splitOn '.'
  groups.length = 4 && groups.all (fun g => g ≠ [] && g.all Char.isDigit)

def validateBucketName (name : String) : Except StorageError Unit :=
  let trimmed := trim name.toList
  let len := (utf8 (String.ofList trimmed)).length
  if trimmed = [] ∨ len < 3 ∨ 63 < len ∨ trimmed = "openlake".toList ∨ ipAddress trimmed ∨
      ['.','.'] <:+: trimmed ∨ ['.','-'] <:+: trimmed ∨ ['-','.'] <:+: trimmed ∨
      validBucketNameStrict trimmed = false then
    .error (.invalidBucketName name)
  else .ok ()

def makeVol (volume : String) : Fs Unit := do
  lift (refuse (volume = "" ∨ '/' ∈ volume.toList ∨ Char.ofNat 0 ∈ volume.toList)
    (.invalidArgument ("volume " ++ volume.quote)))
  change (fun t => (createDir t [volume]).mapError (fun e =>
    match e with
    | .alreadyExists => .volumeExists volume
    | e => osError e))

def deleteVol (volume : String) (forceDelete : Bool) : Fs Unit :=
  if forceDelete then
    change (fun t => (trash t [volume]).mapError (volumeError volume))
  else
    change (fun t => (removeDir t [volume]).mapError (fun e =>
      match e with
      | .notFound => .volumeNotFound volume
      | .directoryNotEmpty => .volumeNotEmpty volume
      | e => osError e))

structure BucketMeta where
  createdMs : UInt64
  versioningStatus : VersioningStatus
  versioningUpdatedMs : UInt64
  objectLockEnabled : Bool
  deriving DecidableEq, Repr

/-- The fresh id is used when versioning is enabled. -/
def BucketMeta.nextVersionId (fresh : String) (m : BucketMeta) : String :=
  match m.versioningStatus with
  | .enabled => fresh
  | .unversioned | .suspended => VersionIds.nullVersionId

def bktMetaKey (bucket : String) : String := "buckets/" ++ bucket ++ "/.metadata.bin"

section Cluster

variable {N n : ℕ}

/-- Runs an operation of one set on the disks of the cluster. -/
def onSet {α : Type} (set : Fin n → Fin N) (op : Engine n α) : Engine N α := fun disks =>
  let spread (s : Disks n) : Disks N := fun j =>
    ((List.finRange n).find? (fun i => set i = j)).elim (disks j) s
  match op (fun i => disks (set i)) with
  | .ok a s => .ok a (spread s)
  | .error e s => .error e (spread s)

structure ConfigWrite (n : ℕ) where
  nowMs : UInt64
  stagingId : String
  faults : Fin n → Option IoError

def saveConfig (c : MetaCodec) (blake3Hex : Bytes → String) (parityShards : ℕ)
    (w : ConfigWrite n) (volume key : String) (body : Bytes) : Engine n Unit :=
  let size := Int64.ofNat body.length
  let etag := blake3Hex body
  let baseFi := { buildFileInfo volume key size etag w.nowMs none (some [body])
      (singlePartInfo etag size size w.nowMs) with versionId := VersionIds.nullVersionId }
  let baseErasure := defaultErasureInfo (UInt8.ofNat (n-parityShards)) (UInt8.ofNat parityShards)
    (UInt8.ofNat n)
  promoteVersions c w.faults stagingVol w.stagingId (fun i => indexed baseFi baseErasure i) volume
    key n

variable (c : MetaCodec) (blake3Hex : Bytes → String)
  (encodeMeta : BucketMeta → Except IoError Bytes) (set : Fin n → Fin N) (parityShards : ℕ)

def putBucketMeta (w : ConfigWrite n) (bucket : String) (m : BucketMeta) : Engine N Unit := do
  let body ← lift ((encodeMeta m).mapError .io)
  onSet set (saveConfig c blake3Hex parityShards w systemBucket (bktMetaKey bucket) body)

def deleteVolAll (bucket : String) (disks : Disks N) : Disks N :=
  fun i => left (deleteVol bucket true (disks i))

def isVolumeExists : Except IoError Unit → Bool
  | .error (.volumeExists _) => true
  | _ => false

def otherError : Except IoError Unit → Option IoError
  | .ok _ => none
  | .error (.volumeExists _) => none
  | .error e => some e

def volError (bucket : String) (answers : List (Except IoError Unit)) : IoError :=
  match (answers.filterMap otherError).getLast? with
  | some e => e
  | none => if 0 < answers.countP isVolumeExists then .volumeExists bucket
    else .invalidArgument "no results"

structure CreateCall (N n : ℕ) where
  lock : Except StorageError Unit
  volFaults : Fin N → Option IoError
  metaWrite : ConfigWrite n

def volAnswers (faults : Fin N → Option IoError) (bucket : String) (disks : Disks N) :
    List (Except IoError Unit) :=
  List.ofFn (fun i => value (attempt (faults i) (makeVol bucket) (disks i)))

def createUnderLock (call : CreateCall N n) (bucket : String) (m : BucketMeta) :
    Engine N Unit := fun disks =>
  let answers := volAnswers call.volFaults bucket disks
  let made : Disks N := fun i => left (attempt (call.volFaults i) (makeVol bucket) (disks i))
  if N/2+1 ≤ answers.countP isVolumeExists then .error (.bucketAlreadyExists bucket) made
  else if answers.countP (fun r => r = .ok ()) ≠ N then
    .error (.io (volError bucket answers)) (deleteVolAll bucket made)
  else
    match putBucketMeta c blake3Hex encodeMeta set parityShards call.metaWrite bucket m made with
    | .ok () s => .ok () s
    | .error e s => .error e (deleteVolAll bucket s)

def createBucket (call : CreateCall N n) (bucket : String) (m : BucketMeta) : Engine N Unit := do
  lift (validateBucketName bucket)
  lift call.lock
  createUnderLock c blake3Hex encodeMeta set parityShards call bucket m

end Cluster

def IsLetterOrDigit (c : Char) : Prop := 'a' ≤ c ∧ c ≤ 'z' ∨ '0' ≤ c ∧ c ≤ '9'

instance (c : Char) : Decidable (IsLetterOrDigit c) := inferInstanceAs (Decidable (_ ∨ _))

def IsDigits (cs : List Char) : Prop := cs ≠ [] ∧ ∀ c ∈ cs, '0' ≤ c ∧ c ≤ '9'

def FourDigitGroups (cs : List Char) : Prop :=
  ∃ a b c d, IsDigits a ∧ IsDigits b ∧ IsDigits c ∧ IsDigits d ∧
    cs = a ++ '.'::(b ++ '.'::(c ++ '.'::d))

/-- The rules for bucket names. -/
structure IsBucketName (cs : List Char) : Prop where
  length : 3 ≤ cs.length ∧ cs.length ≤ 63
  chars : ∀ c ∈ cs, IsLetterOrDigit c ∨ c = '.' ∨ c = '-'
  first : ∃ c, cs.head? = some c ∧ IsLetterOrDigit c
  last : ∃ c, cs.getLast? = some c ∧ IsLetterOrDigit c
  apart : ¬['.','.'] <:+: cs ∧ ¬['.','-'] <:+: cs ∧ ¬['-','.'] <:+: cs
  address : ¬FourDigitGroups cs
  system : cs ≠ "openlake".toList

theorem isAlnum_iff (c : Char) : isAlnum c = true ↔ IsLetterOrDigit c := by
  simp [isAlnum, IsLetterOrDigit]

theorem isDigits_iff (cs : List Char) :
    IsDigits cs ↔ cs ≠ [] ∧ ∀ c ∈ cs, Char.isDigit c = true := by
  simp [IsDigits, Char.isDigit, Char.le_def]

theorem ipAddress_iff (cs : List Char) : ipAddress cs = true ↔ FourDigitGroups cs := by
  constructor
  · intro h
    simp only [ipAddress, Bool.and_eq_true, decide_eq_true_eq, List.all_eq_true] at h
    obtain ⟨hlen,hall⟩ := h
    have hjoin : ['.'].intercalate (cs.splitOn '.') = cs := List.intercalate_splitOn '.'
    obtain ⟨a,b,c,d,hgroups⟩ := List.length_eq_four.mp hlen
    rw [hgroups] at hjoin hall
    have hdigits : ∀ g ∈ [a,b,c,d], IsDigits g := by
      intro g hg
      rw [isDigits_iff]
      simpa using hall g hg
    refine ⟨a,b,c,d,hdigits a (by simp),hdigits b (by simp),hdigits c (by simp),
      hdigits d (by simp),?_⟩
    rw [← hjoin]
    simp [List.intercalate]
  · rintro ⟨a,b,c,d,ha,hb,hc,hd,rfl⟩
    have hnodot : ∀ g ∈ [a,b,c,d], '.' ∉ g := by
      intro g hg hdot
      have hdigits : IsDigits g := by
        simp only [List.mem_cons, List.not_mem_nil, or_false] at hg
        rcases hg with rfl | rfl | rfl | rfl <;> assumption
      exact absurd (hdigits.2 '.' hdot).1 (by decide)
    have hsplit := List.splitOn_intercalate '.' hnodot (by simp)
    have hjoin : ['.'].intercalate [a,b,c,d] = a ++ '.'::(b ++ '.'::(c ++ '.'::d)) := by
      simp [List.intercalate]
    rw [hjoin] at hsplit
    simp only [ipAddress, hsplit]
    rw [isDigits_iff] at ha hb hc hd
    simpa using ⟨ha,hb,hc,hd⟩

variable {cs : List Char}

theorem length_utf8_name (h : ∀ c ∈ cs, IsLetterOrDigit c ∨ c = '.' ∨ c = '-') :
    (utf8 (String.ofList cs)).length = cs.length := by
  rw [utf8, String.toList_ofList]
  refine VersionIds.length_utf8_ascii cs fun c hc => Char.utf8Size_eq_one_iff.mpr ?_
  rcases h c hc with (⟨-,hz⟩ | ⟨-,hz⟩) | rfl | rfl
  · exact UInt32.le_trans hz (by decide)
  · exact UInt32.le_trans hz (by decide)
  · decide
  · decide

theorem validBucketNameStrict_iff (cs : List Char) : validBucketNameStrict cs = true ↔
    (3 ≤ cs.length ∧ cs.length ≤ 63) ∧ (∀ c ∈ cs, IsLetterOrDigit c ∨ c = '.' ∨ c = '-') ∧
      (∃ c, cs.head? = some c ∧ IsLetterOrDigit c) ∧
        ∃ c, cs.getLast? = some c ∧ IsLetterOrDigit c := by
  simp only [validBucketNameStrict, Bool.and_eq_true, decide_eq_true_eq, List.all_eq_true,
    Option.any_eq_true, isAlnum_iff, Bool.or_eq_true, or_assoc]
  tauto

/-- The check accepts a name when what is left of it after trimming is a bucket name. -/
theorem validateBucketName_iff (name : String) :
    validateBucketName name = .ok () ↔ IsBucketName (trim name.toList) := by
  have hstrict := validBucketNameStrict_iff (trim name.toList)
  have haddress := ipAddress_iff (trim name.toList)
  rw [validateBucketName]
  split_ifs with hbad
  · refine iff_of_false (by simp) fun h => ?_
    have hlen := length_utf8_name h.chars
    have hok := hstrict.mpr ⟨h.length,h.chars,h.first,h.last⟩
    have hshort := h.length
    rcases hbad with hnil | hlow | hhigh | hsystem | hip | hdots | hdash | hdot | hno
    · rw [hnil] at hshort
      exact absurd hshort.1 (by decide)
    · omega
    · omega
    · exact h.system hsystem
    · exact h.address (haddress.mp hip)
    · exact h.apart.1 hdots
    · exact h.apart.2.1 hdash
    · exact h.apart.2.2 hdot
    · rw [hok] at hno
      cases hno
  · push Not at hbad
    obtain ⟨-,-,-,hsystem,hip,hdots,hdash,hdot,hok⟩ := hbad
    obtain ⟨hlength,hchars,hfirst,hlast⟩ := hstrict.mp (by simpa using hok)
    exact iff_of_true rfl ⟨hlength,hchars,hfirst,hlast,⟨hdots,hdash,hdot⟩,
      fun h => hip (haddress.mpr h),hsystem⟩

theorem not_isWhitespace {c : Char} (h : IsLetterOrDigit c) : isWhitespace c = false := by
  have hrange : 97 ≤ c.toNat ∧ c.toNat ≤ 122 ∨ 48 ≤ c.toNat ∧ c.toNat ≤ 57 := h
  simp only [isWhitespace, Bool.or_eq_false_iff, Bool.and_eq_false_iff, decide_eq_false_iff_not]
  omega

theorem dropWhile_of_head {p : Char → Bool} {c : Char} (hc : cs.head? = some c)
    (hp : p c = false) : cs.dropWhile p = cs := by
  cases cs with
  | nil => cases hc
  | cons a cs =>
    cases hc
    exact List.dropWhile_cons_of_neg (by simp [hp])

theorem IsBucketName.trim_eq (h : IsBucketName cs) : trim cs = cs := by
  obtain ⟨a,ha,hfirst⟩ := h.first
  obtain ⟨b,hb,hlast⟩ := h.last
  have hreverse : cs.reverse.head? = some b := by rw [List.head?_reverse, hb]
  rw [trim, dropWhile_of_head ha (not_isWhitespace hfirst),
    dropWhile_of_head hreverse (not_isWhitespace hlast), List.reverse_reverse]

/-- The check decides whether the name itself is a bucket name exactly for the names
without surrounding white space and for those that are none without it either. -/
theorem validates_itself_iff (name : String) :
    (validateBucketName name = .ok () ↔ IsBucketName name.toList) ↔
      trim name.toList = name.toList ∨ ¬IsBucketName (trim name.toList) := by
  rw [validateBucketName_iff]
  constructor
  · intro h
    by_cases hname : IsBucketName (trim name.toList)
    · exact .inl (h.mp hname).trim_eq
    · exact .inr hname
  · rintro (h | h)
    · rw [h]
    · exact iff_of_false h fun hname => h (hname.trim_eq.symm ▸ hname)

theorem padded_name_accepted : validateBucketName " abc" = .ok () ∧
    ¬IsBucketName " abc".toList := by
  refine ⟨by decide +kernel,fun h => ?_⟩
  obtain ⟨c,hc,hletter⟩ := h.first
  have hspace : " abc".toList.head? = some ' ' := by decide
  rw [Option.some.inj (hc.symm.trans hspace)] at hletter
  exact absurd hletter (by decide)

end Openlake.Buckets
