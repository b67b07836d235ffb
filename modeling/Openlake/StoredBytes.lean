import Openlake.PartAttempt
import Openlake.PartEncoding
import Openlake.PutObject

/-!
# The bytes a put stores

A put or a part upload that returns has taken the declared number of bytes from
the start of its source, has put them into the frames of the record or into the
stripes, and has named their digest. What the source would have answered after
them plays no part.
-/

set_option autoImplicit false

namespace Openlake.StoredBytes
open Openlake.Types XlMeta XlMetaRoundTrip Records Ec Streams StripeWriter VersionIds GetObject
open Multipart PutObject PartAttempt PartEncoding Promote MultiPartRead Lib.Chunks Lib.Effects
open Lib.FanOut Lib.Outcomes

theorem drainFrames_inv (payloadLen total : ℕ) (src : ByteSource) (frames : List Bytes)
    (h : drainFrames payloadLen total src = .ok frames) :
    payloadLen-total ≤ (contents src).length ∧
      frames.flatten = (contents src).take (payloadLen-total) := by
  induction src generalizing total frames with
  | nil =>
    rw [drainFrames.eq_def] at h
    split_ifs at h with hlt
    obtain rfl := Except.ok.inj h
    simp [show payloadLen-total = 0 by omega]
  | cons r src ih =>
    rw [drainFrames.eq_def] at h
    split_ifs at h with hlt
    · cases r with
      | error e => cases h
      | ok chunk =>
        by_cases hempty : chunk.isEmpty
        · simp [hempty] at h
        · simp only [hempty, Bool.false_eq_true, if_false] at h
          obtain ⟨rest,hrest,h⟩ := bind_eq_ok.mp h
          obtain rfl := Except.ok.inj h
          obtain ⟨hlen,hflat⟩ := ih _ _ hrest
          simp only [contents, if_neg hempty, List.flatten_cons, hflat, List.length_take,
            List.length_append, List.take_append] at hlen ⊢
          refine ⟨by omega,?_⟩
          congr 2
          omega
    · obtain rfl := Except.ok.inj h
      simp [show payloadLen-total = 0 by omega]

section Stripes

variable {S : Type} (md5 : Bytes → Bytes) (rs : ReedSolomon) (ec : Erasure)
  (writeAll : S → Bytes → Except IoError S)

def stripeBytes (size stripeData : ℕ) : (stripes consumed : ℕ) → (carry : Bytes) → ByteSource →
    Except IoError Bytes
  | 0,_,_,_ => .ok []
  | stripes+1,consumed,carry,src => do
    let want := min (size-consumed) stripeData
    let (buf,carry,src) ← fillStripe size consumed want carry src
    let rest ← stripeBytes size stripeData stripes (consumed+want) carry src
    return buf ++ rest

theorem writeStripes_bytes (size stripeData stripes consumed : ℕ) (hashed carry : Bytes)
    (src : ByteSource) (sinks : List S) (etag : String) (sinks' : List S)
    (h : writeStripes md5 rs ec writeAll size stripeData stripes consumed hashed carry src sinks =
      .ok (etag,sinks')) :
    ∃ x, stripeBytes size stripeData stripes consumed carry src = .ok x ∧
      etag = hexLower (md5 (hashed ++ x)) := by
  induction stripes generalizing consumed hashed carry src sinks with
  | zero =>
    obtain ⟨rfl,-⟩ := Prod.mk.inj (Except.ok.inj h)
    exact ⟨[],rfl,by rw [List.append_nil]⟩
  | succ stripes ih =>
    rw [writeStripes, bind_eq_ok] at h
    obtain ⟨⟨buf,carry',rest⟩,hfill,h⟩ := h
    rw [bind_eq_ok] at h
    obtain ⟨shards,-,h⟩ := h
    rw [bind_eq_ok] at h
    obtain ⟨sinks'',-,h⟩ := h
    obtain ⟨x,hx,hetag⟩ := ih _ _ _ _ _ h
    refine ⟨buf ++ x,?_,by rw [hetag, List.append_assoc]⟩
    rw [stripeBytes, hfill]
    show (stripeBytes _ _ _ _ _ _ >>= _) = _
    rw [hx]
    rfl

theorem stripeBytes_inv (size stripeData stripes consumed : ℕ) (carry : Bytes) (src : ByteSource)
    (x : Bytes) (h : stripeBytes size stripeData stripes consumed carry src = .ok x) :
    min (size-consumed) (stripes*stripeData) ≤ (carry ++ contents src).length ∧
      x = (carry ++ contents src).take (min (size-consumed) (stripes*stripeData)) := by
  induction stripes generalizing consumed carry src x with
  | zero =>
    obtain rfl := Except.ok.inj h
    simp
  | succ stripes ih =>
    rw [stripeBytes, bind_eq_ok] at h
    obtain ⟨⟨buf,carry',rest⟩,hfill,h⟩ := h
    rw [bind_eq_ok] at h
    obtain ⟨y,hy,h⟩ := h
    obtain rfl := Except.ok.inj h
    obtain ⟨hwant,-⟩ := fillStripe_inv _ _ _ _ _ _ hfill
    obtain ⟨carry'',rest',hfill',hahead⟩ := fillStripe_ok size consumed _ carry src hwant
    obtain ⟨rfl,rfl,rfl⟩ : _ ∧ carry' = carry'' ∧ rest = rest' := by
      simpa using hfill.symm.trans hfill'
    obtain ⟨hlen,rfl⟩ := ih _ _ _ _ hy
    rw [hahead] at hlen ⊢
    have hsplit : min (size-consumed) ((stripes+1)*stripeData) =
        min (size-consumed) stripeData +
          min (size-(consumed+min (size-consumed) stripeData)) (stripes*stripeData) := by
      rw [Nat.succ_mul]
      omega
    rw [hsplit, List.take_add]
    rw [List.length_drop] at hlen
    exact ⟨by omega,rfl⟩

end Stripes

section Calls

variable {n : ℕ} (c : MetaCodec) (sidecars : Rmp ObjectPartInfo) (md5 : Bytes → Bytes)
  (rs : ReedSolomon) (bucket key : String)

def encodedBytes (u : PartUpload n) (ec : Erasure) : Except IoError Bytes :=
  stripeBytes u.size.toNat (ec.dataShards*defaultEcPerShardBytes) (u.stripes ec) 0 [] u.src

def stored (u : PutCall n) : Except IoError Bytes :=
  if u.size.toNat ≤ u.inlineThreshold then
    (drainInlinePayload md5 u.src u.size.toNat).map (fun r => r.1.flatten)
  else
    match Erasure.new (n-u.parityShards) u.parityShards with
    | .ok ec => encodedBytes u.part ec
    | .error e => .error (.invalidArgument e)

theorem encode_bytes (u : PartUpload n) (ec : Erasure) (etag : String) (sinks : List (PartSink n))
    (h : u.encode md5 rs ec = .ok (etag,sinks)) :
    encodedBytes u ec = .ok (payload u) ∧ u.size.toNat ≤ (contents u.src).length ∧
      etag = hexLower (md5 (payload u)) := by
  obtain ⟨x,hx,hetag⟩ := writeStripes_bytes md5 rs ec _ _ _ _ _ _ _ _ _ _ _ h
  obtain ⟨hlen,hpayload⟩ := stripeBytes_inv _ _ _ _ _ _ _ hx
  have hwidth : 0 < ec.dataShards*defaultEcPerShardBytes := Nat.mul_pos ec.data_pos (by decide)
  have hcover : min (u.size.toNat-0) (u.stripes ec*(ec.dataShards*defaultEcPerShardBytes)) =
      u.size.toNat := Nat.min_eq_left (le_stripeCount_mul u.size.toNat _ hwidth)
  rw [hcover, List.nil_append] at hlen hpayload
  rw [encodedBytes, hx, hetag, hpayload]
  exact ⟨rfl,hlen,rfl⟩

/-- The record that a put promotes and the disks it does so on: the frames are in the record, or
the shards are staged. -/
inductive Written (u : PutCall n) (versionId : String) (disks : Disks n) :
    Disks n → ObjectInfo → FileInfo → Prop
  | inline (hsmall : u.size.toNat ≤ u.inlineThreshold) (frames : List Bytes) (etag : String)
      (hdrain : drainInlinePayload md5 u.src u.size.toNat = .ok (frames,etag)) :
    Written u versionId disks disks (u.info bucket key etag versionId .inline)
      (u.fileInfo bucket key etag versionId (Int64.ofNat u.size.toNat) (some frames))
  | striped (hlarge : ¬u.size.toNat ≤ u.inlineThreshold) (ec : Erasure) (etag : String)
      (s : Disks n) (hec : Erasure.new (n-u.parityShards) u.parityShards = .ok ec)
      (hstage : (stagePart md5 rs bucket u.part ec).run disks = .ok etag s) :
    Written u versionId disks s (u.info bucket key etag versionId .single)
      { u.fileInfo bucket key etag versionId (Int64.ofNat (shardSize u.size.toNat ec.dataShards))
          none with dataDir := u.dataDir }

/-- A put that returns has come to its commit. -/
theorem put_written (u : PutCall n) (disks disks' : Disks n) (info : ObjectInfo)
    (h : (put c md5 rs bucket key u).run disks = .ok info disks') :
    ∃ m s fi, u.bucketMeta = .ok m ∧
      Written md5 rs bucket key u (m.nextVersionId u.freshVersionId) disks s info fi ∧
      (u.commit c bucket key fi).run s = .ok () disks' := by
  rw [put, Prog.run_bind, run_bind_eq_ok] at h
  obtain ⟨_,d₁,hlock,h⟩ := h
  rw [Prog.run_ofExcept, Lib.Effects.lift_eq_ok] at hlock
  obtain ⟨-,rfl⟩ := hlock
  rw [Prog.run_withLock, Prog.run_bind, run_bind_eq_ok] at h
  obtain ⟨m,d₂,hmeta,h⟩ := h
  rw [Prog.run_ofExcept, Lib.Effects.lift_eq_ok] at hmeta
  obtain ⟨hm,rfl⟩ := hmeta
  split_ifs at h with hinline
  · rw [putInline, Prog.run_bind, run_bind_eq_ok] at h
    obtain ⟨⟨frames,etag⟩,d₃,hdrain,h⟩ := h
    rw [Prog.run_ofExcept, Lib.Effects.lift_eq_ok, mapError_eq_ok] at hdrain
    obtain ⟨hdrain,rfl⟩ := hdrain
    rw [Prog.run_bind, run_bind_eq_ok] at h
    obtain ⟨_,d₄,hcommit,h⟩ := h
    obtain ⟨rfl,rfl⟩ := (pure_eq_ok _ _ _ _).mp h
    exact ⟨m,_,_,hm,.inline hinline frames etag hdrain,hcommit⟩
  · rw [putEc, Prog.run_bind, run_bind_eq_ok] at h
    obtain ⟨ec,d₃,hec,h⟩ := h
    rw [Prog.run_ofExcept, Lib.Effects.lift_eq_ok, mapError_eq_ok] at hec
    obtain ⟨hec,rfl⟩ := hec
    rw [Prog.run_andThen] at h
    cases hrun : (storeShards c md5 rs bucket key u ec (m.nextVersionId u.freshVersionId)).run _ with
    | error e d' =>
      rw [hrun, value, orSweep, Prog.run_bind, run_bind_eq_ok] at h
      obtain ⟨_,_,-,h⟩ := h
      cases h
    | ok info' d' =>
      rw [hrun] at h
      obtain ⟨rfl,rfl⟩ := (pure_eq_ok _ _ _ _).mp h
      rw [storeShards, Prog.run_bind, run_bind_eq_ok] at hrun
      obtain ⟨etag,s,hstage,hrun⟩ := hrun
      rw [Prog.run_bind, run_bind_eq_ok] at hrun
      obtain ⟨_,d₄,hcommit,hrun⟩ := hrun
      obtain ⟨rfl,rfl⟩ := (pure_eq_ok _ _ _ _).mp hrun
      exact ⟨m,s,_,hm,.striped hinline ec etag s hec hstage,hcommit⟩

variable {md5} in
theorem drainInlinePayload_inv {src : ByteSource} {size : ℕ} {frames : List Bytes} {etag : String}
    (h : drainInlinePayload md5 src size = .ok (frames,etag)) :
    size ≤ (contents src).length ∧ frames.flatten = (contents src).take size ∧
      etag = hexLower (md5 frames.flatten) := by
  obtain ⟨frames',hframes,h⟩ := bind_eq_ok.mp h
  obtain ⟨rfl,hetag⟩ := Prod.mk.inj (Except.ok.inj h)
  obtain ⟨hlen,hflat⟩ := drainFrames_inv _ _ _ _ hframes
  exact ⟨hlen,hflat,hetag.symm⟩

/-- A put that returns has stored the declared number of bytes of its source. -/
theorem put_stored (u : PutCall n) (disks disks' : Disks n) (info : ObjectInfo)
    (h : (put c md5 rs bucket key u).run disks = .ok info disks') :
    stored md5 u = .ok ((contents u.src).take u.size.toNat) ∧
      u.size.toNat ≤ (contents u.src).length ∧
      info.etag = hexLower (md5 ((contents u.src).take u.size.toNat)) := by
  obtain ⟨m,s,fi,-,hwritten,-⟩ := put_written c md5 rs bucket key u disks disks' info h
  cases hwritten with
  | inline hsmall frames etag hdrain =>
    obtain ⟨hlen,hflat,hetag⟩ := drainInlinePayload_inv hdrain
    rw [stored, if_pos hsmall, hdrain, ← hflat]
    exact ⟨rfl,hlen,hetag⟩
  | striped hlarge ec etag s hec hstage =>
    obtain ⟨sinks,henc,-⟩ := stagePart_ok md5 rs bucket u.part ec _ _ _ hstage
    rw [stored, if_neg hlarge, hec]
    exact encode_bytes md5 rs u.part ec _ sinks henc

/-- What a part upload puts into the stripes: the geometry is the session's. -/
def Stores (uploadId : String) (u : PartUpload n) (disks : Disks n) (x : Bytes) : Prop :=
  ∃ fi d ec, (readSessionFi c u.faults.session (sessionPath bucket key uploadId)).run disks =
      .ok fi d ∧ erasureOf fi = .ok ec ∧ encodedBytes u ec = .ok x

theorem uploadPart_stored (uploadId : String) (u : PartUpload n) (disks disks' : Disks n)
    (info : ObjectPartInfo)
    (h : (uploadPart c sidecars md5 rs bucket key uploadId u).run disks = .ok info disks') :
    (∀ x, Stores c bucket key uploadId u disks x ↔ x = payload u) ∧
      u.size.toNat ≤ (contents u.src).length := by
  rw [uploadPart, Prog.run_bind, run_bind_eq_ok] at h
  obtain ⟨_,d₁,hnumber,h⟩ := h
  rw [Prog.run_bind, run_bind_eq_ok] at h
  obtain ⟨_,d₂,hname,h⟩ := h
  rw [Prog.run_ofExcept, Lib.Effects.lift_eq_ok] at hnumber hname
  obtain ⟨-,rfl⟩ := hnumber
  obtain ⟨-,rfl⟩ := hname
  rw [Prog.run_bind, run_bind_eq_ok] at h
  obtain ⟨fi,d₃,hsession,h⟩ := h
  rw [Prog.run_bind, run_bind_eq_ok] at h
  obtain ⟨ec,d₄,hec,h⟩ := h
  rw [Prog.run_ofExcept, Lib.Effects.lift_eq_ok] at hec
  rw [Prog.run_andThen] at h
  cases hrun : (storePart sidecars md5 rs bucket key uploadId u ec fi.dataDir).run d₄ with
  | error e d =>
    rw [hrun, value, orCleanup, Prog.run_bind, run_bind_eq_ok] at h
    obtain ⟨_,_,-,h⟩ := h
    cases h
  | ok info' d =>
    rw [storePart, Prog.run_bind, run_bind_eq_ok] at hrun
    obtain ⟨etag,d₅,hstage,-⟩ := hrun
    obtain ⟨sinks,henc,-⟩ := stagePart_ok md5 rs bucket u ec _ _ _ hstage
    obtain ⟨hbytes,hlen,-⟩ := encode_bytes md5 rs u ec _ sinks henc
    refine ⟨fun x => ⟨?_,?_⟩,hlen⟩
    · rintro ⟨fi',d',ec',hsession',hec',hbytes'⟩
      obtain ⟨rfl,rfl⟩ : fi = fi' ∧ d₃ = d' := by simpa using hsession.symm.trans hsession'
      obtain rfl := Except.ok.inj (hec.1.symm.trans hec')
      exact Except.ok.inj (hbytes'.symm.trans hbytes)
    · rintro rfl
      exact ⟨fi,d₃,ec,hsession,hec.1,hbytes⟩

end Calls

end Openlake.StoredBytes
