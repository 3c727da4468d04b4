import Fireemu.Storage.State

/-!
# Resumable uploads

A session receives chunks at offsets, keeps the digests of what it has received, and is finalized into
a new generation.  The bytes of all sessions together are accounted for in `retainedUploadBytes`: every
change of a session goes through a wrapper that measures it before and after (`withUploadSession`,
`withUploadAccounting`), and every removal through `retainUploads` or an expired lookup.
-/

namespace Fireemu.Storage

open Library (SortedMap SortedSet Act)

/-- Resumable upload sessions expire after a week of virtual time. -/
def uploadSessionTtlSeconds : ℤ := 7 * 24 * 3600

/-- Maximum upload sessions still receiving bytes. -/
def maxUploadSessions : ℕ := 256

/-- Finished sessions kept for status queries. -/
def maxFinishedUploadSessions : ℕ := 256

/-- The bytes received by some sessions. -/
def uploadBytes (uploads : SortedMap UploadId UploadSession) : ℕ :=
  uploads.sum fun _ upload => upload.received.length

/-- Options of a resumable upload session. -/
structure UploadOptions where
  total : Option ℕ
  expectedMd5 : Option (List Byte)
  expectedCrc32c : Option (BitVec 32)

/-- A receiving session's length and digests. -/
structure UploadCheckpoint where
  received : ℕ
  md5 : Md5
  crc32c : Crc32c

/-- What a status query observes about a resumable upload. -/
inductive UploadPhase
  | active (received : ℕ)
  | finalized (object : ObjectMetadata)
  | cancelled (received : ℕ)
  | denied (received : ℕ)

/-- Progress of a resumable upload after a chunk. -/
structure UploadProgress where
  received : ℕ
  committed : Option ObjectMetadata

/-- What is wrong with an upload that reaches an offset. -/
def uploadSizeError (reached : ℕ) (total : Option ℕ) : Option StorageError :=
  if total.any (· < reached) then some .uploadSizeMismatch
  else if maxObjectBytes < reached then some .tooLarge
  else none

def canRetainUploadBytes (retained additional limit : ℕ) : Bool :=
  (checkedAdd retained additional).any (· ≤ limit)

/-- Whether a session is too old, or from so far in the past that its age is not representable. -/
def UploadSession.expired (u : UploadSession) (now : LogicalInstant) : Bool :=
  match LogicalInstant.checkedDurationSince now u.startedAt with
  | none => true
  | some d => decide (LogicalDuration.fromSeconds uploadSessionTtlSeconds < d)

/-- A session given up, without its bytes. -/
def UploadSession.abort (u : UploadSession) : UploadSession := { u with state := .aborted, received := [] }

/-- Stores a session. -/
def StorageState.setUpload (s : StorageState) (id : UploadId) (u : UploadSession) : StorageState :=
  { s with uploads := s.uploads.insert id u }

/-- Changes a session, if there is one. -/
def StorageState.modifyUpload (s : StorageState) (id : UploadId) (f : UploadSession → UploadSession) :
    StorageState :=
  { s with uploads := s.uploads.modify id f }

/-! ### Accounting -/

/-- The bytes a session holds. -/
def StorageState.receivedBy (s : StorageState) (id : UploadId) : ℕ :=
  ((s.uploads.get id).map fun u => u.received.length).getD 0

/-- The total after a session went from one length to another. -/
def accountUpload (retained before after : ℕ) : Option ℕ :=
  (checkedSub retained before).bind (checkedAdd · after)

/-- Run a change of one session and account for it, whatever its result. -/
def withUploadAccounting {α : Type} (id : UploadId) (change : Store α) : Store α := fun s =>
  match change s with
  | (.error .panicked, s') => (.error .panicked, s')
  | (result, s') =>
      match accountUpload s.retainedUploadBytes (s.receivedBy id) (s'.receivedBy id) with
      | none => (.error .panicked, s')
      | some retained => (result, { s' with retainedUploadBytes := retained })

/-- Looks up a session; an expired one is dropped. -/
def uploadMut (id : UploadId) (now : LogicalInstant) : Store UploadSession := fun s =>
  match s.uploads.get id with
  | none => (.error (.refused .uploadNotFound), s)
  | some u =>
      if u.expired now then
        let s := { s with uploads := s.uploads.erase id }
        match checkedSub s.retainedUploadBytes u.received.length with
        | none => (.error .panicked, s)
        | some retained => (.error (.refused .uploadNotFound), { s with retainedUploadBytes := retained })
      else (.ok u, s)

/-- Change a session and account for it; the change may also refuse. -/
def withUploadSession {α : Type} (id : UploadId) (now : LogicalInstant)
    (change : UploadSession → Except StorageError α × UploadSession) : Store α := do
  let u ← uploadMut id now
  let (result, u') := change u
  let s ← Act.get
  Act.modify fun s => s.setUpload id u'
  let retained ← Act.orElse
    (accountUpload s.retainedUploadBytes u.received.length u'.received.length) .panicked
  Act.modify fun s => { s with retainedUploadBytes := retained }
  refuse result

/-- Keep the sessions a test accepts. -/
def retainUploads (keep : UploadId → UploadSession → Bool) : Store Unit := do
  let s ← Act.get
  let removed := uploadBytes (s.uploads.filter fun id u => !keep id u)
  Act.modify fun s => { s with uploads := s.uploads.filter keep }
  let retained ← Act.orElse (checkedSub s.retainedUploadBytes removed) .panicked
  Act.modify fun s => { s with retainedUploadBytes := retained }

/-- Drops expired sessions; finished sessions beyond the cap are evicted, the first ids first. -/
def sweepUploads (now : LogicalInstant) : Store Unit := do
  retainUploads fun _ u => !u.expired now
  let s ← Act.get
  let finished := (s.uploads.entries.filter fun e => e.2.state ≠ .receiving).map Prod.fst
  if maxFinishedUploadSessions < finished.length then
    let evicted := finished.take (finished.length - maxFinishedUploadSessions)
    retainUploads fun id _ => id ∉ evicted
  else pure ()

/-! ### Sessions -/

/-- The decimal digits of a number, at least eight. -/
def padded (n : ℕ) : Str := List.replicate (8 - (decimal n).length) '0' ++ decimal n

/-- The identifier of an upload. -/
def uploadId (sequence : ℕ) (token : Str) : UploadId :=
  "upload-".toList ++ padded sequence ++ '-' :: token

/-- Starts a resumable upload. -/
def beginUploadWith (bucket : BucketName) (name : ObjectName) (metadata : NewMetadata)
    (precondition : Precondition) (options : UploadOptions) (now : LogicalInstant) :
    Store UploadId := do
  Act.require (∀ t ∈ options.total, t ≤ maxObjectBytes) (.refused .tooLarge)
  Act.require (∀ c ∈ metadata.custom, customMetadataSize c ≤ maxCustomMetadataBytes)
    (.refused .metadataTooLarge)
  let s ← Act.get
  let nextUpload ← Act.orElse (checkedAdd s.nextUpload 1) (.refused .identityExhausted)
  sweepUploads now
  let s ← Act.get
  Act.require ((s.uploads.entries.filter fun e => e.2.state = .receiving).length < maxUploadSessions)
    (.refused .tooManyUploads)
  let (token, rng) := tokenFrom s.rng
  let id := uploadId nextUpload token
  Act.modify fun s => { s with
    nextUpload, rng
    uploads := s.uploads.insert id {
      bucket, name, metadata, precondition
      total := options.total
      expectedMd5 := options.expectedMd5
      expectedCrc32c := options.expectedCrc32c
      md5 := Md5.new
      crc32c := Crc32c.new
      received := []
      state := .receiving
      startedAt := now } }
  return id

/-- Declares the checksums the whole object must have. -/
def setUploadHashes (id : UploadId) (md5 : Option (List Byte)) (crc32c : Option (BitVec 32))
    (now : LogicalInstant) : Store Unit := do
  let u ← uploadMut id now
  Act.modify fun s => s.setUpload id { u with
    expectedMd5 := md5.or u.expectedMd5
    expectedCrc32c := crc32c.or u.expectedCrc32c }

/-- Declares or confirms the total size of an upload. -/
def setUploadTotal (id : UploadId) (total : ℕ) (now : LogicalInstant) : Store Unit := do
  Act.require (total ≤ maxObjectBytes) (.refused .tooLarge)
  let u ← uploadMut id now
  Act.require (∀ t ∈ u.total, t = total) (.refused .uploadSizeMismatch)
  Act.modify fun s => s.setUpload id { u with total := some total }

/-- The lifecycle phase of an upload. -/
def uploadPhase (id : UploadId) (now : LogicalInstant) : Store UploadPhase := do
  let u ← uploadMut id now
  return match u.state with
    | .receiving => .active u.received.length
    | .committed object => .finalized object
    | .aborted => .cancelled u.received.length
    | .denied received => .denied received

/-- Marks an upload whose finalization Security Rules refused. -/
def markUploadDenied (id : UploadId) (now : LogicalInstant) : Store Unit :=
  withUploadSession id now fun u =>
    (.ok (), if u.state = .receiving then
        { u with state := .denied u.received.length, received := [] }
      else u)

/-- Cancels an upload; a finalized session is not cancellable. -/
def cancelUpload (id : UploadId) (now : LogicalInstant) : Store Unit :=
  withUploadSession id now fun u =>
    match u.state with
    | .committed _ | .denied _ => (.error .uploadFinalized, u)
    | .receiving | .aborted => (.ok (), u.abort)

/-! ### Chunks -/

/-- Adds bytes to a session. -/
def UploadSession.extend (u : UploadSession) (appended : List Byte) : UploadSession :=
  { u with
    md5 := u.md5.update appended
    crc32c := u.crc32c.update appended
    received := u.received ++ appended }

/-- What a chunk at an offset does to a session: a repeated part is skipped. -/
def UploadSession.append (retained limit offset : ℕ) (chunk : List Byte) (u : UploadSession) :
    Except StorageError ℕ × UploadSession :=
  match u.state with
  | .committed _ | .aborted | .denied _ => (.error .uploadFinalized, u)
  | .receiving =>
      let received := u.received.length
      match checkedAdd offset chunk.length with
      | none => (.error .tooLarge, u)
      | some reached =>
          if reached ≤ received then (.ok received, u)
          else if received < offset then (.error (.uploadOffset received), u)
          else
            match uploadSizeError reached u.total with
            | some error => (.error error, u.abort)
            | none =>
                let appended := chunk.drop (received - offset)
                if canRetainUploadBytes retained appended.length limit then
                  (.ok (u.extend appended).received.length, u.extend appended)
                else (.error .uploadCapacityExceeded, u)

/-- Appends a chunk at an offset and returns the bytes received. -/
def appendUpload (id : UploadId) (offset : ℕ) (chunk : List Byte) (now : LogicalInstant) : Store ℕ := do
  let s ← Act.get
  withUploadSession id now
    (UploadSession.append s.retainedUploadBytes s.retainedUploadLimit offset chunk)

/-- A session that has not received anything adopts the whole chunk; otherwise `none`. -/
def UploadSession.adopt (retained limit offset : ℕ) (chunk : List Byte) (u : UploadSession) :
    Except StorageError (Option ℕ) × UploadSession :=
  match u.state with
  | .committed _ | .aborted | .denied _ => (.error .uploadFinalized, u)
  | .receiving =>
      if offset ≠ 0 ∨ u.received ≠ [] ∨ chunk = [] then (.ok none, u)
      else
        match uploadSizeError chunk.length u.total with
        | some error => (.error error, u.abort)
        | none =>
            if canRetainUploadBytes retained chunk.length limit then
              (.ok (some chunk.length), { u with
                md5 := u.md5.update chunk, crc32c := u.crc32c.update chunk, received := chunk })
            else (.error .uploadCapacityExceeded, u)

/-- `appendUpload` with an owned chunk. -/
def appendUploadOwned (id : UploadId) (offset : ℕ) (chunk : List Byte) (now : LogicalInstant) :
    Store ℕ := do
  let s ← Act.get
  let attempt ← withUploadSession id now
    (UploadSession.adopt s.retainedUploadBytes s.retainedUploadLimit offset chunk)
  match attempt with
  | some received => return received
  | none => appendUpload id offset chunk now

/-! ### Finalization -/

/-- The digests of what a session has received. -/
def UploadSession.digests (u : UploadSession) : ObjectDigests := ⟨u.md5.finalize, u.crc32c.finalize⟩

/-- The bytes and digests an upload would commit. -/
def pendingUpload (id : UploadId) (now : LogicalInstant) : Store (List Byte × ObjectDigests) := do
  let u ← uploadMut id now
  Act.require (u.state = .receiving) (.refused .uploadFinalized)
  return (u.received, u.digests)

/-- What forbids to finalize a session: its size or a checksum it declared. -/
def UploadSession.mismatch (u : UploadSession) : Option StorageError :=
  if u.total.any (· ≠ u.received.length) then some .uploadSizeMismatch
  else if u.expectedMd5.any (· ≠ u.digests.md5) then
    let declared := base64Standard (u.expectedMd5.getD [])
    let received := base64Standard u.digests.md5
    some (.checksumMismatch s!"md5 {declared} declared, {received} received")
  else if u.expectedCrc32c.any (· ≠ u.digests.crc32c) then
    let declared := base64Standard (Md5.toLeBytes 4 (u.expectedCrc32c.getD 0)).reverse
    let received := base64Standard (Md5.toLeBytes 4 u.digests.crc32c).reverse
    some (.checksumMismatch s!"crc32c {declared} declared, {received} received")
  else none

section Finalization

variable {R : Type} (admits : List StorageEvent → Except StorageError R)

/-- Finalization before its bytes are accounted for. -/
def finalizeUploadWithAdmissionInner (id : UploadId) (now : LogicalInstant) :
    Store (ObjectMetadata × R) := do
  let u ← uploadMut id now
  Act.require (u.state = .receiving) (.refused .uploadFinalized)
  match u.mismatch with
  | some error => do
      Act.modify fun s => s.setUpload id u.abort
      refuse (.error error)
  | none => do
      let s ← Act.get
      match s.planPut u.bucket u.name u.received.length u.digests u.metadata u.precondition now with
      -- The stored-byte bound is not the session's fault: it stays open.
      | .error .storedBytesLimit => refuse (.error .storedBytesLimit)
      | .error error => do
          Act.modify fun s => s.modifyUpload id UploadSession.abort
          refuse (.error error)
      | .ok plan => do
          let events := StorageState.putEvents plan
          let reservation ← refuse (admits events)
          let s ← Act.get
          let u ← Act.orElse (s.uploads.get id) (.refused .uploadNotFound)
          Act.modify fun s => s.setUpload id { u with received := [] }
          Act.modify fun s => s.applyPlannedPut plan u.received events
          Act.modify fun s =>
            s.modifyUpload id fun u => { u with state := .committed plan.object }
          return (plan.object, reservation)

/-- Commits a resumable upload only after its events are admitted. -/
def finalizeUploadWithAdmission (id : UploadId) (now : LogicalInstant) : Store (ObjectMetadata × R) :=
  withUploadAccounting id (finalizeUploadWithAdmissionInner admits id now)

end Finalization

/-- Commits the received bytes as a new generation. -/
def finalizeUpload (id : UploadId) (now : LogicalInstant) : Store ObjectMetadata := do
  let (object, ()) ← finalizeUploadWithAdmission (fun _ => .ok ()) id now
  return object

/-- What a receiving session holds before a chunk is appended. -/
def StorageState.uploadCheckpoint (s : StorageState) (id : UploadId) : Option UploadCheckpoint :=
  ((s.uploads.get id).filter fun u => u.state = .receiving).map fun u =>
    ⟨u.received.length, u.md5, u.crc32c⟩

/-- A receiving session taken back to a checkpoint. -/
def UploadSession.rollback (u : UploadSession) (checkpoint : UploadCheckpoint) : UploadSession :=
  if u.state = .receiving then
    { u with
      received := u.received.take checkpoint.received
      md5 := checkpoint.md5
      crc32c := checkpoint.crc32c }
  else u

/-- Takes a receiving session back to a checkpoint. -/
def rollbackUpload (id : UploadId) (checkpoint : UploadCheckpoint) : Store Unit :=
  withUploadAccounting id (Act.modify fun s => s.modifyUpload id (UploadSession.rollback · checkpoint))

/-- Finalization after a chunk, which is taken back if the stored-byte bound refuses it. -/
def finishUpload (id : UploadId) (checkpoint : Option UploadCheckpoint) (now : LogicalInstant) :
    Store UploadProgress := fun s =>
  match finalizeUpload id now s, checkpoint with
  | (.ok object, s), _ => (.ok ⟨object.size, some object⟩, s)
  | (.error (.refused .storedBytesLimit), s), some checkpoint =>
      (do rollbackUpload id checkpoint
          refuse (.error .storedBytesLimit) : Store UploadProgress) s
  | (.error failure, s), _ => (.error failure, s)

/-- `appendUpload` followed by `finalizeUpload` when asked for. -/
def uploadChunk (id : UploadId) (offset : ℕ) (chunk : List Byte) (finalize : Bool)
    (now : LogicalInstant) : Store UploadProgress := do
  let s ← Act.get
  let checkpoint := if finalize then s.uploadCheckpoint id else none
  let received ← appendUpload id offset chunk now
  if !finalize then
    return ⟨received, none⟩
  else finishUpload id checkpoint now

end Fireemu.Storage
