import Fireemu.Library.Act
import Fireemu.Storage.Object
import Fireemu.Types.Determinism

/-!
# The versioned object store

Object metadata is kept apart from the blobs.  A bucket with versioning keeps the generations that
stop being live until they are deleted by number.  An operation that announces events first works out
the events, then asks for their admission and only then changes the store.

`Store` programs keep what they changed before an error, as the source does; `Failure.panicked` is the
end of a run that fails an `expect`.  Byte totals are natural numbers: the source stops counting at
`2^64` bytes.  Checks of debug builds are left out.
-/

namespace Fireemu.Storage

open Library (SortedMap SortedSet Act)

/-- Maximum bytes retained across unfinished resumable uploads. -/
def maxRetainedUploadBytes : ℕ := 1024 * 1024 * 1024

/-- Storage events. -/
inductive StorageEvent
  /-- A new generation was committed. -/
  | finalized (object : ObjectMetadata)
  /-- A generation was deleted; a noncurrent one with the time it stopped being live, and an
  overwritten one with the instant of the overwrite. -/
  | deleted (object : ObjectMetadata) (timeDeleted : Option LogicalInstant)
      (instant : Option LogicalInstant)
  /-- Metadata changed. -/
  | metadataUpdated (object : ObjectMetadata)
  /-- A live generation became noncurrent. -/
  | archived (object : ObjectMetadata) (timeDeleted : LogicalInstant)
  deriving DecidableEq

/-- The object an event is about. -/
def StorageEvent.object : StorageEvent → ObjectMetadata
  | .finalized object | .deleted object _ _ | .metadataUpdated object | .archived object _ => object

/-- A generation that is no longer live. -/
structure NoncurrentVersion where
  object : ObjectMetadata
  timeDeleted : LogicalInstant
  deriving DecidableEq

/-- State of an upload. -/
inductive UploadState
  | receiving
  | committed (object : ObjectMetadata)
  | aborted
  /-- Finalization was refused by Security Rules; the number of bytes stays observable. -/
  | denied (received : ℕ)
  deriving DecidableEq

/-- Resumable upload identifier. -/
abbrev UploadId := Str

/-- A resumable upload. -/
structure UploadSession where
  bucket : BucketName
  name : ObjectName
  metadata : NewMetadata
  precondition : Precondition
  total : Option ℕ
  expectedMd5 : Option (List Byte)
  expectedCrc32c : Option (BitVec 32)
  md5 : Md5
  crc32c : Crc32c
  received : List Byte
  state : UploadState
  startedAt : LogicalInstant
  deriving DecidableEq

/-- Key of a live object. -/
abbrev ObjectKey := BucketName ×ₗ ObjectName

/-- Key of a generation. -/
abbrev GenerationKey := BucketName ×ₗ ObjectName ×ₗ ℕ

/-- Key of a live object. -/
def objectKey (bucket : BucketName) (name : ObjectName) : ObjectKey := toLex (bucket, name)

/-- Key of a generation. -/
def generationKey (bucket : BucketName) (name : ObjectName) (generation : ℕ) : GenerationKey :=
  toLex (bucket, toLex (name, generation))

/-- All buckets of one session. -/
structure StorageState where
  objects : SortedMap ObjectKey ObjectMetadata
  blobs : SortedMap ℕ (List Byte)
  uploads : SortedMap UploadId UploadSession
  retainedUploadBytes : ℕ
  retainedUploadLimit : ℕ
  storedBytesLimit : Option ℕ
  /-- The length of every blob, summed. -/
  storedBytes : ℕ
  nextBlob : ℕ
  nextGeneration : ℕ
  nextUpload : ℕ
  rng : SplitMix64
  events : List StorageEvent
  /-- Generations are microsecond timestamps and a minted token is listed first. -/
  productionOrder : Bool
  /-- The versioning configuration of each bucket that was ever configured. -/
  versioning : SortedMap BucketName Bool
  /-- Generations that are no longer live. -/
  noncurrent : SortedMap GenerationKey NoncurrentVersion
  /-- The generations whose ACL grants `allUsers` read. -/
  publicRead : SortedSet GenerationKey

/-- How a call can fail. -/
inductive Failure
  | refused (error : StorageError)
  | panicked
  deriving DecidableEq

/-- A call on the store. -/
abbrev Store (α : Type) := Act Failure StorageState α

/-- What an error of a check makes of a call. -/
def refuse {α : Type} (x : Except StorageError α) : Store α := Act.lift (x.mapError .refused)

@[simp] theorem refuse_eq_ok {α : Type} {x : Except StorageError α} {a : α} {s s' : StorageState} :
    refuse x s = (.ok a, s') ↔ x = .ok a ∧ s = s' := by
  unfold refuse
  cases x <;> simp [Except.mapError]

@[simp] theorem refuse_eq_error {α : Type} {x : Except StorageError α} {f : Failure} {s s' : StorageState} :
    refuse x s = (.error f, s') ↔ ∃ e, x = .error e ∧ f = .refused e ∧ s = s' := by
  unfold refuse
  cases x with
  | ok => simp [Except.mapError]
  | error e =>
    simp only [Except.mapError, Act.lift_apply, Prod.mk.injEq, Except.error.injEq]
    constructor
    · rintro ⟨rfl, rfl⟩
      exact ⟨e, rfl, rfl, rfl⟩
    · rintro ⟨_, rfl, rfl, rfl⟩
      exact ⟨rfl, rfl⟩

@[simp] theorem refuse_bind_eq_ok {α β : Type} {x : Except StorageError α} {k : α → Store β}
    {s s' : StorageState} {b : β} :
    (refuse x >>= k) s = (.ok b, s') ↔ ∃ a, x = .ok a ∧ k a s = (.ok b, s') := by
  rw [Act.bind_eq_ok]
  simp [and_assoc]

@[simp] theorem wp_refuse {α : Type} {x : Except StorageError α} {Q : α → StorageState → Prop}
    {E : Failure → StorageState → Prop} {s : StorageState} :
    Act.wp (refuse x) Q E s ↔ (∀ a, x = .ok a → Q a s) ∧ ∀ e, x = .error e → E (.refused e) s := by
  unfold refuse
  cases x <;> simp [Except.mapError]

/-- The total length of some blobs. -/
def blobBytes (blobs : SortedMap ℕ (List Byte)) : ℕ := blobs.sum fun _ bytes => bytes.length

namespace StorageState

/-- Empty store with a deterministic token generator. -/
def new (seed : BitVec 64) : StorageState where
  objects := SortedMap.empty
  blobs := SortedMap.empty
  uploads := SortedMap.empty
  retainedUploadBytes := 0
  retainedUploadLimit := maxRetainedUploadBytes
  storedBytesLimit := none
  storedBytes := 0
  nextBlob := 0
  nextGeneration := 0
  nextUpload := 0
  rng := ⟨seed⟩
  events := []
  productionOrder := false
  versioning := SortedMap.empty
  noncurrent := SortedMap.empty
  publicRead := SortedMap.empty

/-! ### Blobs -/

/-- Adds a blob; a reused identity does not leave the count too high. -/
def insertBlob (s : StorageState) (blob : ℕ) (bytes : List Byte) : StorageState :=
  { s with
    storedBytes := s.storedBytes + bytes.length - ((s.blobs.get blob).map List.length).getD 0
    blobs := s.blobs.insert blob bytes }

def removeBlob (s : StorageState) (blob : ℕ) : StorageState :=
  match s.blobs.get blob with
  | none => s
  | some old => { s with blobs := s.blobs.erase blob, storedBytes := s.storedBytes - old.length }

/-- Refuses a write that would grow the retained object data past the bound; a replacement is charged
only its difference. -/
def checkStoredBytes (s : StorageState) (replaced : Option ObjectMetadata) (size : ℕ) :
    Except StorageError Unit :=
  match s.storedBytesLimit with
  | none => .ok ()
  | some limit =>
      let freed := ((replaced.bind fun old => s.blobs.get old.blob).map List.length).getD 0
      if freed < size ∧ limit < s.storedBytes - freed + size then .error .storedBytesLimit else .ok ()

/-! ### Versioning, reads and identities -/

/-- Whether object versioning is enabled on a bucket. -/
def versioned (s : StorageState) (bucket : BucketName) : Bool := s.versioning.get bucket = some true

/-- Enables or disables object versioning on a bucket. -/
def setVersioning (s : StorageState) (bucket : BucketName) (enabled : Bool) : StorageState :=
  { s with versioning := s.versioning.insert bucket enabled }

/-- Object metadata. -/
def get (s : StorageState) (bucket : BucketName) (name : ObjectName) : Option ObjectMetadata :=
  s.objects.get (objectKey bucket name)

/-- Object bytes. -/
def bytes (s : StorageState) (object : ObjectMetadata) : List Byte := (s.blobs.get object.blob).getD []

/-- One generation of an object by number. -/
def generation (s : StorageState) (bucket : BucketName) (name : ObjectName) (generation : ℕ) :
    Option ObjectMetadata :=
  match (s.objects.get (objectKey bucket name)).filter fun live => live.generation = generation with
  | some live => some live
  | none => (s.noncurrent.get (generationKey bucket name generation)).map (·.object)

/-- The generation the next commit will draw. -/
def nextGenerationPreview (s : StorageState) (now : LogicalInstant) : Except StorageError ℕ :=
  match checkedAdd s.nextGeneration 1 with
  | none => .error .identityExhausted
  | some successor =>
      let micros := now / 1000
      let drawn := if s.productionOrder then
          max successor (if 0 ≤ micros ∧ micros ≤ u64Max then micros.toNat else 0)
        else successor
      if drawn ≤ maxPersistedIdentity then .ok drawn else .error .identityExhausted

/-! ### Writes -/

/-- What a write plans before it is admitted and applied. -/
structure PlannedPut where
  key : ObjectKey
  object : ObjectMetadata
  nextBlob : ℕ
  nextGeneration : ℕ
  /-- The live generation this write makes noncurrent. -/
  archive : Option NoncurrentVersion
  /-- The live generation this write replaces for good. -/
  replaced : Option ObjectMetadata

/-- Plans a write of a new generation. -/
def planPut (s : StorageState) (bucket : BucketName) (name : ObjectName) (size : ℕ)
    (digests : ObjectDigests) (metadata : NewMetadata) (pre : Precondition) (now : LogicalInstant) :
    Except StorageError PlannedPut := do
  let (custom, downloadTokens) :=
    extractDownloadTokens (metadata.custom.getD SortedMap.empty) []
  if maxCustomMetadataBytes < metadataBudgetSize custom downloadTokens then
    throw .metadataTooLarge
  let live := s.objects.get (objectKey bucket name)
  pre.check live
  -- A versioned bucket keeps the generation this write replaces, so nothing is freed.
  let archive := if s.versioned bucket then live.map fun live => ⟨live, now⟩ else none
  s.checkStoredBytes (if archive.isSome then none else live) size
  let nextBlob ← match checkedAdd s.nextBlob 1 with
    | some nextBlob => .ok nextBlob
    | none => .error .identityExhausted
  let nextGeneration ← s.nextGenerationPreview now
  return {
    key := objectKey bucket name
    object := {
      bucket, name
      generation := nextGeneration
      metageneration := 1
      size
      contentType := metadata.contentType.getD octetStream
      contentDisposition := metadata.contentDisposition
      contentEncoding := metadata.contentEncoding
      contentLanguage := metadata.contentLanguage
      cacheControl := metadata.cacheControl
      custom
      customDefined := metadata.custom.isSome
      md5 := digests.md5
      crc32c := digests.crc32c
      timeCreated := now
      updated := now
      downloadTokens
      blob := nextBlob }
    nextBlob, nextGeneration, archive
    replaced := if archive.isSome then none else live }

/-- The events of a planned write, in the order they are admitted and announced. -/
def putEvents (plan : PlannedPut) : List StorageEvent :=
  (plan.replaced.map fun old => .deleted old none (some plan.object.timeCreated)).toList ++
    [.finalized plan.object] ++
    (plan.archive.map fun version => .archived version.object version.timeDeleted).toList

/-- Applies a planned write. -/
def applyPlannedPut (s : StorageState) (plan : PlannedPut) (bytes : List Byte)
    (events : List StorageEvent) : StorageState :=
  let replaced := s.objects.get plan.key
  let s := { s with
    nextBlob := plan.nextBlob
    nextGeneration := plan.nextGeneration
    objects := s.objects.insert plan.key plan.object }
  let s := match replaced with
    | some old =>
        { s with
          publicRead := s.publicRead.erase
            (generationKey old.bucket old.name old.generation) }
    | none => s
  let s := match replaced, plan.archive with
    -- The replaced generation is kept, blob and all.
    | some old, some version =>
        { s with
          noncurrent := s.noncurrent.insert (generationKey old.bucket old.name old.generation) version }
    | some old, none => s.removeBlob old.blob
    | none, _ => s
  let s := s.insertBlob plan.object.blob bytes
  { s with events := s.events ++ events }

end StorageState

section Operations

open StorageState

variable {R : Type} (admits : List StorageEvent → Except StorageError R)

/-- Writes a prepared generation only after its events are admitted. -/
def putPreparedWithAdmission (bucket : BucketName) (name : ObjectName) (prepared : PreparedObject)
    (metadata : NewMetadata) (pre : Precondition) (now : LogicalInstant) :
    Store (ObjectMetadata × R) := do
  Act.require (prepared.bytes.length ≤ maxObjectBytes) (.refused .tooLarge)
  let s ← Act.get
  let plan ← refuse
    (s.planPut bucket name prepared.bytes.length prepared.digests metadata pre now)
  let events := putEvents plan
  let reservation ← refuse (admits events)
  Act.modify fun s => s.applyPlannedPut plan prepared.bytes events
  return (plan.object, reservation)

/-- Writes bytes only after the events are admitted. -/
def putWithAdmission (bucket : BucketName) (name : ObjectName) (bytes : List Byte)
    (metadata : NewMetadata) (pre : Precondition) (now : LogicalInstant) :
    Store (ObjectMetadata × R) := do
  Act.require (bytes.length ≤ maxObjectBytes) (.refused .tooLarge)
  putPreparedWithAdmission admits bucket name (PreparedObject.new bytes) metadata pre now

/-- Updates metadata only after the event is admitted. -/
def updateMetadataWithAdmission (bucket : BucketName) (name : ObjectName) (patch : MetadataPatch)
    (pre : Precondition) (now : LogicalInstant) : Store (ObjectMetadata × R) := do
  let s ← Act.get
  let key := objectKey bucket name
  refuse (pre.check (s.objects.get key))
  let object ← Act.orElse (s.objects.get key) (.refused .notFound)
  let next ← refuse (patched object patch now)
  let event := .metadataUpdated next
  let reservation ← refuse (admits [event])
  Act.modify fun s => { s with objects := s.objects.insert key next, events := s.events ++ [event] }
  return (next, reservation)

/-- Updates the metadata of one generation by number; a noncurrent one announces nothing. -/
def updateGenerationMetadataWithAdmission (bucket : BucketName) (name : ObjectName) (generation : ℕ)
    (patch : MetadataPatch) (pre : Precondition) (now : LogicalInstant) :
    Store (ObjectMetadata × R) := do
  let s ← Act.get
  if (s.objects.get (objectKey bucket name)).any fun live => live.generation = generation then
    updateMetadataWithAdmission admits bucket name patch pre now
  else do
    let versionKey := generationKey bucket name generation
    let version ← Act.orElse (s.noncurrent.get versionKey) (.refused .notFound)
    refuse (pre.check (some version.object))
    let next ← refuse (patched version.object patch now)
    let reservation ← refuse (admits [])
    Act.modify fun s =>
      { s with noncurrent := s.noncurrent.insert versionKey ⟨next, version.timeDeleted⟩ }
    return (next, reservation)

/-! ### Download tokens -/

/-- The bytes of a word, the most significant one first. -/
def toBeBytes (word : BitVec 64) : List Byte :=
  (List.range 8).map fun i => (word >>> (8 * (7 - i))).setWidth 8

/-- Two lower-case hexadecimal digits for each byte. -/
def hexLower (bytes : List Byte) : Str :=
  bytes.flatMap fun byte => [hexDigit (byte.toNat / 16), hexDigit (byte.toNat % 16)]

/-- A download token in the UUID v4 shape, and the generator after it. -/
def tokenFrom (rng : SplitMix64) : Str × SplitMix64 :=
  let (first, rng) := rng.nextU64
  let (second, rng) := rng.nextU64
  let bytes := toBeBytes first ++ toBeBytes second
  let bytes := bytes.set 6 (bytes.getD 6 0 &&& 0x0F#8 ||| 0x40#8)
  let bytes := bytes.set 8 (bytes.getD 8 0 &&& 0x3F#8 ||| 0x80#8)
  let h := fun start stop => hexLower ((bytes.take stop).drop start)
  (h 0 4 ++ '-' :: h 4 6 ++ '-' :: h 6 8 ++ '-' :: h 8 10 ++ '-' :: h 10 16, rng)

/-- Adds a download token only after its metadata event is admitted. -/
def addDownloadTokenWithAdmission (bucket : BucketName) (name : ObjectName) (now : LogicalInstant) :
    Store (ObjectMetadata × R) := do
  let s ← Act.get
  let key := objectKey bucket name
  let object ← Act.orElse (s.objects.get key) (.refused .notFound)
  Act.require (object.downloadTokens.length < maxDownloadTokens) (.refused .metadataTooLarge)
  let metageneration ← refuse (bumpMetageneration object.metageneration 1)
  let (token, rng) := tokenFrom s.rng
  let updated := { object with
    downloadTokens := if s.productionOrder then token :: object.downloadTokens
      else object.downloadTokens ++ [token]
    metageneration
    updated := now }
  let event := .metadataUpdated updated
  let reservation ← refuse (admits [event])
  Act.modify fun s => { s with
    rng
    objects := s.objects.insert key updated
    events := s.events ++ [event] }
  return (updated, reservation)

/-- Removes a download token only after its metadata event is admitted; removing the last one mints
a replacement, and an object with no tokens stays as it is. -/
def removeDownloadTokenWithAdmission (bucket : BucketName) (name : ObjectName) (token : Str)
    (now : LogicalInstant) : Store (ObjectMetadata × Option R) := do
  let s ← Act.get
  let key := objectKey bucket name
  let object ← Act.orElse (s.objects.get key) (.refused .notFound)
  if object.downloadTokens.isEmpty then
    return (object, none)
  else do
    let replacementNeeded := object.downloadTokens.all (· = token)
    let metageneration ← refuse
      (bumpMetageneration object.metageneration (if replacementNeeded then 2 else 1))
    let replacement := if replacementNeeded then some (tokenFrom s.rng).1 else none
    let rng := if replacementNeeded then (tokenFrom s.rng).2 else s.rng
    let kept := object.downloadTokens.filter (· ≠ token)
    -- An empty list requires a replacement.
    let downloadTokens ← Act.orElse
      (if kept.isEmpty then replacement.map ([·]) else some kept) .panicked
    let updated := { object with downloadTokens, metageneration, updated := now }
    let event := .metadataUpdated updated
    let reservation ← refuse (admits [event])
    Act.modify fun s => { s with
      rng
      objects := s.objects.insert key updated
      events := s.events ++ [event] }
    return (updated, some reservation)

/-! ### Deletions -/

/-- Deletes the current generation only after its event is admitted; a versioned bucket keeps it. -/
def deleteWithAdmission (bucket : BucketName) (name : ObjectName) (pre : Precondition)
    (now : LogicalInstant) : Store (ObjectMetadata × R) := do
  let s ← Act.get
  let key := objectKey bucket name
  refuse (pre.check (s.objects.get key))
  let object ← Act.orElse (s.objects.get key) (.refused .notFound)
  let versionKey := generationKey bucket name object.generation
  if s.versioned bucket then do
    let event := .archived object now
    let reservation ← refuse (admits [event])
    Act.modify fun s => { s with
      objects := s.objects.erase key
      publicRead := s.publicRead.erase versionKey
      noncurrent := s.noncurrent.insert versionKey ⟨object, now⟩
      events := s.events ++ [event] }
    return (object, reservation)
  else do
    let event := .deleted object none none
    let reservation ← refuse (admits [event])
    Act.modify fun s => { s with
      objects := s.objects.erase key
      publicRead := s.publicRead.erase versionKey }
    Act.modify fun s => s.removeBlob object.blob
    Act.modify fun s => { s with events := s.events ++ [event] }
    return (object, reservation)

/-- Deletes one generation by number, for good, only after its event is admitted. -/
def deleteGenerationWithAdmission (bucket : BucketName) (name : ObjectName) (generation : ℕ)
    (pre : Precondition) : Store (ObjectMetadata × R) := do
  let s ← Act.get
  let key := objectKey bucket name
  let versionKey := generationKey bucket name generation
  if (s.objects.get key).any fun live => live.generation = generation then do
    refuse (pre.check (s.objects.get key))
    let object ← Act.orElse (s.objects.get key) (.refused .notFound)
    let event := .deleted object none none
    let reservation ← refuse (admits [event])
    Act.modify fun s => { s with
      objects := s.objects.erase key
      publicRead := s.publicRead.erase (generationKey bucket name object.generation) }
    Act.modify fun s => s.removeBlob object.blob
    Act.modify fun s => { s with events := s.events ++ [event] }
    return (object, reservation)
  else do
    let version ← Act.orElse (s.noncurrent.get versionKey) (.refused .notFound)
    refuse (pre.check (some version.object))
    let event := .deleted version.object (some version.timeDeleted) none
    let reservation ← refuse (admits [event])
    Act.modify fun s => { s with
      noncurrent := s.noncurrent.erase versionKey
      publicRead := s.publicRead.erase versionKey }
    Act.modify fun s => s.removeBlob version.object.blob
    Act.modify fun s => { s with events := s.events ++ [event] }
    return (version.object, reservation)

/-! ### Copies -/

/-- The metadata a copy takes over from its source. -/
def ObjectMetadata.copied (source : ObjectMetadata) : NewMetadata where
  contentType := some source.contentType
  contentDisposition := source.contentDisposition
  contentEncoding := source.contentEncoding
  contentLanguage := source.contentLanguage
  cacheControl := source.cacheControl
  custom := if source.customDefined then some source.custom else none

/-- Copies one generation of an object, the live one or a noncurrent version, only after the
destination events are admitted. -/
def copyGenerationWithAdmission (source : BucketName × ObjectName × Option ℕ)
    (destination : BucketName × ObjectName) (metadata : Option NewMetadata) (pre : Precondition)
    (now : LogicalInstant) : Store (ObjectMetadata × R) := do
  let s ← Act.get
  let object ← Act.orElse (match source.2.2 with
    | none => s.get source.1 source.2.1
    | some generation => s.generation source.1 source.2.1 generation) (.refused .notFound)
  -- The same bytes under a new blob identity.
  let shared := s.bytes object
  let plan ← refuse (s.planPut destination.1 destination.2 shared.length ⟨object.md5, object.crc32c⟩
    (metadata.getD object.copied) pre now)
  let events := putEvents plan
  let reservation ← refuse (admits events)
  Act.modify fun s => s.applyPlannedPut plan shared events
  return (plan.object, reservation)

end Operations

/-! ### Public read -/

namespace StorageState

/-- Grants `allUsers` read on the live generation of an object. -/
def setPublicRead (s : StorageState) (bucket : BucketName) (name : ObjectName) : StorageState :=
  match s.get bucket name with
  | none => s
  | some object =>
      { s with publicRead := SortedSet.add s.publicRead (generationKey bucket name object.generation) }

/-- Takes `allUsers` read away from the live generation of an object. -/
def clearPublicRead (s : StorageState) (bucket : BucketName) (name : ObjectName) : StorageState :=
  match s.get bucket name with
  | none => s
  | some object =>
      { s with
        publicRead := s.publicRead.erase (generationKey bucket name object.generation) }

/-! ### Imports -/

/-- Puts an imported object in place of the live one: no fresh generation, no event. -/
def installImported (s : StorageState) (object : ObjectMetadata) (bytes : List Byte) : StorageState :=
  let old := s.objects.get (objectKey object.bucket object.name)
  let s := { s with
    nextBlob := object.blob
    nextGeneration := max s.nextGeneration object.generation
    objects := s.objects.insert (objectKey object.bucket object.name) object }
  let s := match old with
    | none => s
    | some old =>
        (if old.generation ≠ object.generation then
          { s with
            publicRead := s.publicRead.erase
              (generationKey old.bucket old.name old.generation) }
        else s).removeBlob old.blob
  s.insertBlob object.blob bytes

end StorageState

/-- Installs an object from an import artifact. -/
def insertImported (object : ImportedObject) (bytes : List Byte) : Store ObjectMetadata := do
  Act.require (bytes.length ≤ maxObjectBytes) (.refused .tooLarge)
  Act.require (customMetadataSize object.custom ≤ maxCustomMetadataBytes) (.refused .metadataTooLarge)
  refuse (importedMetadataIsHeaderSafe object)
  Act.require (object.generation ≠ 0 ∧ object.generation ≤ maxPersistedIdentity ∧
      object.metageneration ≠ 0 ∧ object.metageneration ≤ maxPersistedIdentity)
    (.refused (.invalidImportedIdentity
      s!"generation and metageneration must both be between 1 and {maxPersistedIdentity}"))
  let name := String.ofList object.name.1
  Act.require (object.md5.all (· = md5 bytes)) (.refused (.checksumMismatch
    s!"the imported object {name} does not match the md5Hash its metadata records"))
  Act.require (object.crc32c.all (· = crc32c bytes)) (.refused (.checksumMismatch
    s!"the imported object {name} does not match the crc32c its metadata records"))
  let recorded := object.size.getD bytes.length
  Act.require (recorded = bytes.length) (.refused (.checksumMismatch
    s!"the imported object {name} is {bytes.length} bytes, not the {recorded} its metadata records"))
  let s ← Act.get
  let nextBlob ← Act.orElse (checkedAdd s.nextBlob 1) (.refused .identityExhausted)
  let installed : ObjectMetadata := {
    bucket := object.bucket
    name := object.name
    generation := object.generation
    metageneration := object.metageneration
    size := bytes.length
    contentType := object.contentType
    contentDisposition := object.contentDisposition
    contentEncoding := object.contentEncoding
    contentLanguage := object.contentLanguage
    cacheControl := object.cacheControl
    custom := object.custom
    customDefined := object.customDefined
    md5 := md5 bytes
    crc32c := crc32c bytes
    timeCreated := object.timeCreated
    updated := object.updated
    downloadTokens := object.downloadTokens
    blob := nextBlob }
  Act.modify fun s => s.installImported installed bytes
  return installed

end Fireemu.Storage
