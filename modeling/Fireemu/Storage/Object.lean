import Fireemu.Library.SortedMap
import Fireemu.Types.Hash
import Fireemu.Types.Machine
import Fireemu.Types.Time
import Fireemu.Storage.Name

/-!
# Objects, their metadata and preconditions

One `ObjectMetadata` describes one generation of an object.  Download tokens ride in as a key of the
custom metadata and are lifted out of it (`extractDownloadTokens`); the two together are charged
against one budget.
-/

namespace Fireemu.Storage

open Library (SortedMap)

/-- Largest object accepted. -/
def maxObjectBytes : ℕ := 256 * 1024 * 1024

/-- Custom metadata budget. -/
def maxCustomMetadataBytes : ℕ := 8 * 1024

/-- The most download tokens one object may carry. -/
def maxDownloadTokens : ℕ := 32

/-- The longest a single download token may be. -/
def maxDownloadTokenLen : ℕ := 128

/-- Largest generation identity that import and export artifacts preserve. -/
def maxPersistedIdentity : ℕ := 2 ^ 63 - 1

/-- Custom key/value metadata. -/
abbrev Custom := SortedMap Str Str

/-- Settable metadata of an object. -/
structure NewMetadata where
  contentType : Option Str
  contentDisposition : Option Str
  contentEncoding : Option Str
  contentLanguage : Option Str
  cacheControl : Option Str
  custom : Option Custom
  deriving DecidableEq

/-- What a patch does to custom metadata. -/
inductive CustomMetadataPatch
  /-- Every custom key goes and the map becomes undefined. -/
  | clear
  /-- Keys mapped to nothing are removed, others inserted. -/
  | merge (entries : SortedMap Str (Option Str))
  /-- The map replaces every custom key and every download token. -/
  | replace (entries : Custom)

/-- Metadata patch: `some none` clears a field, `none` keeps it. -/
structure MetadataPatch where
  contentType : Option (Option Str)
  contentDisposition : Option (Option Str)
  contentEncoding : Option (Option Str)
  contentLanguage : Option (Option Str)
  cacheControl : Option (Option Str)
  custom : Option CustomMetadataPatch

/-- Stored object metadata, of one generation. -/
structure ObjectMetadata where
  bucket : BucketName
  name : ObjectName
  generation : ℕ
  metageneration : ℕ
  size : ℕ
  contentType : Str
  contentDisposition : Option Str
  contentEncoding : Option Str
  contentLanguage : Option Str
  cacheControl : Option Str
  custom : Custom
  customDefined : Bool
  md5 : List Byte
  crc32c : BitVec 32
  timeCreated : LogicalInstant
  updated : LogicalInstant
  downloadTokens : List Str
  blob : ℕ
  deriving DecidableEq

/-- MD5 and CRC32C computed together for one byte sequence. -/
structure ObjectDigests where
  md5 : List Byte
  crc32c : BitVec 32
  deriving DecidableEq

/-- Computes both digests. -/
def ObjectDigests.new (bytes : List Byte) : ObjectDigests := ⟨Fireemu.md5 bytes, Fireemu.crc32c bytes⟩

/-- Object bytes bound to the digests computed from those exact bytes. -/
structure PreparedObject where
  bytes : List Byte
  digests : ObjectDigests
  bound : digests = ObjectDigests.new bytes

/-- Computes the digests and binds them to the bytes. -/
def PreparedObject.new (bytes : List Byte) : PreparedObject := ⟨bytes, ObjectDigests.new bytes, rfl⟩

/-- An object an import artifact recorded. -/
structure ImportedObject where
  bucket : BucketName
  name : ObjectName
  generation : ℕ
  metageneration : ℕ
  contentType : Str
  contentDisposition : Option Str
  contentEncoding : Option Str
  contentLanguage : Option Str
  cacheControl : Option Str
  custom : Custom
  customDefined : Bool
  timeCreated : LogicalInstant
  updated : LogicalInstant
  downloadTokens : List Str
  md5 : Option (List Byte)
  crc32c : Option (BitVec 32)
  size : Option ℕ

/-- Why a batch of events could not be reserved before publication. -/
inductive EventAdmissionError
  | capacity (message : String)
  | unavailable (message : String)
  | invalidEvent (message : String)
  deriving DecidableEq

/-- Errors of the store. -/
inductive StorageError
  | notFound
  | preconditionFailed (message : String)
  | tooLarge
  | metadataTooLarge
  | uploadNotFound
  | uploadOffset (expected : ℕ)
  | uploadFinalized
  | storedBytesLimit
  | uploadSizeMismatch
  | tooManyUploads
  | uploadCapacityExceeded
  | checksumMismatch (message : String)
  | invalidImportedIdentity (message : String)
  | invalidMetadata (message : String)
  | identityExhausted
  | eventAdmission (error : EventAdmissionError)
  | notModified (message : String)
  deriving DecidableEq

/-! ### Preconditions -/

/-- Write precondition; a generation of 0 means that the object must not exist. -/
structure Precondition where
  ifGenerationMatch : Option ℕ
  ifMetagenerationMatch : Option ℕ
  ifGenerationNotMatch : Option ℕ
  ifMetagenerationNotMatch : Option ℕ
  deriving DecidableEq

/-- Evaluates the precondition against the current object. -/
def Precondition.check (pre : Precondition) : Option ObjectMetadata → Except StorageError Unit
  | none =>
      match pre with
      | ⟨none, none, none, none⟩ | ⟨some 0, none, none, none⟩ => .ok ()
      | _ => .error (.preconditionFailed "the object does not exist")
  | some m => do
      if let some expected := pre.ifGenerationMatch then
        if m.generation ≠ expected then
          throw (.preconditionFailed
            s!"ifGenerationMatch {expected} but the current generation is {m.generation}")
      if let some expected := pre.ifMetagenerationMatch then
        if m.metageneration ≠ expected then
          throw (.preconditionFailed
            s!"ifMetagenerationMatch {expected} but the current metageneration is {m.metageneration}")
      if let some unexpected := pre.ifGenerationNotMatch then
        if m.generation = unexpected then
          throw (.notModified s!"ifGenerationNotMatch {unexpected} names the current generation")
      if let some unexpected := pre.ifMetagenerationNotMatch then
        if m.metageneration = unexpected then
          throw (.notModified
            s!"ifMetagenerationNotMatch {unexpected} names the current metageneration")

/-! ### Header safety -/

/-- Whether a metadata string may be served as an HTTP header value. -/
def isHeaderSafe (value : Str) : Bool := !value.any Str.isControl

/-- The refusal of a control character; it names the field and never repeats the value. -/
def headerSafe (field : String) (value : Str) : Except StorageError Unit :=
  if isHeaderSafe value then .ok ()
  else .error (.invalidMetadata s!"{field} contains a control character")

/-- Every metadata string of an imported object that leaves the store as an HTTP header. -/
def importedMetadataIsHeaderSafe (object : ImportedObject) : Except StorageError Unit := do
  headerSafe "contentType" object.contentType
  for (field, value) in
      [("contentDisposition", object.contentDisposition), ("contentEncoding", object.contentEncoding),
        ("contentLanguage", object.contentLanguage), ("cacheControl", object.cacheControl)] do
    if let some value := value then
      headerSafe field value
  for (key, value) in object.custom.entries do
    headerSafe "metadata key" key
    let text := String.ofList key
    headerSafe s!"metadata.{text}" value
  for token in object.downloadTokens do
    headerSafe "downloadTokens" token

/-! ### Custom metadata and download tokens -/

/-- The custom metadata key download tokens ride in on. -/
def tokensMetadataKey : Str := "firebaseStorageDownloadTokens".toList

def customMetadataSize (custom : Custom) : ℕ := custom.sum fun k v => k.utf8Len + v.utf8Len

/-- The bytes charged against the custom metadata budget. -/
def metadataBudgetSize (custom : Custom) (downloadTokens : List Str) : ℕ :=
  customMetadataSize custom + if downloadTokens.isEmpty then 0
    else tokensMetadataKey.utf8Len + (downloadTokens.map Str.utf8Len).sum + (downloadTokens.length - 1)

/-- Adds the usable candidates that are new; the list is full at `maxDownloadTokens`. -/
def mergeTokens (tokens : List Str) : List Str → List Str
  | [] => tokens
  | t :: candidates =>
      if t.isEmpty ∨ maxDownloadTokenLen < t.utf8Len then mergeTokens tokens candidates
      else if maxDownloadTokens ≤ tokens.length then tokens
      else if t ∈ tokens then mergeTokens tokens candidates
      else mergeTokens (tokens ++ [t]) candidates

/-- Lifts the token key out of custom metadata into the token list. -/
def extractDownloadTokens (custom : Custom) (existing : List Str) : Custom × List Str :=
  match custom.get tokensMetadataKey with
  | none => (custom, existing)
  | some joined => (custom.erase tokensMetadataKey, mergeTokens existing (joined.splitOn ','))

/-- The default content type. -/
def octetStream : Str := "application/octet-stream".toList

/-- The custom metadata after a patch, whether it is defined, and the tokens that stay. -/
def CustomMetadataPatch.apply (base : ObjectMetadata) :
    Option CustomMetadataPatch → Custom × Bool × List Str
  | none => (base.custom, base.customDefined, base.downloadTokens)
  | some .clear => (SortedMap.empty, false, base.downloadTokens)
  | some (.merge entries) =>
      let custom := entries.entries.foldl (fun custom entry =>
        match entry.2 with
        | some v => custom.insert entry.1 v
        | none => custom.erase entry.1) base.custom
      (custom, !custom.entries.isEmpty, base.downloadTokens)
  | some (.replace entries) => (entries, !entries.entries.isEmpty, [])

/-- The object after a patch; metageneration and update time stay. -/
def MetadataPatch.apply (patch : MetadataPatch) (base : ObjectMetadata) : ObjectMetadata :=
  let (custom, customDefined, downloadTokens) := CustomMetadataPatch.apply base patch.custom
  { base with
    contentType := (patch.contentType.map (·.getD octetStream)).getD base.contentType
    contentDisposition := patch.contentDisposition.getD base.contentDisposition
    contentEncoding := patch.contentEncoding.getD base.contentEncoding
    contentLanguage := patch.contentLanguage.getD base.contentLanguage
    cacheControl := patch.cacheControl.getD base.cacheControl
    custom := custom
    customDefined := customDefined
    downloadTokens := downloadTokens }

/-- The successor of a metageneration by some steps, while there is one. -/
def bumpMetageneration (metageneration bump : ℕ) : Except StorageError ℕ :=
  match (checkedAdd metageneration bump).filter (· ≤ maxPersistedIdentity) with
  | some next => .ok next
  | none => .error .identityExhausted

/-- An object with a patch applied and its metageneration bumped. -/
def patched (object : ObjectMetadata) (patch : MetadataPatch) (now : LogicalInstant) :
    Except StorageError ObjectMetadata := do
  let next := patch.apply object
  let (custom, downloadTokens) := extractDownloadTokens next.custom next.downloadTokens
  if maxCustomMetadataBytes < metadataBudgetSize custom downloadTokens then
    throw .metadataTooLarge
  let metageneration ← bumpMetageneration next.metageneration 1
  return { next with custom, downloadTokens, metageneration, updated := now }

/-- What tells one stored generation from another. -/
structure ObjectMetadata.SameGeneration (m n : ObjectMetadata) : Prop where
  bucket : m.bucket = n.bucket
  name : m.name = n.name
  generation : m.generation = n.generation
  size : m.size = n.size
  blob : m.blob = n.blob

/-- A metadata update keeps the generation. -/
theorem patched_sameGeneration {object next : ObjectMetadata} {patch : MetadataPatch}
    {now : LogicalInstant} (h : patched object patch now = .ok next) : next.SameGeneration object := by
  unfold patched at h
  simp only [bind, Except.bind, pure, Except.pure, throw, throwThe, MonadExceptOf.throw] at h
  split at h
  · cases h
  · split at h
    · cases h
    · cases h
      exact ⟨rfl, rfl, rfl, rfl, rfl⟩

end Fireemu.Storage
