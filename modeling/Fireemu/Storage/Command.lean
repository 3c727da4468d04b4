import Fireemu.Storage.Scope

/-!
# Calls on the store

`Mutation` lists the calls that announce events and take an admission callback, `Command` all calls
that change a store, and `SessionStep` what a session does with a store, in which scopes are captured and
restored besides.  A run stops where a call panics.  The sessions of uploads that are restored are copied
into an address space of 64 bits: a restoration that does not fit does not return.
-/

namespace Fireemu.Storage

open Library (SortedMap SortedSet Act)

/-- The calls that ask for admission of the events they announce. -/
inductive Mutation
  | put (bucket : BucketName) (name : ObjectName) (bytes : List Byte) (metadata : NewMetadata)
      (pre : Precondition) (now : LogicalInstant)
  | putPrepared (bucket : BucketName) (name : ObjectName) (prepared : PreparedObject)
      (metadata : NewMetadata) (pre : Precondition) (now : LogicalInstant)
  | updateMetadata (bucket : BucketName) (name : ObjectName) (patch : MetadataPatch)
      (pre : Precondition) (now : LogicalInstant)
  | updateGenerationMetadata (bucket : BucketName) (name : ObjectName) (generation : ℕ)
      (patch : MetadataPatch) (pre : Precondition) (now : LogicalInstant)
  | addDownloadToken (bucket : BucketName) (name : ObjectName) (now : LogicalInstant)
  | removeDownloadToken (bucket : BucketName) (name : ObjectName) (token : Str) (now : LogicalInstant)
  | delete (bucket : BucketName) (name : ObjectName) (pre : Precondition) (now : LogicalInstant)
  | deleteGeneration (bucket : BucketName) (name : ObjectName) (generation : ℕ) (pre : Precondition)
  | copy (source : BucketName × ObjectName × Option ℕ) (destination : BucketName × ObjectName)
      (metadata : Option NewMetadata) (pre : Precondition) (now : LogicalInstant)
  | finalizeUpload (id : UploadId) (now : LogicalInstant)

section

variable {R : Type} (admits : List StorageEvent → Except StorageError R)

/-- A call that always asks for admission. -/
def reserved (call : Store (ObjectMetadata × R)) : Store (ObjectMetadata × Option R) := do
  let (object, reservation) ← call
  return (object, some reservation)

/-- Runs a call with an admission callback; the reservation is what the callback returned, if it was
asked. -/
def Mutation.run : Mutation → Store (ObjectMetadata × Option R)
  | .put bucket name bytes metadata pre now =>
      reserved (putWithAdmission admits bucket name bytes metadata pre now)
  | .putPrepared bucket name prepared metadata pre now =>
      reserved (putPreparedWithAdmission admits bucket name prepared metadata pre now)
  | .updateMetadata bucket name patch pre now =>
      reserved (updateMetadataWithAdmission admits bucket name patch pre now)
  | .updateGenerationMetadata bucket name generation patch pre now =>
      reserved (updateGenerationMetadataWithAdmission admits bucket name generation patch pre now)
  | .addDownloadToken bucket name now => reserved (addDownloadTokenWithAdmission admits bucket name now)
  | .removeDownloadToken bucket name token now =>
      removeDownloadTokenWithAdmission admits bucket name token now
  | .delete bucket name pre now => reserved (deleteWithAdmission admits bucket name pre now)
  | .deleteGeneration bucket name generation pre =>
      reserved (deleteGenerationWithAdmission admits bucket name generation pre)
  | .copy source destination metadata pre now =>
      reserved (copyGenerationWithAdmission admits source destination metadata pre now)
  | .finalizeUpload id now => reserved (finalizeUploadWithAdmission admits id now)

end

/-- The calls that change a store. -/
inductive Command
  | mutate (mutation : Mutation) (admits : List StorageEvent → Except StorageError Unit)
  | insertImported (object : ImportedObject) (bytes : List Byte)
  | beginUpload (bucket : BucketName) (name : ObjectName) (metadata : NewMetadata)
      (precondition : Precondition) (options : UploadOptions) (now : LogicalInstant)
  | setUploadHashes (id : UploadId) (md5 : Option (List Byte)) (crc32c : Option (BitVec 32))
      (now : LogicalInstant)
  | setUploadTotal (id : UploadId) (total : ℕ) (now : LogicalInstant)
  | uploadPhase (id : UploadId) (now : LogicalInstant)
  | pendingUpload (id : UploadId) (now : LogicalInstant)
  | markUploadDenied (id : UploadId) (now : LogicalInstant)
  | cancelUpload (id : UploadId) (now : LogicalInstant)
  | appendUpload (id : UploadId) (offset : ℕ) (chunk : List Byte) (now : LogicalInstant)
  | appendUploadOwned (id : UploadId) (offset : ℕ) (chunk : List Byte) (now : LogicalInstant)
  | uploadChunk (id : UploadId) (offset : ℕ) (chunk : List Byte) (finalize : Bool)
      (now : LogicalInstant)
  | rollbackUpload (id : UploadId) (checkpoint : UploadCheckpoint)
  | setVersioning (bucket : BucketName) (enabled : Bool)
  | setPublicRead (bucket : BucketName) (name : ObjectName)
  | clearPublicRead (bucket : BucketName) (name : ObjectName)
  | defaultContentDisposition (bucket : BucketName) (name : ObjectName) (value : Str)
  | removeBucket (bucket : BucketName)
  | removeBucketsWhere (owned : Str → Bool)
  | clear
  | setProductionOrder (on : Bool)
  | setStoredBytesLimit (limit : Option ℕ)
  /-- Minting a token and restoring an earlier generator both set the generator. -/
  | setTokenGenerator (rng : SplitMix64)
  | drainEvents

/-- Runs a call for its effect. -/
def Command.run : Command → Store Unit
  | .mutate mutation admits => do let _ ← mutation.run admits
  | .insertImported object bytes => do let _ ← Storage.insertImported object bytes
  | .beginUpload bucket name metadata precondition options now => do
      let _ ← beginUploadWith bucket name metadata precondition options now
  | .setUploadHashes id md5 crc32c now => Storage.setUploadHashes id md5 crc32c now
  | .setUploadTotal id total now => Storage.setUploadTotal id total now
  | .uploadPhase id now => do let _ ← Storage.uploadPhase id now
  | .pendingUpload id now => do let _ ← Storage.pendingUpload id now
  | .markUploadDenied id now => Storage.markUploadDenied id now
  | .cancelUpload id now => Storage.cancelUpload id now
  | .appendUpload id offset chunk now => do let _ ← Storage.appendUpload id offset chunk now
  | .appendUploadOwned id offset chunk now => do let _ ← Storage.appendUploadOwned id offset chunk now
  | .uploadChunk id offset chunk finalize now => do
      let _ ← Storage.uploadChunk id offset chunk finalize now
  | .rollbackUpload id checkpoint => Storage.rollbackUpload id checkpoint
  | .setVersioning bucket enabled => Act.modify fun s => s.setVersioning bucket enabled
  | .setPublicRead bucket name => Act.modify fun s => s.setPublicRead bucket name
  | .clearPublicRead bucket name => Act.modify fun s => s.clearPublicRead bucket name
  | .defaultContentDisposition bucket name value =>
      Act.modify fun s => s.defaultContentDisposition bucket name value
  | .removeBucket bucket => do let _ ← Storage.removeBucket bucket
  | .removeBucketsWhere owned => do let _ ← Storage.removeBucketsWhere owned
  | .clear => Act.modify StorageState.clear
  | .setProductionOrder on => Act.modify fun s => { s with productionOrder := on }
  | .setStoredBytesLimit limit => Act.modify fun s => { s with storedBytesLimit := limit }
  | .setTokenGenerator rng => Act.modify fun s => { s with rng }
  | .drainEvents => Act.modify fun s => { s with events := [] }

/-- A store and what was captured of it so far. -/
structure Session where
  store : StorageState
  captures : List StorageState

/-- What a session does with its store. -/
inductive SessionStep
  | command (command : Command)
  | capture (owned : Str → Bool)
  | restore (owned : Str → Bool) (index : ℕ)

namespace Session

/-- A session of an empty store. -/
def new (seed : BitVec 64) : Session := ⟨StorageState.new seed, []⟩

/-- One step; `none` if the call panics. -/
def step (session : Session) : SessionStep → Option Session
  | .command command =>
      match command.run session.store with
      | (.error .panicked, _) => none
      | (_, store) => some { session with store }
  | .capture owned =>
      some { session with captures := session.captures ++ [session.store.captureBuckets owned] }
  | .restore owned index =>
      match session.captures[index]? with
      | none => some session
      | some captured =>
          match restoreBuckets owned captured session.store with
          | (.error .panicked, _) => none
          | (_, store) =>
              some (if uploadBytes store.uploads ≤ u64Max then { session with store } else session)

/-- A sequence of steps. -/
def run (session : Session) (steps : List SessionStep) : Option Session := steps.foldlM step session

end Session

end Fireemu.Storage
