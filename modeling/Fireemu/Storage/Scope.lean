import Fireemu.Library.MapUnion
import Fireemu.Storage.Upload

/-!
# Removal, capture and restoration of buckets

A scope is a test on bucket names.  `captureBuckets` copies what the buckets of a scope hold, and
`restoreBuckets` replaces their content by such a copy; the counters never go back.
-/

namespace Fireemu.Storage

open Library (SortedMap SortedSet Act)

namespace StorageState

/-- Drops every object, blob and upload; the counters stay. -/
def clear (s : StorageState) : StorageState :=
  { s with
    objects := SortedMap.empty
    noncurrent := SortedMap.empty
    versioning := SortedMap.empty
    publicRead := SortedMap.empty
    blobs := SortedMap.empty
    storedBytes := 0
    uploads := SortedMap.empty
    retainedUploadBytes := 0
    events := [] }

/-- Drops a live object and its blob. -/
def removeObject (s : StorageState) (key : ObjectKey) : StorageState :=
  match s.objects.get key with
  | none => s
  | some object => { s with objects := s.objects.erase key }.removeBlob object.blob

/-- Drops a noncurrent version and its blob. -/
def removeVersion (s : StorageState) (key : GenerationKey) : StorageState :=
  match s.noncurrent.get key with
  | none => s
  | some version => { s with noncurrent := s.noncurrent.erase key }.removeBlob version.object.blob

variable (owned : Str → Bool)

/-- The live objects of a scope. -/
def ownedObjects (s : StorageState) : SortedMap ObjectKey ObjectMetadata :=
  s.objects.filter fun key _ => owned (ofLex key).1.1

/-- The noncurrent versions of a scope. -/
def ownedVersions (s : StorageState) : SortedMap GenerationKey NoncurrentVersion :=
  s.noncurrent.filter fun key _ => owned (ofLex key).1.1

/-- Drops the noncurrent versions, the versioning configuration and the grants of a scope. -/
def removeVersioningStateWhere (s : StorageState) : StorageState :=
  let s := (s.ownedVersions owned).keys.foldl removeVersion s
  { s with
    versioning := s.versioning.filter fun bucket _ => !owned bucket.1
    publicRead := s.publicRead.filter fun key _ => !owned (ofLex key).1.1 }

/-- The blobs of some generations. -/
def blobsOf (s : StorageState) (objects : List ObjectMetadata) : SortedMap ℕ (List Byte) :=
  objects.foldl (fun blobs object =>
    match s.blobs.get object.blob with
    | none => blobs
    | some bytes => blobs.insert object.blob bytes) SortedMap.empty

/-- A copy of the objects, blobs and uploads of a scope; counters and generator are copied as they
are. -/
def captureBuckets (s : StorageState) : StorageState :=
  let objects := s.ownedObjects owned
  let noncurrent := s.ownedVersions owned
  let blobs := s.blobsOf
    (objects.entries.map (·.2) ++ noncurrent.entries.map fun e => e.2.object)
  let uploads := s.uploads.filter fun _ u => owned u.bucket.1
  { s with
    objects, blobs, uploads, noncurrent
    retainedUploadBytes := uploadBytes uploads
    storedBytes := blobBytes blobs
    events := []
    versioning := s.versioning.filter fun bucket _ => owned bucket.1
    publicRead := s.publicRead.filter fun key _ => owned (ofLex key).1.1 }

/-- Takes a live object over from a capture. -/
def restoreObject (captured s : StorageState) (e : ObjectKey × ObjectMetadata) : StorageState :=
  let s := match captured.blobs.get e.2.blob with
    | some bytes => s.insertBlob e.2.blob bytes
    | none => s
  { s with objects := s.objects.insert e.1 e.2 }

/-- Takes a noncurrent version over from a capture. -/
def restoreVersion (captured s : StorageState) (e : GenerationKey × NoncurrentVersion) : StorageState :=
  let s := match captured.blobs.get e.2.object.blob with
    | some bytes => s.insertBlob e.2.object.blob bytes
    | none => s
  { s with noncurrent := s.noncurrent.insert e.1 e.2 }

/-- Takes everything of a scope over from a capture. -/
def restoreContent (captured s : StorageState) : StorageState :=
  let s := (captured.ownedObjects owned).entries.foldl (restoreObject captured) s
  let s := (captured.ownedVersions owned).entries.foldl (restoreVersion captured) s
  let s := { s with
    versioning := s.versioning.union (captured.versioning.filter fun bucket _ => owned bucket.1)
    publicRead := SortedMap.union s.publicRead
      (captured.publicRead.filter fun key _ => owned (ofLex key).1.1)
    uploads := s.uploads.union (captured.uploads.filter fun _ u => owned u.bucket.1) }
  { s with
    retainedUploadBytes := uploadBytes s.uploads
    nextBlob := max s.nextBlob captured.nextBlob
    nextGeneration := max s.nextGeneration captured.nextGeneration
    nextUpload := max s.nextUpload captured.nextUpload
    events := s.events.filter fun event => !owned event.object.bucket.1 }

/-- Applies the post-commit `contentDisposition` default: no metageneration, no event. -/
def defaultContentDisposition (s : StorageState) (bucket : BucketName) (name : ObjectName) (value : Str) :
    StorageState :=
  { s with
    objects := s.objects.modify (objectKey bucket name) fun object =>
      { object with contentDisposition := object.contentDisposition.or (some value) } }

end StorageState

/-- Drops every object, blob and upload of a scope; returns how many objects went. -/
def removeBucketsWhere (owned : Str → Bool) : Store ℕ := do
  let s ← Act.get
  let gone := (s.ownedObjects owned).keys
  Act.modify fun s => gone.foldl StorageState.removeObject s
  Act.modify fun s => s.removeVersioningStateWhere owned
  retainUploads fun _ u => !owned u.bucket.1
  return gone.length

/-- Drops every object, blob and upload of one bucket. -/
def removeBucket (bucket : BucketName) : Store ℕ := removeBucketsWhere fun name => name = bucket.1

/-- Replaces the buckets of a scope with what was captured. -/
def restoreBuckets (owned : Str → Bool) (captured : StorageState) : Store Unit := do
  let _ ← removeBucketsWhere owned
  Act.modify fun s => captured.restoreContent owned s

end Fireemu.Storage
