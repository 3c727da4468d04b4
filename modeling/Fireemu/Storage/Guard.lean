import Fireemu.Storage.Change

/-!
# Checks first, changes last

Every call that announces events, but the finalization of an upload, makes all its checks before it
changes anything: it fails without a change, and one that succeeds leaves the upload sessions alone.
-/

namespace Fireemu.Storage

open Library (SortedMap SortedSet Act)
open StorageState

/-- Two states with the same upload sessions. -/
structure SameUploads (s s' : StorageState) : Prop where
  uploads : s'.uploads = s.uploads
  retained : s'.retainedUploadBytes = s.retainedUploadBytes
  limit : s'.retainedUploadLimit = s.retainedUploadLimit
  next : s'.nextUpload = s.nextUpload

/-- What a call that fails without a change leaves. -/
def Unchanged (s : StorageState) (f : Failure) (s' : StorageState) : Prop := f ≠ .panicked ∧ s' = s

/-- A call that makes its checks first and does not touch upload sessions. -/
def Guarded {α : Type} (call : Store α) : Prop :=
  ∀ s, Act.wp call (fun _ s' => SameUploads s s') (Unchanged s) s

@[simp] theorem unchanged_refused {s s' : StorageState} {e : StorageError} :
    Unchanged s (.refused e) s' ↔ s' = s := by
  simp [Unchanged]

theorem sameUploads_refl {s : StorageState} : SameUploads s s := ⟨rfl, rfl, rfl, rfl⟩

theorem SameUploads.trans {s t u : StorageState} (h : SameUploads s t) (h' : SameUploads t u) :
    SameUploads s u :=
  ⟨h'.uploads.trans h.uploads, h'.retained.trans h.retained, h'.limit.trans h.limit, h'.next.trans h.next⟩

theorem sameUploads_applyPlannedPut (s : StorageState) (plan : StorageState.PlannedPut) (bytes : List Byte)
    (events : List StorageEvent) : SameUploads s (s.applyPlannedPut plan bytes events) := by
  obtain ⟨_, _, _, h⟩ := s.applyPlannedPut_eq plan bytes events
  rw [h]
  exact ⟨rfl, rfl, rfl, rfl⟩

section

variable {R : Type} {admits : List StorageEvent → Except StorageError R} {bucket : BucketName}
  {name : ObjectName} {metadata : NewMetadata} {pre : Precondition} {now : LogicalInstant}
  {patch : MetadataPatch} {generation : ℕ}

theorem guarded_putPrepared {prepared : PreparedObject} :
    Guarded (putPreparedWithAdmission admits bucket name prepared metadata pre now) := by
  intro s
  simp [putPreparedWithAdmission, sameUploads_applyPlannedPut]

theorem guarded_put {bytes : List Byte} :
    Guarded (putWithAdmission admits bucket name bytes metadata pre now) := by
  intro s
  simp only [putWithAdmission, Act.wp_bind, Act.wp_require, unchanged_refused, implies_true, and_true]
  exact fun _ => guarded_putPrepared s

theorem guarded_updateMetadata : Guarded (updateMetadataWithAdmission admits bucket name patch pre now) := by
  intro s
  simp [updateMetadataWithAdmission]
  intros
  exact ⟨rfl, rfl, rfl, rfl⟩

theorem guarded_updateGenerationMetadata :
    Guarded (updateGenerationMetadataWithAdmission admits bucket name generation patch pre now) := by
  intro s
  simp [updateGenerationMetadataWithAdmission]
  refine ⟨fun _ => guarded_updateMetadata s, ?_⟩
  intros
  exact ⟨rfl, rfl, rfl, rfl⟩

theorem guarded_addDownloadToken : Guarded (addDownloadTokenWithAdmission admits bucket name now) := by
  intro s
  simp [addDownloadTokenWithAdmission]
  intros
  exact ⟨rfl, rfl, rfl, rfl⟩

theorem guarded_removeDownloadToken {token : Str} :
    Guarded (removeDownloadTokenWithAdmission admits bucket name token now) := by
  intro s
  simp [removeDownloadTokenWithAdmission]
  intro object _
  refine ⟨fun _ => sameUploads_refl, fun _ metageneration _ => ⟨?_, fun hnone => ?_⟩⟩
  · intros
    exact ⟨rfl, rfl, rfl, rfl⟩
  · -- what is left is empty only if a replacement was minted
    by_cases hall : ∀ x ∈ object.downloadTokens, x = token
    · simp [if_pos hall] at hnone
    · simp [if_neg hall] at hnone

theorem guarded_delete : Guarded (deleteWithAdmission admits bucket name pre now) := by
  intro s
  simp [deleteWithAdmission, removeBlob_eq]
  intro _ _ object _
  exact ⟨fun _ _ _ => ⟨rfl, rfl, rfl, rfl⟩, fun _ _ _ => ⟨rfl, rfl, rfl, rfl⟩⟩

theorem guarded_deleteGeneration :
    Guarded (deleteGenerationWithAdmission admits bucket name generation pre) := by
  intro s
  simp [deleteGenerationWithAdmission, removeBlob_eq]
  constructor <;>
  · intros
    exact ⟨rfl, rfl, rfl, rfl⟩

theorem guarded_copy {source : BucketName × ObjectName × Option ℕ} {destination : BucketName × ObjectName}
    {metadata : Option NewMetadata} :
    Guarded (copyGenerationWithAdmission admits source destination metadata pre now) := by
  intro s
  simp [copyGenerationWithAdmission, sameUploads_applyPlannedPut]

theorem Guarded.reserved {call : Store (ObjectMetadata × R)} (h : Guarded call) :
    Guarded (reserved call) := fun s => by
  simpa only [Storage.reserved, Act.wp_bind, Act.wp_pure] using h s

theorem Mutation.guarded {mutation : Mutation} (h : ∀ id now, mutation ≠ .finalizeUpload id now) :
    Guarded (mutation.run admits) := by
  cases mutation with
  | put => exact guarded_put.reserved
  | putPrepared => exact guarded_putPrepared.reserved
  | updateMetadata => exact guarded_updateMetadata.reserved
  | updateGenerationMetadata => exact guarded_updateGenerationMetadata.reserved
  | addDownloadToken => exact guarded_addDownloadToken.reserved
  | removeDownloadToken => exact guarded_removeDownloadToken
  | delete => exact guarded_delete.reserved
  | deleteGeneration => exact guarded_deleteGeneration.reserved
  | copy => exact guarded_copy.reserved
  | finalizeUpload id now => exact absurd rfl (h id now)

end

end Fireemu.Storage
