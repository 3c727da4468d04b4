import Fireemu.Storage.Accounted
import Fireemu.Storage.Holdings

/-!
# Grants of public read

A grant is kept under the number of the generation it was given to.  Apart from the grant itself, no call
adds one, and a call that keeps one keeps its generation live (`Regrants`).  Each call that makes another
generation live, or none, drops the grant on its own; it finds it by the names in the metadata of the old
generation, which are those the generation is kept under (`Named`).
-/

namespace Fireemu.Storage

open Library (SortedMap SortedSet)
open Library.SortedMap Library.SortedSet StorageState

/-! ### Removal of buckets -/

/-- What no step changes stays. -/
theorem foldl_frame {K α : Type} {f : StorageState → K → StorageState} {g : StorageState → α}
    (h : ∀ s k, g (f s k) = g s) {keys : List K} (s : StorageState) : g (keys.foldl f s) = g s :=
  keys.foldlRecOn (motive := fun s' => g s' = g s) f rfl fun s' hs key _ => (h s' key).trans hs

theorem noncurrent_foldl_removeObject {keys : List ObjectKey} {s : StorageState} :
    (keys.foldl StorageState.removeObject s).noncurrent = s.noncurrent :=
  foldl_frame (fun s key => by
    obtain ⟨_, _, h⟩ := s.removeObject_eq key
    rw [h]) s

/-- What neither the removal of an object nor that of a version changes. -/
theorem foldl_remove_frame {α : Type} (g : StorageState → α)
    (ho : ∀ s objects blobs storedBytes, g { s with objects, blobs, storedBytes } = g s)
    (hv : ∀ s noncurrent blobs storedBytes, g { s with noncurrent, blobs, storedBytes } = g s)
    (keys : List ObjectKey) (versions : List GenerationKey) (s : StorageState) :
    g (versions.foldl StorageState.removeVersion (keys.foldl StorageState.removeObject s)) = g s := by
  refine (foldl_frame (fun s key => ?_) _).trans (foldl_frame (fun s key => ?_) s)
  · obtain ⟨_, _, h⟩ := s.removeVersion_eq key
    rw [h, hv]
  · obtain ⟨_, _, h⟩ := s.removeObject_eq key
    rw [h, ho]

theorem objects_removeObject {s : StorageState} {key : ObjectKey} :
    (s.removeObject key).objects = s.objects.erase key := by
  obtain ⟨_, _, h⟩ := s.removeObject_eq key
  rw [h]

theorem noncurrent_removeVersion {s : StorageState} {key : GenerationKey} :
    (s.removeVersion key).noncurrent = s.noncurrent.erase key := by
  obtain ⟨_, _, h⟩ := s.removeVersion_eq key
  rw [h]

variable {owned : Str → Bool} {bucket : BucketName} {name : ObjectName}

theorem objects_withoutGenerations {s : StorageState} :
    (s.withoutGenerations owned).objects = s.objects.filter fun key _ => !owned (ofLex key).1.1 := by
  have ho : (s.ownedObjects owned).keys.foldl SortedMap.erase s.objects =
      ((s.ownedObjects owned).keys.foldl StorageState.removeObject s).objects :=
    List.foldl_hom StorageState.objects fun s key => objects_removeObject.symm
  refine (foldl_frame (fun s key => ?_) _).trans
    (ho.symm.trans (foldl_erase_keys_filter s.objects fun key => owned (ofLex key).1.1))
  obtain ⟨_, _, h⟩ := s.removeVersion_eq key
  rw [h]

theorem noncurrent_withoutGenerations {s : StorageState} :
    (s.withoutGenerations owned).noncurrent = s.noncurrent.filter fun key _ => !owned (ofLex key).1.1 := by
  -- the noncurrent generations of the scope are looked up after the live ones are gone
  have hv : ∀ t : StorageState, (t.ownedVersions owned).keys.foldl SortedMap.erase t.noncurrent =
      ((t.ownedVersions owned).keys.foldl StorageState.removeVersion t).noncurrent := fun t =>
    List.foldl_hom StorageState.noncurrent fun s key => noncurrent_removeVersion.symm
  refine (hv _).symm.trans
    ((foldl_erase_keys_filter _ fun key : GenerationKey => owned (ofLex key).1.1).trans ?_)
  rw [noncurrent_foldl_removeObject]

theorem nextGeneration_withoutGenerations (s : StorageState) (owned : Str → Bool) :
    (s.withoutGenerations owned).nextGeneration = s.nextGeneration :=
  foldl_remove_frame (·.nextGeneration) (fun _ _ _ _ => rfl) (fun _ _ _ _ => rfl) _ _ s

theorem versioning_withoutGenerations {s : StorageState} :
    (s.withoutGenerations owned).versioning = s.versioning.filter fun bucket _ => !owned bucket.1 :=
  congrArg (fun versioning : SortedMap BucketName Bool => versioning.filter fun bucket _ => !owned bucket.1)
    (foldl_remove_frame (·.versioning) (fun _ _ _ _ => rfl) (fun _ _ _ _ => rfl) _ _ s)

theorem publicRead_withoutGenerations {s : StorageState} :
    (s.withoutGenerations owned).publicRead = s.publicRead.filter fun key _ => !owned (ofLex key).1.1 :=
  congrArg (fun grants : SortedSet GenerationKey => grants.filter fun key _ => !owned (ofLex key).1.1)
    (foldl_remove_frame (·.publicRead) (fun _ _ _ _ => rfl) (fun _ _ _ _ => rfl) _ _ s)

/-! ### Grants -/

/-- The number of the live generation of an object. -/
def StorageState.liveGeneration (s : StorageState) (bucket : BucketName) (name : ObjectName) : Option ℕ :=
  (s.objects.get (objectKey bucket name)).map (·.generation)

/-- Live generations are kept under the names in their metadata. -/
def Named (s : StorageState) : Prop :=
  ∀ key object, s.objects.get key = some object → key = objectKey object.bucket object.name

/-- Grants are kept at most, and only those of generations that stay live. -/
def Regrants (s s' : StorageState) : Prop :=
  Named s → ∀ bucket name generation, generationKey bucket name generation ∈ s'.publicRead →
    generationKey bucket name generation ∈ s.publicRead ∧
      (s.liveGeneration bucket name = some generation → s'.liveGeneration bucket name = some generation)

variable {s s₁ s' : StorageState}

theorem regrants_refl : Regrants s s := fun _ _ _ _ hmem => ⟨hmem, id⟩

theorem Regrants.congr (h : Regrants s s₁) (hobjects : s'.objects = s₁.objects)
    (hgrants : s'.publicRead = s₁.publicRead) : Regrants s s' := by
  unfold Regrants StorageState.liveGeneration at *
  rwa [hobjects, hgrants]

/-- A change of one object after which the grant of its old generation is gone, or the number is the same. -/
theorem regrants_of_get (key : ObjectKey) (hget : ∀ key', key' ≠ key → s'.objects.get key' = s.objects.get key')
    (hsub : ∀ key ∈ s'.publicRead, key ∈ s.publicRead)
    (hkey : Named s → ∀ bucket name object, objectKey bucket name = key → s.objects.get key = some object →
      generationKey bucket name object.generation ∈ s'.publicRead →
        (s'.objects.get key).map (·.generation) = some object.generation) : Regrants s s' := by
  intro hn bucket name generation hmem
  refine ⟨hsub _ hmem, fun hlive => ?_⟩
  unfold StorageState.liveGeneration at *
  by_cases heq : objectKey bucket name = key
  · rw [heq] at hlive ⊢
    obtain ⟨object, hobject, rfl⟩ := Option.map_eq_some_iff.1 hlive
    exact hkey hn bucket name object heq hobject hmem
  · rwa [hget _ heq]

variable {object : ObjectMetadata}

theorem Named.generationKey_eq (hn : Named s) (hget : s.objects.get (objectKey bucket name) = some object) :
    generationKey bucket name object.generation =
      generationKey object.bucket object.name object.generation := by
  obtain ⟨rfl, rfl⟩ := objectKey_inj.1 (hn _ _ hget)
  rfl

theorem regrants_applyPlannedPut (plan : StorageState.PlannedPut) (bytes : List Byte)
    (events : List StorageEvent) : Regrants s (s.applyPlannedPut plan bytes events) := by
  obtain ⟨_, _, _, h⟩ := s.applyPlannedPut_eq plan bytes events
  rw [h]
  refine regrants_of_get plan.key (fun key' hne => ?_) (fun key hmem => ?_)
    fun hn bucket name object hkey hget hmem => ?_
  · exact get_insert_of_ne _ _ hne
  · dsimp only at hmem
    cases hold : s.objects.get plan.key with
    | none => rwa [hold] at hmem
    | some =>
      rw [hold] at hmem
      exact (mem_erase.1 hmem).2
  · dsimp only at hmem
    rw [hget] at hmem
    rw [← hkey] at hget
    exact absurd (hn.generationKey_eq hget) (mem_erase.1 hmem).1

theorem Change.regrants {batch : List StorageEvent} (h : Change s object batch s') : Regrants s s' := by
  cases h with
  | write => exact regrants_applyPlannedPut _ _ _
  | @update bucket name old next rng hget hsame =>
    refine regrants_of_get (objectKey bucket name) (fun _ hne => get_insert_of_ne _ _ hne)
      (fun _ => id) fun _ _ _ live _ hlive _ => ?_
    rw [get_insert_self, Option.map_some, hsame.generation]
    rw [hget] at hlive
    cases hlive
    rfl
  | updateVersion => exact regrants_refl.congr rfl rfl
  | @archive bucket name object now hget | @drop bucket name object hget =>
    refine regrants_of_get (objectKey bucket name) (fun _ hne => get_erase_of_ne _ hne)
      (fun _ hmem => (mem_erase.1 hmem).2) fun _ bucket' name' live hkey hlive hmem => ?_
    obtain ⟨rfl, rfl⟩ := objectKey_inj.1 hkey
    rw [hget] at hlive
    cases hlive
    exact absurd rfl (mem_erase.1 hmem).1
  | dropVersion => exact fun _ _ _ _ hmem => ⟨(mem_erase.1 hmem).2, id⟩

/-- An import keeps a grant only under the number that was live. -/
theorem regrants_installImported {bytes : List Byte} : Regrants s (s.installImported object bytes) := by
  obtain ⟨_, _, h⟩ := s.installImported_eq object bytes
  rw [h]
  refine regrants_of_get (objectKey object.bucket object.name) (fun key' hne => ?_) (fun key hmem => ?_)
    fun hn bucket name old hkey hget hmem => ?_
  · exact get_insert_of_ne _ _ hne
  · dsimp only at hmem
    cases hold : s.objects.get (objectKey object.bucket object.name) with
    | none => rwa [hold] at hmem
    | some =>
      rw [hold, Option.elim_some] at hmem
      split_ifs at hmem
      · exact (mem_erase.1 hmem).2
      · exact hmem
  · dsimp only at hmem
    rw [hget, Option.elim_some] at hmem
    rw [← hkey] at hget
    split_ifs at hmem with hne
    · exact absurd (hn.generationKey_eq hget) (mem_erase.1 hmem).1
    · rw [get_insert_self, Option.map_some, not_not.1 hne]

theorem regrants_defaultContentDisposition {value : Str} :
    Regrants s (s.defaultContentDisposition bucket name value) := by
  intro _ bucket' name' generation hmem
  refine ⟨hmem, fun hlive => ?_⟩
  unfold StorageState.liveGeneration StorageState.defaultContentDisposition at *
  rw [SortedMap.modify]
  cases hget : s.objects.get (objectKey bucket name) with
  | none => exact hlive
  | some =>
    dsimp only
    rw [get_insert]
    split_ifs with hkey
    · rwa [hkey, hget] at hlive
    · exact hlive

theorem regrants_withoutGenerations : Regrants s (s.withoutGenerations owned) := by
  intro _ bucket name generation hmem
  unfold StorageState.liveGeneration
  rw [publicRead_withoutGenerations, mem_def, get_filter_eq_some] at hmem
  rw [objects_withoutGenerations, get_filter_key, if_pos (by exact hmem.2)]
  exact ⟨hmem.1, id⟩

theorem regrants_clear : Regrants s s.clear := fun _ _ _ _ hmem =>
  absurd hmem (not_mem_empty _)

theorem regrants_clearPublicRead : Regrants s (s.clearPublicRead bucket name) := by
  unfold StorageState.clearPublicRead
  cases s.get bucket name with
  | none => exact regrants_refl
  | some => exact fun _ _ _ _ hmem => ⟨(mem_erase.1 hmem).2, id⟩

end Fireemu.Storage
