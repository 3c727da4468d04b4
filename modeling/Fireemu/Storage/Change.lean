import Fireemu.Storage.Command

/-!
# What a call that succeeds does

Every call that announces events comes down to one of a few changes of the store (`Change`), up to the
upload sessions.  `Announces` says so of a call, and that the call depends on the admission callback
only through its answer to the batch of the change.
-/

namespace Fireemu.Storage

open Library (SortedMap SortedSet Act)
open Library.Act (bind_eq_ok)
open StorageState (putEvents)
open Library.SortedMap StorageState Library.Act

variable {now : LogicalInstant}

variable {s s' : StorageState} {id : UploadId}

/-- Two states that agree on everything but upload sessions. -/
def OnlyUploads (s s' : StorageState) : Prop :=
  s' = { s with uploads := s'.uploads, retainedUploadBytes := s'.retainedUploadBytes }

theorem onlyUploads_refl : OnlyUploads s s := rfl

/-- The bytes of a blob, if it is there. -/
def StorageState.blobLength (s : StorageState) (blob : ℕ) : ℕ :=
  ((s.blobs.get blob).map List.length).getD 0

/-- A removal touches the blobs and their count. -/
theorem StorageState.removeBlob_eq {blob : ℕ} :
    s.removeBlob blob = { s with
      blobs := s.blobs.erase blob
      storedBytes := s.storedBytes - s.blobLength blob } := by
  unfold removeBlob blobLength
  cases hget : s.blobs.get blob with
  | none =>
    rw [erase_of_get_none hget]
    rfl
  | some => rfl

theorem StorageState.removeObject_eq (s : StorageState) (key : ObjectKey) :
    ∃ blobs storedBytes, s.removeObject key = { s with
      objects := s.objects.erase key, blobs, storedBytes } := by
  unfold removeObject
  cases hget : s.objects.get key with
  | none =>
    rw [erase_of_get_none hget]
    exact ⟨_, _, rfl⟩
  | some => exact ⟨_, _, removeBlob_eq⟩

theorem StorageState.removeVersion_eq (s : StorageState) (key : GenerationKey) :
    ∃ blobs storedBytes, s.removeVersion key = { s with
      noncurrent := s.noncurrent.erase key, blobs, storedBytes } := by
  unfold removeVersion
  cases hget : s.noncurrent.get key with
  | none =>
    rw [erase_of_get_none hget]
    exact ⟨_, _, rfl⟩
  | some => exact ⟨_, _, removeBlob_eq⟩

/-- A write touches no upload session, and revokes the grant of the generation it replaces. -/
theorem StorageState.applyPlannedPut_eq (s : StorageState) (plan : PlannedPut) (bytes : List Byte)
    (events : List StorageEvent) :
    ∃ noncurrent blobs storedBytes, s.applyPlannedPut plan bytes events = { s with
      nextBlob := plan.nextBlob
      nextGeneration := plan.nextGeneration
      objects := s.objects.insert plan.key plan.object
      publicRead := (s.objects.get plan.key).elim s.publicRead fun old =>
        s.publicRead.erase (generationKey old.bucket old.name old.generation)
      events := s.events ++ events, noncurrent, blobs, storedBytes } := by
  unfold applyPlannedPut
  cases s.objects.get plan.key with
  | none => exact ⟨_, _, _, rfl⟩
  | some =>
    cases plan.archive with
    | none =>
      dsimp only
      rw [removeBlob_eq]
      exact ⟨_, _, _, rfl⟩
    | some => exact ⟨_, _, _, rfl⟩

/-- So does an import, unless the generation is the one that is live. -/
theorem StorageState.installImported_eq (s : StorageState) (object : ObjectMetadata) (bytes : List Byte) :
    ∃ blobs storedBytes, s.installImported object bytes = { s with
      nextBlob := object.blob
      nextGeneration := max s.nextGeneration object.generation
      objects := s.objects.insert (objectKey object.bucket object.name) object
      publicRead := (s.objects.get (objectKey object.bucket object.name)).elim s.publicRead fun old =>
        if old.generation ≠ object.generation then
          s.publicRead.erase (generationKey old.bucket old.name old.generation) else s.publicRead
      blobs, storedBytes } := by
  unfold installImported
  cases s.objects.get (objectKey object.bucket object.name) with
  | none => exact ⟨_, _, rfl⟩
  | some =>
    dsimp only
    rw [removeBlob_eq, Option.elim_some]
    split_ifs <;> exact ⟨_, _, rfl⟩

/-- The changes of the store, with the object they are about and the events they announce. -/
inductive Change (s : StorageState) : ObjectMetadata → List StorageEvent → StorageState → Prop
  /-- A new generation. -/
  | write {bucket : BucketName} {name : ObjectName} {digests : ObjectDigests} {metadata : NewMetadata}
      {pre : Precondition} {now : LogicalInstant} {plan : StorageState.PlannedPut} (bytes : List Byte)
      (hplan : s.planPut bucket name bytes.length digests metadata pre now = .ok plan) :
      Change s plan.object (putEvents plan) (s.applyPlannedPut plan bytes (putEvents plan))
  /-- New metadata of a live generation. -/
  | update {bucket : BucketName} {name : ObjectName} {object next : ObjectMetadata} (rng : SplitMix64)
      (hget : s.objects.get (objectKey bucket name) = some object) (hsame : next.SameGeneration object) :
      Change s next [.metadataUpdated next] { s with
        rng
        objects := s.objects.insert (objectKey bucket name) next
        events := s.events ++ [.metadataUpdated next] }
  /-- New metadata of a noncurrent generation, which announces nothing. -/
  | updateVersion {key : GenerationKey} {version : NoncurrentVersion} {next : ObjectMetadata}
      (hget : s.noncurrent.get key = some version) (hsame : next.SameGeneration version.object) :
      Change s next []
        { s with noncurrent := s.noncurrent.insert key ⟨next, version.timeDeleted⟩ }
  /-- A live generation becomes noncurrent. -/
  | archive {bucket : BucketName} {name : ObjectName} {object : ObjectMetadata} (now : LogicalInstant)
      (hget : s.objects.get (objectKey bucket name) = some object) :
      Change s object [.archived object now] { s with
        objects := s.objects.erase (objectKey bucket name)
        publicRead := s.publicRead.erase (generationKey bucket name object.generation)
        noncurrent := s.noncurrent.insert (generationKey bucket name object.generation) ⟨object, now⟩
        events := s.events ++ [.archived object now] }
  /-- A live generation goes. -/
  | drop {bucket : BucketName} {name : ObjectName} {object : ObjectMetadata}
      (hget : s.objects.get (objectKey bucket name) = some object) :
      Change s object [.deleted object none none] { s with
        objects := s.objects.erase (objectKey bucket name)
        publicRead := s.publicRead.erase (generationKey bucket name object.generation)
        blobs := s.blobs.erase object.blob
        storedBytes := s.storedBytes - s.blobLength object.blob
        events := s.events ++ [.deleted object none none] }
  /-- A noncurrent generation goes. -/
  | dropVersion {key : GenerationKey} {version : NoncurrentVersion}
      (hget : s.noncurrent.get key = some version) :
      Change s version.object [.deleted version.object (some version.timeDeleted) none] { s with
        noncurrent := s.noncurrent.erase key
        publicRead := s.publicRead.erase key
        blobs := s.blobs.erase version.object.blob
        storedBytes := s.storedBytes - s.blobLength version.object.blob
        events := s.events ++ [.deleted version.object (some version.timeDeleted) none] }

variable {bytes : List Byte} {name : ObjectName} {pre : Precondition} {generation : ℕ}

theorem StorageState.events_applyPlannedPut {plan : StorageState.PlannedPut} {events : List StorageEvent} :
    (s.applyPlannedPut plan bytes events).events = s.events ++ events := by
  obtain ⟨_, _, _, h⟩ := s.applyPlannedPut_eq plan bytes events
  rw [h]

variable {object : ObjectMetadata} {f : Failure}

/-- The log grows by the events of a change. -/
theorem Change.events {batch : List StorageEvent} (h : Change s object batch s') :
    s'.events = s.events ++ batch := by
  cases h with
  | write => exact events_applyPlannedPut
  | update => rfl
  | updateVersion => exact (List.append_nil _).symm
  | archive => rfl
  | drop => rfl
  | dropVersion => rfl

/-- A call with a callback. -/
abbrev Call := (R : Type) → (List StorageEvent → Except StorageError R) → Store (ObjectMetadata × R)

/-- What a call that succeeds has done. -/
def Announces (call : Call) : Prop :=
  ∀ (R : Type) (admits : List StorageEvent → Except StorageError R) (s s' : StorageState)
    (object : ObjectMetadata) (r : R), call R admits s = (.ok (object, r), s') →
    ∃ batch s₁, Change s object batch s₁ ∧ OnlyUploads s₁ s' ∧ admits batch = .ok r ∧
      ∀ (R' : Type) (admits' : List StorageEvent → Except StorageError R') (r' : R'),
        admits' batch = .ok r' → call R' admits' s = (.ok (object, r'), s')

variable {bucket : BucketName} {metadata : NewMetadata} {patch : MetadataPatch}

theorem announces_putPrepared {prepared : PreparedObject} :
    Announces fun _ admits => putPreparedWithAdmission admits bucket name prepared metadata pre now := by
  intro R admits s s' object r h
  simp [putPreparedWithAdmission] at h
  obtain ⟨hsize, plan, hplan, ha, rfl, rfl⟩ := h
  refine ⟨_, _, .write _ hplan, onlyUploads_refl, ha, fun R' admits' r' h' => ?_⟩
  simp [putPreparedWithAdmission, hsize, hplan, h']

theorem announces_put :
    Announces fun _ admits => putWithAdmission admits bucket name bytes metadata pre now := by
  intro R admits s s' object r h
  simp [putWithAdmission] at h
  obtain ⟨hsize, hput⟩ := h
  obtain ⟨batch, s₁, hc, hs₁, ha, hall⟩ :=
    announces_putPrepared R admits s s' object r hput
  refine ⟨batch, s₁, hc, hs₁, ha, fun R' admits' r' h' => ?_⟩
  simp [putWithAdmission, hsize, hall R' admits' r' h']

theorem announces_updateMetadata :
    Announces fun _ admits => updateMetadataWithAdmission admits bucket name patch pre now := by
  intro R admits s s' object r h
  simp [updateMetadataWithAdmission] at h
  obtain ⟨⟨_, hpre⟩, live, hget, hnext, ha, rfl⟩ := h
  rw [hget] at hpre
  refine ⟨_, _, .update s.rng hget (patched_sameGeneration hnext), onlyUploads_refl, ha,
    fun R' admits' r' h' => ?_⟩
  simp [updateMetadataWithAdmission, hpre, hget, hnext, h']

theorem announces_updateGenerationMetadata :
    Announces fun _ admits =>
      updateGenerationMetadataWithAdmission admits bucket name generation patch pre now := by
  intro R admits s s' object r h
  by_cases hlive : (s.objects.get (objectKey bucket name)).any fun live => live.generation = generation
  · simp [updateGenerationMetadataWithAdmission, hlive] at h
    obtain ⟨batch, s₁, hc, hs₁, ha, hall⟩ :=
      announces_updateMetadata R admits s s' object r h
    refine ⟨batch, s₁, hc, hs₁, ha, fun R' admits' r' h' => ?_⟩
    simp [updateGenerationMetadataWithAdmission, hlive, hall R' admits' r' h']
  · simp [updateGenerationMetadataWithAdmission, hlive] at h
    obtain ⟨version, hget, ⟨_, hpre⟩, hnext, ha, rfl⟩ := h
    refine ⟨_, _, .updateVersion hget (patched_sameGeneration hnext), onlyUploads_refl, ha,
      fun R' admits' r' h' => ?_⟩
    simp [updateGenerationMetadataWithAdmission, hlive, hget, hpre, hnext, h']

theorem announces_addDownloadToken :
    Announces fun _ admits => addDownloadTokenWithAdmission admits bucket name now := by
  intro R admits s s' object r h
  simp [addDownloadTokenWithAdmission] at h
  obtain ⟨live, hget, hroom, metageneration, hbump, ha, rfl, rfl⟩ := h
  refine ⟨_, _, .update (tokenFrom s.rng).2 hget ⟨rfl, rfl, rfl, rfl, rfl⟩, onlyUploads_refl, ha,
    fun R' admits' r' h' => ?_⟩
  simp [addDownloadTokenWithAdmission, hget, hroom, hbump, h']

theorem announces_delete : Announces fun _ admits => deleteWithAdmission admits bucket name pre now := by
  intro R admits s s' object r h
  by_cases hv : s.versioned bucket
  · simp [deleteWithAdmission, hv] at h
    obtain ⟨⟨_, hpre⟩, hget, ha, rfl⟩ := h
    rw [hget] at hpre
    refine ⟨_, _, .archive now hget, onlyUploads_refl, ha, fun R' admits' r' h' => ?_⟩
    simp [deleteWithAdmission, hv, hpre, hget, h']
  · simp [deleteWithAdmission, hv, removeBlob_eq] at h
    obtain ⟨⟨_, hpre⟩, hget, ha, rfl⟩ := h
    rw [hget] at hpre
    refine ⟨_, _, .drop hget, onlyUploads_refl, ha, fun R' admits' r' h' => ?_⟩
    simp [deleteWithAdmission, hv, hpre, hget, h', removeBlob_eq]

theorem announces_deleteGeneration :
    Announces fun _ admits => deleteGenerationWithAdmission admits bucket name generation pre := by
  intro R admits s s' object r h
  by_cases hlive : (s.objects.get (objectKey bucket name)).any fun live => live.generation = generation
  · simp [deleteGenerationWithAdmission, hlive, removeBlob_eq] at h
    obtain ⟨⟨_, hpre⟩, hget, ha, rfl⟩ := h
    rw [hget] at hpre
    have hg : object.generation = generation := by simpa [hget] using hlive
    refine ⟨_, _, .drop hget, onlyUploads_refl, ha, fun R' admits' r' h' => ?_⟩
    simp [deleteGenerationWithAdmission, hg, hpre, hget, h', removeBlob_eq]
  · simp [deleteGenerationWithAdmission, hlive, removeBlob_eq] at h
    obtain ⟨version, hget, ⟨_, hpre⟩, ha, rfl, rfl⟩ := h
    refine ⟨_, _, .dropVersion hget, onlyUploads_refl, ha, fun R' admits' r' h' => ?_⟩
    simp [deleteGenerationWithAdmission, hlive, hget, hpre, h', removeBlob_eq]

theorem announces_copy {source : BucketName × ObjectName × Option ℕ} {destination : BucketName × ObjectName}
    {metadata : Option NewMetadata} :
    Announces fun _ admits =>
      copyGenerationWithAdmission admits source destination metadata pre now := by
  intro R admits s s' object r h
  simp [copyGenerationWithAdmission] at h
  obtain ⟨copied, hs, plan, hplan, ha, rfl, rfl⟩ := h
  refine ⟨_, _, .write _ hplan, onlyUploads_refl, ha, fun R' admits' r' h' => ?_⟩
  simp [copyGenerationWithAdmission, hs, hplan, h']

/-! ### Uploads -/

@[simp] theorem uploadMut_eq_ok {u : UploadSession} :
    uploadMut id now s = (.ok u, s') ↔ s.uploads.get id = some u ∧ u.expired now = false ∧ s = s' := by
  unfold uploadMut
  cases hget : s.uploads.get id with
  | none => simp
  | some v =>
    by_cases he : v.expired now
    · cases hsub : checkedSub s.retainedUploadBytes v.received.length with
      | none | some =>
        simp only [he, if_true, hsub, Prod.mk.injEq, reduceCtorEq, false_and, Option.some.injEq, false_iff]
        rintro ⟨rfl, h, -⟩
        rw [he] at h
        cases h
    · have hf : v.expired now = false := by simpa using he
      simp only [hf, Bool.false_eq_true, if_false, Prod.mk.injEq, Except.ok.injEq, Option.some.injEq]
      constructor
      · rintro ⟨rfl, rfl⟩
        exact ⟨rfl, hf, rfl⟩
      · rintro ⟨rfl, -, rfl⟩
        exact ⟨rfl, rfl⟩

/-- A lookup that fails leaves an expired session out, and nothing else. -/
theorem uploadMut_eq_error (h : uploadMut id now s = (.error f, s')) :
    (f = .refused .uploadNotFound ∧ s.uploads.get id = none ∧ s' = s) ∨
      ∃ u, s.uploads.get id = some u ∧ u.expired now = true ∧
        ((f = .panicked ∧ s.retainedUploadBytes < u.received.length) ∨
          f = .refused .uploadNotFound ∧ u.received.length ≤ s.retainedUploadBytes ∧ s' = { s with
            uploads := s.uploads.erase id
            retainedUploadBytes := s.retainedUploadBytes - u.received.length }) := by
  unfold uploadMut at h
  cases hget : s.uploads.get id with
  | none =>
    rw [hget] at h
    cases h
    exact .inl ⟨rfl, rfl, rfl⟩
  | some u =>
    rw [hget] at h
    by_cases he : u.expired now
    · refine .inr ⟨u, rfl, he, ?_⟩
      simp only [he, if_true] at h
      by_cases hle : u.received.length ≤ s.retainedUploadBytes
      · rw [checkedSub_of_le hle] at h
        cases h
        exact .inr ⟨rfl, hle, rfl⟩
      · rw [checkedSub, if_neg hle] at h
        cases h
        exact .inl ⟨rfl, not_le.1 hle⟩
    · simp only [he, Bool.false_eq_true, if_false] at h
      cases h

theorem withUploadAccounting_eq_ok {α : Type} {change : Store α} {a : α} :
    withUploadAccounting id change s = (.ok a, s') ↔ ∃ s₁ retained, change s = (.ok a, s₁) ∧
      accountUpload s.retainedUploadBytes (s.receivedBy id) (s₁.receivedBy id) = some retained ∧
      s' = { s₁ with retainedUploadBytes := retained } := by
  unfold withUploadAccounting
  rcases change s with ⟨f | b, s₁⟩
  · cases f with
    | panicked => simp
    | refused =>
      cases ha : accountUpload s.retainedUploadBytes (s.receivedBy id) (s₁.receivedBy id) <;>
        simp [ha]
  · cases ha : accountUpload s.retainedUploadBytes (s.receivedBy id) (s₁.receivedBy id) with
    | none => simp [ha]
    | some retained =>
      simp only [ha, Prod.mk.injEq, Except.ok.injEq]
      constructor
      · rintro ⟨rfl, rfl⟩
        exact ⟨s₁, retained, ⟨rfl, rfl⟩, ha, rfl⟩
      · rintro ⟨_, _, ⟨rfl, rfl⟩, h, rfl⟩
        rw [ha] at h
        cases h
        exact ⟨rfl, rfl⟩

theorem withUploadAccounting_eq_error {α : Type} {change : Store α}
    (h : withUploadAccounting id change s = (.error f, s')) :
    ∃ s₁, (change s = (.error .panicked, s₁) ∧ f = .panicked) ∨
      (accountUpload s.retainedUploadBytes (s.receivedBy id) (s₁.receivedBy id) = none ∧
        (∃ r, change s = (r, s₁)) ∧ f = .panicked) ∨ ∃ retained, change s = (.error f, s₁) ∧
        accountUpload s.retainedUploadBytes (s.receivedBy id) (s₁.receivedBy id) = some retained ∧
        s' = { s₁ with retainedUploadBytes := retained } := by
  unfold withUploadAccounting at h
  rcases hrun : change s with ⟨r, s₁⟩
  refine ⟨s₁, ?_⟩
  rw [hrun] at h
  rcases r with (_ | _) | _
  case error.panicked =>
    cases h
    exact .inl ⟨rfl, rfl⟩
  all_goals
    dsimp only at h
    cases ha : accountUpload s.retainedUploadBytes (s.receivedBy id) (s₁.receivedBy id) with
    | none =>
      rw [ha] at h
      cases h
      exact .inr (.inl ⟨rfl, ⟨_, rfl⟩, rfl⟩)
    | some retained =>
      rw [ha] at h
      cases h <;> exact .inr (.inr ⟨retained, rfl, rfl, rfl⟩)

@[simp] theorem StorageState.modifyUpload_setUpload {s : StorageState} {id : UploadId} {u : UploadSession}
    {f : UploadSession → UploadSession} : (s.setUpload id u).modifyUpload id f = s.setUpload id (f u) := by
  unfold setUpload modifyUpload
  congr 1
  refine ext_get fun k => ?_
  simp only [get_modify, get_insert, if_true]
  split_ifs <;> rfl

/-- Writes do not touch the upload sessions. -/
@[simp] theorem StorageState.applyPlannedPut_setUpload {s : StorageState} {plan : StorageState.PlannedPut}
    {bytes : List Byte} {events : List StorageEvent} {id : UploadId} {u : UploadSession} :
    (s.setUpload id u).applyPlannedPut plan bytes events =
      (s.applyPlannedPut plan bytes events).setUpload id u := by
  unfold applyPlannedPut setUpload
  cases s.objects.get plan.key with
  | none => rfl
  | some =>
    cases plan.archive with
    | none =>
      dsimp only
      rw [removeBlob_eq, removeBlob_eq]
      rfl
    | some => rfl

/-- A finished session. -/
def UploadSession.commit (u : UploadSession) (object : ObjectMetadata) : UploadSession :=
  { u with received := [], state := .committed object }

section

variable {R : Type} {admits : List StorageEvent → Except StorageError R}

theorem finalizeInner_eq_ok {r : R} :
    finalizeUploadWithAdmissionInner admits id now s = (.ok (object, r), s') ↔
      ∃ u plan, s.uploads.get id = some u ∧ u.expired now = false ∧ u.state = .receiving ∧ u.mismatch = none ∧
        s.planPut u.bucket u.name u.received.length u.digests u.metadata u.precondition now = .ok plan ∧
        admits (putEvents plan) = .ok r ∧ object = plan.object ∧
        s' = (s.applyPlannedPut plan u.received (putEvents plan)).setUpload id (u.commit plan.object) := by
  simp only [finalizeUploadWithAdmissionInner, bind_eq_ok, uploadMut_eq_ok]
  constructor
  · rintro ⟨u, _, ⟨hget, hf, rfl⟩, _, _, hrequired, h⟩
    obtain ⟨hstate, rfl⟩ := require_eq_ok.1 hrequired
    cases hm : u.mismatch with
    | some => simp [hm] at h
    | none =>
      simp only [hm, get_bind_apply] at h
      cases hplan : s.planPut u.bucket u.name u.received.length u.digests u.metadata u.precondition now with
      | error e => cases e <;> simp [hplan] at h
      | ok plan =>
        simp [hplan, hget] at h
        obtain ⟨ha, rfl, rfl⟩ := h
        exact ⟨u, plan, hget, hf, hstate, hm, hplan, ha, rfl, rfl⟩
  · rintro ⟨u, plan, hget, hf, hstate, hm, hplan, ha, rfl, rfl⟩
    refine ⟨u, s, ⟨hget, hf, rfl⟩, ⟨⟩, s, require_eq_ok.2 ⟨hstate, rfl⟩, ?_⟩
    simp [hm, hplan, hget, ha]
    rfl

/-- A finalization that fails leaves the store as it was, or aborts the session, or drops it because it
has expired; it panics only if an expired session holds more than is accounted for. -/
theorem finalizeInner_eq_error (h : finalizeUploadWithAdmissionInner admits id now s = (.error f, s')) :
    (f ≠ .panicked ∧ ((s' = s ∧ (∀ u, s.uploads.get id = some u → u.state = .receiving →
        f = .refused .storedBytesLimit ∨ ∃ events e, admits events = .error e)) ∨
      (∃ u, s.uploads.get id = some u ∧ u.state = .receiving ∧ s' = s.setUpload id u.abort) ∨
      ∃ u, s.uploads.get id = some u ∧ u.expired now = true ∧ s' = { s with
        uploads := s.uploads.erase id
        retainedUploadBytes := s.retainedUploadBytes - u.received.length })) ∨
    ∃ u, s.uploads.get id = some u ∧ s.retainedUploadBytes < u.received.length := by
  rcases bind_eq_error.1 h with hl | ⟨u, s₁, hl, h⟩
  · rcases uploadMut_eq_error hl with ⟨rfl, hnone, rfl⟩ | ⟨u, hget, he, ⟨-, hs⟩ | ⟨rfl, -, rfl⟩⟩
    · exact .inl ⟨by simp, .inl ⟨rfl, fun u hget => by rw [hnone] at hget; cases hget⟩⟩
    · exact .inr ⟨u, hget, hs⟩
    · exact .inl ⟨by simp, .inr (.inr ⟨u, hget, he, rfl⟩)⟩
  obtain ⟨hget, hf, rfl⟩ := uploadMut_eq_ok.1 hl
  refine .inl ?_
  rcases bind_eq_error.1 h with hrequired | ⟨_, s₁, hrequired, h⟩
  · obtain ⟨hstate, rfl, rfl⟩ := require_eq_error.1 hrequired
    refine ⟨by simp, .inl ⟨rfl, fun v hv hreceiving => absurd hreceiving ?_⟩⟩
    rw [hget] at hv
    cases hv
    exact hstate
  obtain ⟨hstate, rfl⟩ := require_eq_ok.1 hrequired
  cases hm : u.mismatch with
  | some =>
    simp [hm] at h
    exact ⟨by simp [h.1], .inr (.inl ⟨u, hget, hstate, h.2.symm⟩)⟩
  | none =>
    simp only [hm, get_bind_apply] at h
    -- the session of a failed plan is aborted unless the stored-byte bound is at fault
    cases hplan : s.planPut u.bucket u.name u.received.length u.digests u.metadata u.precondition now with
    | error error =>
      have habort : s.modifyUpload id UploadSession.abort = s.setUpload id u.abort := by
        unfold StorageState.modifyUpload StorageState.setUpload SortedMap.modify
        rw [hget]
      rw [hplan] at h
      cases error <;> simp [habort] at h <;> refine ⟨by simp [h.1], ?_⟩ <;>
        first
        | exact .inl ⟨h.2.symm, fun _ _ _ => .inl h.1⟩
        | exact .inr (.inl ⟨u, hget, hstate, h.2.symm⟩)
    | ok =>
      simp only [hplan] at h
      rcases bind_eq_error.1 h with ha | ⟨r, s₁, ha, h⟩
      · obtain ⟨_, hrefused, rfl, rfl⟩ := refuse_eq_error.1 ha
        exact ⟨by simp, .inl ⟨rfl, fun _ _ _ => .inr ⟨_, _, hrefused⟩⟩⟩
      · obtain ⟨-, rfl⟩ := refuse_eq_ok.1 ha
        rcases bind_eq_error.1 h with hget' | ⟨v, s₁, hget', h⟩
        · cases hget'
        · cases hget'
          rcases bind_eq_error.1 h with hnone | ⟨v, s₁, -, h⟩
          · rw [orElse_eq_error, hget] at hnone
            cases hnone.1
          · cases h

end

theorem announces_finalizeUpload : Announces fun _ admits => finalizeUploadWithAdmission admits id now := by
  intro R admits s s' object r h
  obtain ⟨s₁, retained, hi, ha, rfl⟩ := withUploadAccounting_eq_ok.1 h
  obtain ⟨u, plan, hget, hf, hstate, hm, hplan, hanswer, rfl, rfl⟩ :=
    finalizeInner_eq_ok.1 hi
  refine ⟨_, _, .write _ hplan, rfl, hanswer, fun R' admits' r' h' => ?_⟩
  exact withUploadAccounting_eq_ok.2 ⟨_, retained, finalizeInner_eq_ok.2 ⟨u, plan, hget, hf, hstate,
    hm, hplan, h', rfl, rfl⟩, ha, rfl⟩

/-! ### Any call -/

theorem reserved_eq_ok {R : Type} {call : Store (ObjectMetadata × R)} {reservation : Option R} :
    reserved call s = (.ok (object, reservation), s') ↔
      ∃ r, call s = (.ok (object, r), s') ∧ reservation = some r := by
  unfold reserved
  rw [bind_eq_ok]
  constructor
  · rintro ⟨⟨object', r⟩, s₁, hcall, h⟩
    cases h
    exact ⟨r, hcall, rfl⟩
  · rintro ⟨r, hcall, rfl⟩
    exact ⟨_, _, hcall, rfl⟩

theorem reserved_eq_error {R : Type} {call : Store (ObjectMetadata × R)} :
    reserved call s = (.error f, s') ↔ call s = (.error f, s') := by
  unfold reserved
  rw [bind_eq_error]
  constructor
  · rintro (h | ⟨_, _, -, h⟩)
    · exact h
    · cases h
  · exact .inl

/-- What a call that succeeds has done, if it asked for admission or not. -/
def Mutation.Announces (mutation : Mutation) : Prop :=
  ∀ (R : Type) (admits : List StorageEvent → Except StorageError R) (s s' : StorageState)
    (object : ObjectMetadata) (reservation : Option R),
    mutation.run admits s = (.ok (object, reservation), s') → (reservation = none ∧ s' = s ∧
      ∀ (R' : Type) (admits' : List StorageEvent → Except StorageError R'),
        mutation.run admits' s = (.ok (object, none), s)) ∨
    ∃ r batch s₁, reservation = some r ∧ Change s object batch s₁ ∧ OnlyUploads s₁ s' ∧ admits batch = .ok r ∧
      ∀ (R' : Type) (admits' : List StorageEvent → Except StorageError R') (r' : R'),
        admits' batch = .ok r' → mutation.run admits' s = (.ok (object, some r'), s')

theorem Announces.reserved {call : Call} {mutation : Mutation} (h : Announces call)
    (hrun : ∀ (R : Type) (admits : List StorageEvent → Except StorageError R),
      mutation.run admits = reserved (call R admits)) : mutation.Announces := by
  intro R admits s s' object reservation hok
  rw [hrun, reserved_eq_ok] at hok
  obtain ⟨r, hcall, rfl⟩ := hok
  obtain ⟨batch, s₁, hc, hs₁, ha, hall⟩ := h R admits s s' object r hcall
  refine .inr ⟨r, batch, s₁, rfl, hc, hs₁, ha, fun R' admits' r' h' => ?_⟩
  rw [hrun, reserved_eq_ok]
  exact ⟨r', hall R' admits' r' h', rfl⟩

theorem announces_removeDownloadToken {token : Str} :
    (Mutation.removeDownloadToken bucket name token now).Announces := by
  intro R admits s s' object reservation h
  simp only [Mutation.run, removeDownloadTokenWithAdmission, get_bind_apply, orElse_bind_eq_ok] at h
  obtain ⟨live, hget, h⟩ := h
  by_cases he : live.downloadTokens.isEmpty
  · simp only [he, if_true, pure_apply, Prod.mk.injEq, Except.ok.injEq] at h
    obtain ⟨⟨rfl, rfl⟩, rfl⟩ := h
    refine .inl ⟨rfl, rfl, fun R' admits' => ?_⟩
    simp only [Mutation.run, removeDownloadTokenWithAdmission, get_bind_apply, orElse_bind_eq_ok]
    exact ⟨live, hget, by simp only [he, if_true, pure_apply]⟩
  · simp only [he, Bool.false_eq_true, if_false, refuse_bind_eq_ok, orElse_bind_eq_ok,
      modify_bind_apply, pure_apply, Prod.mk.injEq, Except.ok.injEq] at h
    obtain ⟨metageneration, hbump, tokens, ht, r, ha, ⟨rfl, rfl⟩, rfl⟩ := h
    refine .inr ⟨r, _, _, rfl, .update _ hget ⟨rfl, rfl, rfl, rfl, rfl⟩, onlyUploads_refl, ha,
      fun R' admits' r' h' => ?_⟩
    simp only [Mutation.run, removeDownloadTokenWithAdmission, get_bind_apply, orElse_bind_eq_ok]
    refine ⟨live, hget, ?_⟩
    simp only [he, Bool.false_eq_true, if_false, refuse_bind_eq_ok, orElse_bind_eq_ok]
    exact ⟨metageneration, hbump, tokens, ht, r', h', rfl⟩

theorem Mutation.announces (mutation : Mutation) : mutation.Announces := by
  cases mutation with
  | put => exact announces_put.reserved fun _ _ => rfl
  | putPrepared => exact announces_putPrepared.reserved fun _ _ => rfl
  | updateMetadata => exact announces_updateMetadata.reserved fun _ _ => rfl
  | updateGenerationMetadata =>
    exact announces_updateGenerationMetadata.reserved
      fun _ _ => rfl
  | addDownloadToken => exact announces_addDownloadToken.reserved fun _ _ => rfl
  | removeDownloadToken => exact announces_removeDownloadToken
  | delete => exact announces_delete.reserved fun _ _ => rfl
  | deleteGeneration => exact announces_deleteGeneration.reserved fun _ _ => rfl
  | copy => exact announces_copy.reserved fun _ _ => rfl
  | finalizeUpload => exact announces_finalizeUpload.reserved fun _ _ => rfl

end Fireemu.Storage
