import Fireemu.Storage.Guard

/-!
# Refusals and admitted events

A call that is refused changes nothing but, when it finalizes an upload, the session of that upload,
which may expire or be aborted.  A call that succeeds appends to the event log exactly the batch that
it passed to the admission callback.

To observe the batch, a callback is made to return it with its own answer (`recording`); a call
depends on a callback only through its answer to that batch (`Mutation.announces`).
-/

namespace Fireemu.Storage

open Library (SortedMap SortedSet Act)
open Library.SortedMap

/-- The callback that also returns what it was asked. -/
def recording {R : Type} (admits : List StorageEvent → Except StorageError R) :
    List StorageEvent → Except StorageError (R × List StorageEvent) :=
  fun events => (admits events).map fun r => (r, events)

/-- What a refused call leaves behind. -/
structure Refused (mutation : Mutation) (s s' : StorageState) : Prop where
  frame : s' = { s with uploads := s'.uploads, retainedUploadBytes := s'.retainedUploadBytes }
  uploads : ∀ id, s'.uploads.get id = s.uploads.get id ∨ ∃ u, s.uploads.get id = some u ∧
    ((u.state = .receiving ∧ s'.uploads.get id = some u.abort) ∨
      ∃ now, mutation = .finalizeUpload id now ∧ u.expired now = true ∧ s'.uploads.get id = none)

theorem refused_refl {mutation : Mutation} {s : StorageState} : Refused mutation s s :=
  ⟨rfl, fun _ => .inl rfl⟩

/-! ### Refusals -/

section

variable {R : Type} {admits : List StorageEvent → Except StorageError R} {s s' : StorageState}
  {e : StorageError}

/-- A refused finalization touches the session of the upload at most. -/
theorem refused_finalizeUpload {id : UploadId} {now : LogicalInstant}
    (h : finalizeUploadWithAdmission admits id now s = (.error (.refused e), s')) :
    Refused (.finalizeUpload id now) s s' := by
  obtain ⟨s₁, ⟨-, hf⟩ | ⟨-, -, hf⟩ | ⟨retained, hi, ha, rfl⟩⟩ := withUploadAccounting_eq_error h
  · cases hf
  · cases hf
  rcases finalizeInner_eq_error hi with
    ⟨-, ⟨rfl, -⟩ | ⟨u, hget, hstate, rfl⟩ | ⟨u, hget, he, rfl⟩⟩ | ⟨u, hget, hs⟩
  · exact ⟨rfl, fun _ => .inl rfl⟩
  · refine ⟨rfl, fun k => ?_⟩
    by_cases hk : k = id
    · subst hk
      exact .inr ⟨u, hget, .inl ⟨hstate, get_insert_self _ _ _⟩⟩
    · exact .inl (get_insert_of_ne _ _ hk)
  · refine ⟨rfl, fun k => ?_⟩
    by_cases hk : k = id
    · subst hk
      exact .inr ⟨u, hget, .inr ⟨now, rfl, he, get_erase_self _ _⟩⟩
    · exact .inl (get_erase_of_ne _ hk)
  · -- what the session holds would have been accounted for before it was looked up
    unfold accountUpload checkedSub StorageState.receivedBy at ha
    simp [hget, not_le.2 hs] at ha

/-- A refused call leaves the store as it was, up to the session it finalizes. -/
theorem Mutation.refused {mutation : Mutation} (h : mutation.run admits s = (.error (.refused e), s')) :
    Refused mutation s s' := by
  by_cases hf : ∃ id now, mutation = .finalizeUpload id now
  · obtain ⟨id, now, rfl⟩ := hf
    exact refused_finalizeUpload (reserved_eq_error.1 h)
  · push Not at hf
    obtain ⟨-, rfl⟩ := Act.wp_of_error (Mutation.guarded hf s) h
    exact refused_refl

end

/-! ### Admitted events -/

/-- A refused call changes nothing but the session it finalizes, which may expire or be aborted; a call
that succeeds records exactly the events it passed to the admission callback. -/
theorem refusal_or_admitted_events (mutation : Mutation) {R : Type}
    (admits : List StorageEvent → Except StorageError R) (s s' : StorageState) :
    (∀ e, mutation.run admits s = (.error (.refused e), s') → Refused mutation s s') ∧
      ∀ object reservation, mutation.run admits s = (.ok (object, reservation), s') →
        ∃ passed : Option (R × List StorageEvent),
          mutation.run (recording admits) s = (.ok (object, passed), s') ∧ reservation = passed.map Prod.fst ∧
          s'.events = s.events ++ (passed.map Prod.snd).getD [] := by
  refine ⟨fun e h => Mutation.refused h, fun object reservation h => ?_⟩
  rcases mutation.announces R admits s s' object reservation h with
    ⟨rfl, rfl, hall⟩ | ⟨r, batch, s₁, rfl, hchange, hs₁, hanswer, hall⟩
  · exact ⟨none, hall _ _, rfl, (List.append_nil _).symm⟩
  · refine ⟨some (r, batch), hall _ _ (r, batch) ?_, rfl, ?_⟩
    · unfold recording
      rw [hanswer]
      rfl
    · rw [hs₁]
      exact hchange.events

/-- An object to import, under a generation number. -/
def sampleImport (generation : ℕ) : ImportedObject where
  bucket := sampleBucket
  name := sampleName
  generation
  metageneration := 1
  contentType := []
  contentDisposition := none
  contentEncoding := none
  contentLanguage := none
  cacheControl := none
  custom := SortedMap.empty
  customDefined := false
  md5 := none
  crc32c := none
  size := none
  timeCreated := 0
  updated := 0
  downloadTokens := []

/-- A store with one object. -/
def filledStore : StorageState := (insertImported (sampleImport 1) [0] (StorageState.new 0)).2

/-- The deletion of an object. -/
def sampleDelete : Mutation := .delete sampleBucket sampleName ⟨none, none, none, none⟩ 0

/-- Its deletion under the number of another generation. -/
def staleDelete : Mutation := .delete sampleBucket sampleName ⟨some 2, none, none, none⟩ 0

/-- On a filled store the second deletion is refused, and the first one records an event. -/
theorem refusal_or_admitted_events_of_deletes :
    (∃ e s', staleDelete.run (fun _ => .ok ()) filledStore = (.error (.refused e), s') ∧
      Refused staleDelete filledStore s') ∧
    ∃ object s' events, sampleDelete.run (fun _ => .ok ()) filledStore = (.ok (object, some ()), s') ∧
      s'.events = filledStore.events ++ events ∧ s'.events.length = 1 := by
  constructor
  · obtain ⟨e, s', hstale⟩ : ∃ e s', staleDelete.run (fun _ => .ok ()) filledStore =
        (.error (.refused e), s') := ⟨_, _, rfl⟩
    exact ⟨e, s', hstale, (refusal_or_admitted_events staleDelete (fun _ => .ok ()) _ _).1 e hstale⟩
  · obtain ⟨object, s', hok, hlength⟩ : ∃ object s',
        sampleDelete.run (fun _ => .ok ()) filledStore = (.ok (object, some ()), s') ∧
          s'.events.length = 1 := ⟨_, _, rfl, rfl⟩
    obtain ⟨passed, -, -, hevents⟩ :=
      (refusal_or_admitted_events sampleDelete (fun _ => .ok ()) _ _).2 _ _ hok
    exact ⟨object, s', _, hok, hevents, hlength⟩

end Fireemu.Storage
