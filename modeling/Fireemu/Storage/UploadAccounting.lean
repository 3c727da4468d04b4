import Fireemu.Storage.Effect

/-!
# The bytes of upload sessions

Along every run of a session of a store no call panics and `retainedUploadBytes` is exactly what all upload
sessions hold; a call that appends does not raise it beyond the limit.
-/

namespace Fireemu.Storage

open Library (SortedMap SortedSet Act)
open List Library.Act

/-- A session whose store is accounted for, with captures of such stores. -/
structure Session.Accounted (session : Session) : Prop where
  store : Storage.Accounted session.store
  captures : ∀ captured ∈ session.captures, Drawn captured

/-- What a step of a session does: a call has its effect, and a restoration that fits is made. -/
inductive Session.Moves (session : Session) : SessionStep → Session → Prop
  | command (command : Command) {store : StorageState} (h : Effect command session.store store) :
      Moves session (.command command) { session with store }
  | capture (owned : Str → Bool) : Moves session (.capture owned)
      { session with captures := session.captures ++ [session.store.captureBuckets owned] }
  | restore (owned : Str → Bool) {index : ℕ} {captured : StorageState} (hcaptured : captured ∈ session.captures)
      (hfits : uploadBytes
        (captured.restoreContent owned (session.store.withoutBuckets owned)).uploads ≤ u64Max) :
      Moves session (.restore owned index)
        { session with store := captured.restoreContent owned (session.store.withoutBuckets owned) }
  | unchanged (owned : Str → Bool) (index : ℕ) : Moves session (.restore owned index) session

theorem Session.Accounted.step {session : Session} (h : session.Accounted) (step : SessionStep) :
    ∃ session', session.step step = some session' ∧ session.Moves step session' := by
  cases step with
  | command command =>
    have he := command.effect session.store h.store
    rcases hrun : command.run session.store with ⟨f | _, s'⟩
    · obtain ⟨hf, hs'⟩ := wp_of_error he hrun
      cases f with
      | panicked => exact absurd rfl hf
      | refused => exact ⟨{ session with store := s' }, by rw [Session.step, hrun], .command command hs'⟩
    · exact ⟨{ session with store := s' }, by rw [Session.step, hrun], .command command (wp_of_ok he hrun)⟩
  | capture owned => exact ⟨_, rfl, .capture owned⟩
  | restore owned index =>
    cases hi : session.captures[index]? with
    | none => exact ⟨session, by simp [Session.step, hi], .unchanged owned index⟩
    | some captured =>
      have hrun := restoreBuckets_eq h.store owned captured
      by_cases hfits : uploadBytes
          (captured.restoreContent owned (session.store.withoutBuckets owned)).uploads ≤ u64Max
      · exact ⟨⟨captured.restoreContent owned (session.store.withoutBuckets owned), session.captures⟩,
          by simp only [Session.step, hi, hrun, if_pos hfits], .restore owned (mem_of_getElem? hi) hfits⟩
      · exact ⟨session, by simp only [Session.step, hi, hrun, if_neg hfits], .unchanged owned index⟩

variable {session : Session}

theorem Session.Accounted.moves {session' : Session} {step : SessionStep} (h : session.Accounted)
    (hm : session.Moves step session') : session'.Accounted := by
  cases hm with
  | command command he => exact ⟨he.accounted, h.captures⟩
  | capture owned =>
    have hnew := forall_mem_singleton.2 (drawn_captureBuckets h.store.drawn owned)
    exact ⟨h.store, forall_mem_append.2 ⟨h.captures, hnew⟩⟩
  | restore owned hcaptured hfits =>
    exact ⟨accounted_restoreContent (h.store.withoutBuckets owned).drawn (h.captures _ hcaptured) hfits,
      h.captures⟩
  | unchanged => exact h

theorem Session.run_cons (session : Session) (step : SessionStep) (steps : List SessionStep) :
    session.run (step :: steps) = (session.step step).bind fun session' => session'.run steps :=
  foldlM_cons

/-- A run does not panic; what every step hands on, with the steps that are left, holds at the end. -/
theorem Session.Accounted.run {P : List SessionStep → Session → Prop} (h : session.Accounted)
    (steps : List SessionStep) (hsession : P steps session)
    (hstep : ∀ (session session' : Session) (step : SessionStep) (steps : List SessionStep), session.Accounted →
      P (step :: steps) session → session.step step = some session' → session.Moves step session' →
      P steps session') :
    ∃ session', session.run steps = some session' ∧ session'.Accounted ∧ P [] session' := by
  induction steps generalizing session with
  | nil => exact ⟨session, rfl, h, hsession⟩
  | cons step steps ih =>
    obtain ⟨session₁, hrun₁, hm⟩ := h.step step
    obtain ⟨session', hrun, h', hP⟩ := ih (h.moves hm)
      (hstep session session₁ step steps h hsession hrun₁ hm)
    exact ⟨session', by rw [Session.run_cons, hrun₁]; exact hrun, h', hP⟩

theorem Session.accounted_new (seed : BitVec 64) : (Session.new seed).Accounted :=
  ⟨accounted_of_empty rfl rfl, fun _ hcaptured => absurd hcaptured not_mem_nil⟩

/-! ### Appending -/

/-- What a call that appends may do to the total. -/
def Bounded (s s' : StorageState) : Prop :=
  s.retainedUploadBytes < s'.retainedUploadBytes → s'.retainedUploadBytes ≤ s.retainedUploadLimit

section

variable {s : StorageState} (hs : Storage.Accounted s) (id : UploadId) (offset : ℕ) (chunk : List Byte)
  (now : LogicalInstant)

include hs

variable {received : ℕ} {s' : StorageState}

theorem bounded_appendUpload (h : appendUpload id offset chunk now s = (.ok received, s')) :
    Bounded s s' := by
  have ht := fun u (hget : s.uploads.get id = some u) =>
    (u.appended s.retainedUploadBytes s.retainedUploadLimit offset chunk).within.total hs hget
  refine wp_of_ok (Q := fun _ s' => Bounded s s') (E := fun _ _ => True) ?_ h
  rw [appendUpload, wp_bind, wp_get, wp_withUploadSession hs fun u hget => (ht u hget).1]
  exact ⟨fun _ => trivial, fun u hget => ⟨fun _ => trivial, fun _ =>
    ⟨fun _ _ => (ht u hget).2, fun _ _ => trivial⟩⟩⟩

theorem bounded_appendUploadOwned (h : appendUploadOwned id offset chunk now s = (.ok received, s')) :
    Bounded s s' := by
  have ht := fun u (hget : s.uploads.get id = some u) =>
    (u.adopted s.retainedUploadBytes s.retainedUploadLimit offset chunk).within.total hs hget
  refine wp_of_ok (Q := fun _ s' => Bounded s s') (E := fun _ _ => True) ?_ h
  rw [appendUploadOwned, wp_bind, wp_get, wp_bind, wp_withUploadSession hs fun u hget => (ht u hget).1]
  refine ⟨fun _ => trivial, fun u hget => ⟨fun _ => trivial, fun _ =>
    ⟨fun attempt ha => ?_, fun _ _ => trivial⟩⟩⟩
  cases attempt with
  | some => exact (ht u hget).2
  | none =>
    rw [(u.adopted _ _ offset chunk).eq_of_none ha, hs.putUpload_self hget]
    exact wp_iff.2 ⟨fun received s' h => bounded_appendUpload hs id offset chunk now h, fun _ _ _ => trivial⟩

end

/-- Whatever is done with a store, no call panics, the bytes of all sessions are accounted for exactly,
and no call that appends raises the total beyond the limit. -/
theorem retained_upload_bytes_exact (seed : BitVec 64) (steps : List SessionStep) :
    ∃ session, (Session.new seed).run steps = some session ∧
      session.store.retainedUploadBytes = uploadBytes session.store.uploads ∧
      ∀ (id : UploadId) (offset : ℕ) (chunk : List Byte) (now : LogicalInstant) (received : ℕ)
        (s' : StorageState), appendUpload id offset chunk now session.store = (.ok received, s') ∨
          appendUploadOwned id offset chunk now session.store = (.ok received, s') →
        session.store.retainedUploadBytes < s'.retainedUploadBytes →
        s'.retainedUploadBytes ≤ session.store.retainedUploadLimit := by
  obtain ⟨session, hrun, hsession, -⟩ := (Session.accounted_new seed).run (P := fun _ _ => True)
    steps trivial fun _ _ _ _ _ _ _ _ => trivial
  refine ⟨session, hrun, hsession.store.exact, fun id offset chunk now received s' happend => ?_⟩
  rcases happend with happend | happend
  · exact bounded_appendUpload hsession.store id offset chunk now happend
  · exact bounded_appendUploadOwned hsession.store id offset chunk now happend

end Fireemu.Storage
