import Fireemu.Storage.UploadAccounting

/-!
# What an upload assembles

Chunks of a source, at any offsets and in any order, with overlaps, repetitions and refusals: as long as
the session receives, it holds a prefix of the source and the digests of exactly that prefix
(`UploadSession.Assembles`), and this is what a finalization commits.
-/

namespace Fireemu.Storage

open Library (SortedMap SortedSet Act)
open StorageState (putEvents)
open List Library.SortedMap Library.Act

variable {u : UploadSession} {id : UploadId} {s : StorageState} {now : LogicalInstant}

variable {source : List Byte}

/-! ### Sessions -/

/-- While it receives, a session holds a prefix of the source and the digests of this prefix. -/
def UploadSession.Assembles (source : List Byte) (u : UploadSession) : Prop :=
  u.state = .receiving → u.received <+: source ∧ u.md5 = Md5.new.update u.received ∧
    u.crc32c = Crc32c.new.update u.received

variable {chunk : List Byte} {limit offset retained : ℕ} {command : Command} {s' : StorageState}

/-- What is new in a chunk continues a prefix. -/
theorem isPrefix_append_drop {received : List Byte} (hreceived : received <+: source)
    (hchunk : chunk <+: source.drop offset) (hoffset : offset ≤ received.length) :
    received ++ chunk.drop (received.length - offset) <+: source := by
  obtain ⟨rest, rfl⟩ := hreceived
  rw [prefix_append_right_inj]
  have hdrop := hchunk.drop (received.length - offset)
  rwa [drop_drop, Nat.add_sub_cancel' hoffset, drop_left] at hdrop

theorem UploadSession.Assembles.digests (h : u.Assembles source) (hstate : u.state = .receiving) :
    u.digests = ObjectDigests.new u.received := by
  obtain ⟨-, hmd5, hcrc32c⟩ := h hstate
  rw [UploadSession.digests, hmd5, hcrc32c]
  rfl

theorem UploadSession.Assembles.extend (h : u.Assembles source) (hchunk : chunk <+: source.drop offset)
    (hoffset : offset ≤ u.received.length) :
    (u.extend (chunk.drop (u.received.length - offset))).Assembles source := by
  intro hstate
  obtain ⟨hreceived, hmd5, hcrc32c⟩ := h hstate
  refine ⟨isPrefix_append_drop hreceived hchunk hoffset, ?_, ?_⟩
  · exact (congrArg (Md5.update · _) hmd5).trans (Md5.update_append Md5.incomplete_new _ _).symm
  · exact (congrArg (Crc32c.update · _) hcrc32c).trans (Crc32c.update_append _ _ _).symm

/-- The chunks that a call brings for a session are from the source, and it does not take the session back. -/
structure Command.Agrees (id : UploadId) (source : List Byte) (command : Command) : Prop where
  chunk : ∀ offset chunk, command.chunk id = some (offset, chunk) → chunk <+: source.drop offset
  rollback : ∀ checkpoint, command ≠ .rollbackUpload id checkpoint

theorem Grows.assembles {v : UploadSession} (h : Grows command id u v)
    (hchunk : ∀ offset chunk, command.chunk id = some (offset, chunk) → chunk <+: source.drop offset)
    (hu : u.Assembles source) : v.Assembles source := by
  cases h with
  | same => exact hu
  | grown hb hstate hoffset => exact hu.extend (hchunk _ _ hb) hoffset

theorem Evolves.assembles {u' : UploadSession} (h : Evolves command id u u') (ha : command.Agrees id source)
    (hu : u.Assembles source) : u'.Assembles source := by
  cases h with
  | @settles v _ hgrows hsettles =>
    have hv := hgrows.assembles ha.chunk hu
    cases hsettles with
    | same => exact hv
    | configured => exact hv
    | aborted => exact fun hstate => nomatch hstate
    | denied => exact fun hstate => nomatch hstate
    | committed => exact fun hstate => nomatch hstate
  | rolledBack hcommand => exact absurd hcommand (ha.rollback _)

theorem Fresh.assembles (h : Fresh s s' id u) (source : List Byte) : u.Assembles source := by
  intro _
  rw [h.received, h.md5, h.crc32c]
  have hnil : Md5.new.update [] = Md5.new := by
    rw [Md5.update_eq Md5.incomplete_new, Library.absorb_of_lt (by decide)]
    rfl
  exact ⟨List.nil_prefix, hnil.symm, rfl⟩

/-! ### Runs -/

/-- A step whose chunks for a session are from the source. -/
def SessionStep.Agrees (id : UploadId) (source : List Byte) : SessionStep → Prop
  | .command call => call.Agrees id source
  | _ => True

/-- The session of an identifier assembles the source, in the store and in all captures. -/
structure Session.Assembles (id : UploadId) (source : List Byte) (session : Session) : Prop where
  store : ∀ u, session.store.uploads.get id = some u → u.Assembles source
  captures : ∀ captured ∈ session.captures, ∀ u, captured.uploads.get id = some u → u.Assembles source

theorem Session.Assembles.moves {session session' : Session} {step : SessionStep}
    (h : session.Assembles id source) (ha : step.Agrees id source)
    (hm : session.Moves step session') : session'.Assembles id source := by
  cases hm with
  | command command heffect =>
    refine ⟨fun u' hget => ?_, h.captures⟩
    rcases heffect.sessions id u' hget with ⟨u, hu, he⟩ | hf
    · exact he.assembles ha (h.store u hu)
    · exact hf.assembles source
  | capture =>
    refine ⟨h.store, forall_mem_append.2 ⟨h.captures, forall_mem_singleton.2 fun u hget => ?_⟩⟩
    exact h.store u (get_filter_eq_some.1 hget).1
  | restore owned hcaptured =>
    refine ⟨fun u hget => ?_, h.captures⟩
    rcases upload_of_restoreContent hget with hrestored | hkept
    · exact h.captures _ hcaptured u hrestored
    · exact h.store u (upload_of_withoutBuckets hkept)
  | unchanged => exact h

/-! ### Refusals -/

/-- What a refused call with a chunk leaves: the session as it was, or aborted without bytes, or, if it had
expired, no session. -/
def Leaves (id : UploadId) (now : LogicalInstant) (s s' : StorageState) : Prop :=
  s'.uploads.get id = s.uploads.get id ∨
    (∃ u, s'.uploads.get id = some u ∧ u.state = .aborted ∧ u.received = []) ∨
    (∃ u, s.uploads.get id = some u ∧ u.expired now = true) ∧ s'.uploads.get id = none

section

variable {e : StorageError}

theorem leaves_abort {v : UploadSession} : Leaves id now s (s.putUpload id v.abort) :=
  .inr (.inl ⟨v.abort, get_insert_self _ _ _, rfl, rfl⟩)

theorem leaves_drop (hget : s.uploads.get id = some u) (he : u.expired now = true) :
    Leaves id now s (s.dropUpload id) :=
  .inr (.inr ⟨⟨u, hget, he⟩, get_erase_self _ _⟩)

theorem UploadSession.Appended.leaves {r : Except StorageError ℕ × UploadSession}
    (h : u.Appended retained limit offset chunk r) (hget : s.uploads.get id = some u) (he : r.1 = .error e) :
    Leaves id now s (s.putUpload id r.2) := by
  cases h with
  | same => exact .inl ((get_insert_self _ _ _).trans hget.symm)
  | aborted => exact leaves_abort
  | grown => cases he

theorem UploadSession.Adopted.leaves {r : Except StorageError (Option ℕ) × UploadSession}
    (h : u.Adopted retained limit offset chunk r) (hget : s.uploads.get id = some u) (he : r.1 = .error e) :
    Leaves id now s (s.putUpload id r.2) := by
  cases h with
  | refused => exact .inl ((get_insert_self _ _ _).trans hget.symm)
  | passed => cases he
  | aborted => exact leaves_abort
  | adopted => cases he

variable (hs : Storage.Accounted s) (offset : ℕ) (chunk : List Byte)

include hs

/-- What a call with a chunk does: it is refused, or the session has grown. -/
theorem wp_appendUpload {Q : ℕ → StorageState → Prop} {E : Failure → StorageState → Prop}
    (hrefused : ∀ e s', Leaves id now s s' → E (.refused e) s')
    (hg : ∀ u received, s.uploads.get id = some u → u.expired now = false →
      (u.append s.retainedUploadBytes s.retainedUploadLimit offset chunk).1 = .ok received →
      Q received (s.putUpload id (u.append s.retainedUploadBytes s.retainedUploadLimit offset chunk).2)) :
    Act.wp (appendUpload id offset chunk now) Q E s := by
  have hfits := fun u (hget : s.uploads.get id = some u) =>
    ((u.appended s.retainedUploadBytes s.retainedUploadLimit offset chunk).within.total hs hget).1
  rw [appendUpload, wp_bind, wp_get, wp_withUploadSession hs hfits]
  refine ⟨fun _ => hrefused _ _ (.inl rfl), fun u hget => ⟨fun hexp => ?_, fun hf => ⟨?_, fun e he => ?_⟩⟩⟩
  · exact hrefused _ _ (leaves_drop hget hexp)
  · exact fun received hok => hg u received hget hf hok
  · exact hrefused _ _ ((u.appended _ _ offset chunk).leaves hget he)

theorem refused_appendUpload (h : appendUpload id offset chunk now s = (.error (.refused e), s')) :
    Leaves id now s s' :=
  wp_of_error (wp_appendUpload hs offset chunk (Q := fun _ _ => True)
    (E := fun _ s' => Leaves id now s s') (fun _ _ h => h) fun _ _ _ _ _ => trivial) h

theorem refused_appendUploadOwned (h : appendUploadOwned id offset chunk now s = (.error (.refused e), s')) :
    Leaves id now s s' := by
  have hfits := fun u (hget : s.uploads.get id = some u) =>
    ((u.adopted s.retainedUploadBytes s.retainedUploadLimit offset chunk).within.total hs hget).1
  refine wp_of_error (Q := fun _ _ => True) (E := fun _ s' => Leaves id now s s') ?_ h
  rw [appendUploadOwned, wp_bind, wp_get, wp_bind, wp_withUploadSession hs hfits]
  refine ⟨fun _ => .inl rfl, fun u hget => ⟨leaves_drop hget, fun _ => ⟨fun attempt ha => ?_, fun e he => ?_⟩⟩⟩
  · cases attempt with
    | some => exact trivial
    | none =>
      rw [(u.adopted _ _ offset chunk).eq_of_none ha, hs.putUpload_self hget]
      exact wp_appendUpload hs offset chunk (fun _ _ h => h) fun _ _ _ _ _ => trivial
  · exact (u.adopted _ _ offset chunk).leaves hget he

end

/-! ### Finalization -/

/-- An object of some bytes, with their digests. -/
structure Commits (received : List Byte) (object : ObjectMetadata) (s' : StorageState) : Prop where
  live : s'.objects.get (objectKey object.bucket object.name) = some object
  bytes : s'.blobs.get object.blob = some received
  size : object.size = received.length
  md5 : object.md5 = md5 received
  crc32c : object.crc32c = crc32c received

theorem blobs_applyPlannedPut_self (s : StorageState) (plan : StorageState.PlannedPut) (bytes : List Byte)
    (events : List StorageEvent) :
    (s.applyPlannedPut plan bytes events).blobs.get plan.object.blob = some bytes := by
  unfold StorageState.applyPlannedPut
  cases s.objects.get plan.key with
  | none => exact get_insert_self _ _ _
  | some => cases plan.archive <;> exact get_insert_self _ _ _

/-- A write of what a session has assembled. -/
theorem commits_applyPlannedPut {plan : StorageState.PlannedPut} (hu : u.Assembles source)
    (hstate : u.state = .receiving)
    (hplan : s.planPut u.bucket u.name u.received.length u.digests u.metadata u.precondition now = .ok plan)
    (id : UploadId) (v : UploadSession) :
    Commits u.received plan.object
      ((s.applyPlannedPut plan u.received (putEvents plan)).putUpload id v) := by
  have hp := planned_of_planPut hplan
  have hd := hu.digests hstate
  refine ⟨?_, blobs_applyPlannedPut_self s plan u.received (putEvents plan), hp.size, ?_, ?_⟩
  · change (s.applyPlannedPut plan u.received (putEvents plan)).objects.get _ = _
    rw [objects_applyPlannedPut, hp.bucket, hp.name, ← hp.key, get_insert_self]
  · rw [hp.md5, hd]
    rfl
  · rw [hp.crc32c, hd]
    rfl

/-- What a successful finalization commits. -/
theorem commits_of_finalizeUpload {R : Type} {admits : List StorageEvent → Except StorageError R}
    (hs : Storage.Accounted s) (ha : ∀ u, s.uploads.get id = some u → u.Assembles source)
    {object : ObjectMetadata} {r : R}
    (h : finalizeUploadWithAdmission admits id now s = (.ok (object, r), s')) :
    ∃ u, s.uploads.get id = some u ∧ u.state = .receiving ∧ Commits u.received object s' := by
  refine wp_of_ok (Q := fun a s' => ∃ u, s.uploads.get id = some u ∧ u.state = .receiving ∧
    Commits u.received a.1 s') (E := fun _ _ => True) ?_ h
  refine wp_finalizeUploadWithAdmission hs (fun u plan r hget hstate hplan _ => ?_) (fun _ _ => trivial)
    (fun _ _ _ _ => trivial) fun _ _ _ _ => trivial
  exact ⟨u, hget, hstate, commits_applyPlannedPut (ha u hget) hstate hplan id _⟩

/-! ### Chunks that finalize -/

/-- A chunk that is accepted adds what is new in it to a receiving session. -/
theorem UploadSession.append_eq_ok {received : ℕ}
    (h : (u.append retained limit offset chunk).1 = .ok received) :
    u.state = .receiving ∧ (u.append retained limit offset chunk).2.state = .receiving ∧
      (u.append retained limit offset chunk).2.startedAt = u.startedAt ∧
      (u.append retained limit offset chunk).2.received =
        u.received ++ chunk.drop (u.received.length - offset) := by
  unfold append at h ⊢
  cases hstate : u.state with
  | committed => simp [hstate] at h
  | aborted => simp [hstate] at h
  | denied => simp [hstate] at h
  | receiving =>
    cases hreached : checkedAdd offset chunk.length with
    | none => simp [hstate, hreached] at h
    | some =>
      obtain ⟨-, rfl⟩ := checkedAdd_eq_some.1 hreached
      simp only [hstate, hreached] at h ⊢
      by_cases hdone : offset + chunk.length ≤ u.received.length
      · have hnil : chunk.drop (u.received.length - offset) = [] := drop_eq_nil_of_le (by omega)
        rw [if_pos hdone, hnil, append_nil]
        exact ⟨trivial, hstate, rfl, rfl⟩
      by_cases hgap : u.received.length < offset
      · simp [hdone, hgap] at h
      rw [if_neg hdone, if_neg hgap] at h ⊢
      cases hsize : uploadSizeError (offset + chunk.length) u.total with
      | some => simp [hsize] at h
      | none =>
        simp only [hsize] at h ⊢
        split_ifs at h ⊢
        exact ⟨trivial, hstate, rfl, rfl⟩

theorem UploadSession.Appended.assembles {r : Except StorageError ℕ × UploadSession}
    (h : u.Appended retained limit offset chunk r) (hchunk : chunk <+: source.drop offset)
    (hu : u.Assembles source) : r.2.Assembles source := by
  cases h with
  | same => exact hu
  | aborted => exact fun hstate => nomatch hstate
  | grown hstate hoffset => exact hu.extend hchunk hoffset

section

variable (hs : Storage.Accounted s) (offset : ℕ) (chunk : List Byte)

include hs

/-- What a call with a chunk does that may finalize. -/
theorem wp_uploadChunk {finalize : Bool} {source : List Byte} (hchunk : chunk <+: source.drop offset)
    (hassembles : ∀ u, s.uploads.get id = some u → u.Assembles source) :
    Act.wp (uploadChunk id offset chunk finalize now)
      (fun progress s' => ∀ object, progress.committed = some object →
        ∃ u, s.uploads.get id = some u ∧ u.state = .receiving ∧
          Commits (u.received ++ chunk.drop (u.received.length - offset)) object s')
      (fun _ s' => Leaves id now s s') s := by
  simp only [uploadChunk, wp_bind, wp_get]
  refine wp_appendUpload hs offset chunk (fun _ _ h => h) fun u received hget hfresh hok => ?_
  cases finalize with
  | false => simp
  | true =>
    obtain ⟨hstate, hstate', hstarted, hreceived⟩ := UploadSession.append_eq_ok hok
    have ha := u.appended s.retainedUploadBytes s.retainedUploadLimit offset chunk
    have hgrows : Grows (.appendUpload id offset chunk now) id u _ := ha.grows hok (if_pos rfl)
    have hc : s.uploadCheckpoint id = some ⟨u.received.length, u.md5, u.crc32c⟩ := by
      simp [StorageState.uploadCheckpoint, hget, hstate]
    have hfresh' : (u.append s.retainedUploadBytes s.retainedUploadLimit offset chunk).2.expired now = false := by
      rwa [UploadSession.expired, hstarted]
    simp only [Bool.not_true, Bool.false_eq_true, if_false, if_true, hc]
    refine wp_finishUpload hs hget hgrows (ha.within.total hs hget).1 (fun c hc => ?_) (fun plan _ hplan => ?_)
      (fun e hkept => nomatch hkept hstate') (fun e => .inl rfl) (fun e => leaves_abort) fun e he => ?_
    · cases hc
      exact ⟨hstate, rfl⟩
    · rintro object ⟨⟩
      refine ⟨u, hget, hstate, ?_⟩
      rw [← hreceived]
      exact commits_applyPlannedPut (ha.assembles hchunk (hassembles u hget)) hstate' hplan id _
    · rw [hfresh'] at he
      cases he

end

/-! ### Owned chunks -/

/-- An owned chunk is passed on, or does what a chunk does. -/
theorem UploadSession.adopt_eq (hchunk : chunk.length ≤ u64Max) (u : UploadSession) :
    u.adopt retained limit offset chunk = (.ok none, u) ∨ u.adopt retained limit offset chunk =
        ((u.append retained limit offset chunk).1.map some, (u.append retained limit offset chunk).2) := by
  unfold adopt append
  cases hstate : u.state with
  | committed => exact .inr rfl
  | aborted => exact .inr rfl
  | denied => exact .inr rfl
  | receiving =>
    dsimp only
    by_cases ho : offset ≠ 0 ∨ u.received ≠ [] ∨ chunk = []
    · rw [if_pos ho]
      exact .inl rfl
    right
    rw [if_neg ho]
    push Not at ho
    obtain ⟨rfl, hreceived, hn⟩ := ho
    have hreached : checkedAdd 0 chunk.length = some chunk.length :=
      checkedAdd_eq_some.2 ⟨by omega, Nat.zero_add _⟩
    have hlong : ¬ chunk.length ≤ 0 := by
      rw [Nat.le_zero, length_eq_zero_iff]
      exact hn
    simp only [hreached, hreceived, length_nil, if_neg hlong, Nat.lt_irrefl, if_false, Nat.zero_sub,
      drop_zero]
    cases uploadSizeError chunk.length u.total with
    | some => rfl
    | none =>
      dsimp only
      split_ifs
      · simp [UploadSession.extend, hreceived, Except.map, hstate]
      · rfl

theorem withUploadSession_of_error {α : Type} {change : UploadSession → Except StorageError α × UploadSession}
    {f : Failure} (h : uploadMut id now s = (.error f, s')) :
    withUploadSession id now change s = (.error f, s') := by
  rw [withUploadSession, bind_apply, h]

/-- A change of a session that is found, step by step. -/
theorem withUploadSession_of_ok {α : Type} {change : UploadSession → Except StorageError α × UploadSession}
    (h : uploadMut id now s = (.ok u, s')) :
    withUploadSession id now change s =
      match accountUpload s.retainedUploadBytes u.received.length (change u).2.received.length with
      | none => (.error .panicked, s.setUpload id (change u).2)
      | some retained => ((change u).1.mapError .refused,
          { s.setUpload id (change u).2 with retainedUploadBytes := retained }) := by
  obtain ⟨-, -, rfl⟩ := uploadMut_eq_ok.1 h
  rw [withUploadSession, bind_apply, h]
  dsimp only
  rw [get_bind_apply, modify_bind_apply]
  cases accountUpload s.retainedUploadBytes u.received.length (change u).2.received.length <;> rfl

theorem setUpload_self (hget : s.uploads.get id = some u) : s.setUpload id u = s := by
  have hsame : s.uploads.insert id u = s.uploads := ext_get fun j => by
    rw [get_insert]
    split_ifs with hj
    · rw [hj, hget]
    · rfl
  rw [StorageState.setUpload, hsame]

/-- An owned chunk has the result of a chunk, and its effect unless the totals are so wrong that both panic. -/
theorem appendUploadOwned_eq (hret : s.retainedUploadBytes ≤ u64Max) (hchunk : chunk.length ≤ u64Max) :
    (appendUploadOwned id offset chunk now s).1 = (appendUpload id offset chunk now s).1 ∧
      ((appendUpload id offset chunk now s).1 ≠ .error .panicked →
        appendUploadOwned id offset chunk now s = appendUpload id offset chunk now s) := by
  rw [appendUploadOwned, appendUpload, get_bind_apply, get_bind_apply, bind_apply]
  rcases hl : uploadMut id now s with ⟨f | u, s'⟩
  · rw [withUploadSession_of_error hl, withUploadSession_of_error hl]
    exact ⟨rfl, fun _ => rfl⟩
  · obtain ⟨hget, -, rfl⟩ := uploadMut_eq_ok.1 hl
    rw [withUploadSession_of_ok hl]
    rcases u.adopt_eq hchunk with hpassed | hadopted
    · rw [hpassed]
      by_cases hle : u.received.length ≤ s.retainedUploadBytes
      · have ha : accountUpload s.retainedUploadBytes u.received.length u.received.length =
            some s.retainedUploadBytes := by
          rw [accountUpload, checkedSub_of_le hle, Option.bind_some, checkedAdd_eq_some]
          omega
        simp only [ha, setUpload_self hget]
        exact ⟨rfl, fun _ => rfl⟩
      · have hp : ∀ after, accountUpload s.retainedUploadBytes u.received.length after = none := fun after => by
          simp [accountUpload, checkedSub, hle]
        rw [withUploadSession_of_ok hl]
        simp [hp]
    · rw [withUploadSession_of_ok hl, hadopted]
      cases accountUpload s.retainedUploadBytes u.received.length
          (u.append s.retainedUploadBytes s.retainedUploadLimit offset chunk).2.received.length with
      | none => exact ⟨rfl, fun _ => rfl⟩
      | some retained =>
        cases (u.append s.retainedUploadBytes s.retainedUploadLimit offset chunk).1 <;> exact ⟨rfl, fun _ => rfl⟩

/-! ### Whole uploads -/

/-- Whatever chunks of a source a session is given: as long as it receives, it holds a prefix of the source
and the digests of that prefix; a refused call leaves it as it was, or aborted without bytes, or, if it had
expired, gone; and what is committed are the bytes received, with their digests.  An owned chunk is a chunk. -/
theorem upload_assembles_source (seed : BitVec 64) (steps : List SessionStep) (id : UploadId)
    (source : List Byte) (hagrees : ∀ step ∈ steps, step.Agrees id source) :
    ∃ session, (Session.new seed).run steps = some session ∧
      (∀ u, session.store.uploads.get id = some u → u.state = .receiving →
        u.received <+: source ∧ u.digests = ObjectDigests.new u.received) ∧
      (∀ offset chunk finalize now e s', chunk <+: source.drop offset →
        appendUpload id offset chunk now session.store = (.error (.refused e), s') ∨
          appendUploadOwned id offset chunk now session.store = (.error (.refused e), s') ∨
          uploadChunk id offset chunk finalize now session.store = (.error (.refused e), s') →
        Leaves id now session.store s') ∧
      (∀ (admits : List StorageEvent → Except StorageError Unit) now object s',
        finalizeUploadWithAdmission admits id now session.store = (.ok (object, ()), s') →
        ∃ u, session.store.uploads.get id = some u ∧ u.state = .receiving ∧ Commits u.received object s') ∧
      (∀ offset chunk finalize now progress object s', chunk <+: source.drop offset →
        uploadChunk id offset chunk finalize now session.store = (.ok progress, s') →
        progress.committed = some object → ∃ u, session.store.uploads.get id = some u ∧ u.state = .receiving ∧
          Commits (u.received ++ chunk.drop (u.received.length - offset)) object s') ∧
      ∀ (s : StorageState) (id : UploadId) (offset : ℕ) (chunk : List Byte) (now : LogicalInstant),
        s.retainedUploadBytes ≤ u64Max → chunk.length ≤ u64Max →
        (appendUploadOwned id offset chunk now s).1 = (appendUpload id offset chunk now s).1 ∧
          ((appendUpload id offset chunk now s).1 ≠ .error .panicked →
            appendUploadOwned id offset chunk now s = appendUpload id offset chunk now s) := by
  have hnew : (Session.new seed).Assembles id source :=
    ⟨fun _ hget => (nomatch hget), fun _ hcaptured => (not_mem_nil hcaptured).elim⟩
  obtain ⟨session, hrun, haccounted, hassembles, -⟩ := (Session.accounted_new seed).run
    (P := fun steps session => session.Assembles id source ∧ ∀ step ∈ steps, step.Agrees id source)
    steps ⟨hnew, hagrees⟩ fun _ _ _ _ _ hP _ hmoves =>
      ⟨hP.1.moves (hP.2 _ mem_cons_self) hmoves, fun step hstep => hP.2 step (mem_cons_of_mem _ hstep)⟩
  have hs := haccounted.store
  refine ⟨session, hrun, fun u hget hstate => ⟨(hassembles.store u hget hstate).1,
    (hassembles.store u hget).digests hstate⟩, ?_, ?_, ?_, ?_⟩
  · rintro offset chunk finalize now e s' hchunk (h | h | h)
    · exact refused_appendUpload hs offset chunk h
    · exact refused_appendUploadOwned hs offset chunk h
    · exact wp_of_error (wp_uploadChunk hs offset chunk hchunk hassembles.store) h
  · exact fun admits now object s' h => commits_of_finalizeUpload hs hassembles.store h
  · exact fun offset chunk finalize now progress object s' hchunk h =>
      wp_of_ok (wp_uploadChunk hs offset chunk hchunk hassembles.store) h object
  · exact fun s id offset chunk now hretained hchunk => appendUploadOwned_eq hretained hchunk

/-- A session that is started. -/
def beginStep : SessionStep :=
  .command (.beginUpload sampleBucket sampleName ⟨none, none, none, none, none, none⟩ ⟨none, none, none, none⟩
    ⟨none, none, none⟩ 0)

/-- Its identifier. -/
def sampleUpload : UploadId := uploadId 1 (tokenFrom (StorageState.new 0).rng).1

/-- A session that is given two chunks which overlap. -/
def overlappingSteps : List SessionStep :=
  [beginStep, .command (.appendUpload sampleUpload 0 [1, 2] 0),
    .command (.appendUploadOwned sampleUpload 1 [2, 3, 4] 0)]

/-- It has assembled its source, and commits it. -/
theorem upload_assembles_source_overlapping :
    (∀ step ∈ overlappingSteps, step.Agrees sampleUpload [1, 2, 3, 4]) ∧
    ∃ session u object s', (Session.new 0).run overlappingSteps = some session ∧
      session.store.uploads.get sampleUpload = some u ∧ u.received = [1, 2, 3, 4] ∧
      u.digests = ObjectDigests.new [1, 2, 3, 4] ∧
      finalizeUploadWithAdmission (fun _ => .ok ()) sampleUpload 0 session.store = (.ok (object, ()), s') ∧
      Commits [1, 2, 3, 4] object s' := by
  have hagrees : ∀ step ∈ overlappingSteps, step.Agrees sampleUpload [1, 2, 3, 4] := by
    refine forall_mem_cons.2 ⟨⟨fun _ _ h => (nomatch h), fun _ h => (nomatch h)⟩, forall_mem_cons.2 ⟨?_, forall_mem_singleton.2 ?_⟩⟩
    · refine ⟨fun offset chunk hchunk => ?_, fun _ h => (nomatch h)⟩
      cases hchunk
      decide
    · refine ⟨fun offset chunk hchunk => ?_, fun _ h => (nomatch h)⟩
      cases hchunk
      decide
  obtain ⟨session, hrun, hassembled, -, hcommits, -⟩ :=
    upload_assembles_source 0 overlappingSteps sampleUpload [1, 2, 3, 4] hagrees
  have hu : ((Session.new 0).run overlappingSteps).map (fun session =>
      (session.store.uploads.get sampleUpload).map fun u => (u.received, decide (u.state = .receiving))) =
        some (some ([1, 2, 3, 4], true)) := by decide +kernel
  have hf : ((Session.new 0).run overlappingSteps).map (fun session =>
      (finalizeUploadWithAdmission (fun _ => .ok ()) sampleUpload 0 session.store).1.toBool) = some true := by
    decide +kernel
  rw [hrun, Option.map_some, Option.some_inj] at hu hf
  obtain ⟨u, hget, hu⟩ := Option.map_eq_some_iff.1 hu
  obtain ⟨hreceived, hstate⟩ := Prod.mk.inj hu
  rcases hfinal : finalizeUploadWithAdmission (fun _ => .ok ()) sampleUpload 0 session.store with
    ⟨f | ⟨object, ⟨⟩⟩, s'⟩
  · rw [hfinal] at hf
    cases hf
  · obtain ⟨u', hget', -, hc⟩ := hcommits _ 0 object s' hfinal
    rw [hget, Option.some_inj] at hget'
    subst hget'
    refine ⟨hagrees, session, u, object, s', hrun, hget, hreceived, ?_, hfinal, hreceived ▸ hc⟩
    rw [← hreceived]
    exact (hassembled u hget (of_decide_eq_true hstate)).2

/-- The total of a store that has lost count of the bytes of its session. -/
def miscounted (session : Session) : StorageState := { session.store with retainedUploadBytes := 0 }

/-- What a call leaves: whether it panics, and the bytes of the session. -/
def panicReport (result : Except Failure ℕ × StorageState) : Bool × ℕ :=
  (match result.1 with
    | .error .panicked => true
    | _ => false, result.2.receivedBy sampleUpload)

/-- A chunk after more than a week is refused, and the session, which was receiving, is gone.  And where the
total has lost count, a chunk and an owned chunk panic with different bytes in the session. -/
theorem expired_session_is_dropped :
    ((Session.new 0).run [beginStep]).map (fun session => session.store.uploads.entries.map fun e =>
      (decide (e.2.state = .receiving),
        (appendUpload e.1 0 [0] (LogicalDuration.fromSeconds 700000) session.store).1.toBool,
        ((appendUpload e.1 0 [0] (LogicalDuration.fromSeconds 700000) session.store).2.uploads.get e.1).isSome)) =
      some [(true, false, false)] ∧
    ((Session.new 0).run overlappingSteps).map (fun session =>
      (panicReport (appendUpload sampleUpload 4 [5] 0 (miscounted session)),
        panicReport (appendUploadOwned sampleUpload 4 [5] 0 (miscounted session)))) =
      some ((true, 5), true, 4) := by
  constructor <;> decide +kernel

end Fireemu.Storage
