import Fireemu.Storage.Grants

/-!
# What calls do

For every call on a store, whatever its result: the sessions stay accounted for and the call does not
panic; the generations and blobs change by `Advance`s; only the grant of public read adds one; and every
session evolves from one before, or is new (`Effect`, `Command.effect`).
-/

namespace Fireemu.Storage

open Library (SortedMap SortedSet Act Holdings)
open StorageState (putEvents)
open List Library.SortedMap Library.Act

variable {s s' : StorageState} {command : Command}

/-! ### Contents -/

/-- Two states with the same generations and blobs. -/
structure SameContents (s s' : StorageState) : Prop where
  objects : s'.objects = s.objects
  noncurrent : s'.noncurrent = s.noncurrent
  blobs : s'.blobs = s.blobs
  storedBytes : s'.storedBytes = s.storedBytes
  nextBlob : s'.nextBlob = s.nextBlob
  nextGeneration : s'.nextGeneration = s.nextGeneration

variable {v : UploadSession} {f : StorageState → StorageState} {now : LogicalInstant}
  {r : Except StorageError ℕ × UploadSession}

theorem SameContents.holdings (h : SameContents s s') : s'.holdings = s.holdings := by
  unfold StorageState.holdings
  rw [h.objects, h.noncurrent, h.blobs, h.nextBlob]

/-- What can happen to the generations and blobs of a store; a clean import does not take the number of a
noncurrent generation. -/
inductive Advance (clean : Prop) (s : StorageState) : StorageState → Prop
  | same {s' : StorageState} (h : SameContents s s') : Advance clean s s'
  | change {s' : StorageState} {object : ObjectMetadata} {batch : List StorageEvent}
      (h : Change s object batch s') : Advance clean s s'
  | imported {object : ObjectMetadata} {bytes : List Byte} (hblob : object.blob = s.nextBlob + 1)
      (hsize : object.size = bytes.length)
      (hfree : clean → s.noncurrent.get (generationKey object.bucket object.name object.generation) = none) :
      Advance clean s (s.installImported object bytes)
  | described (bucket : BucketName) (name : ObjectName) (value : Str) :
      Advance clean s (s.defaultContentDisposition bucket name value)
  | removed (owned : Str → Bool) : Advance clean s (s.withoutGenerations owned)
  | cleared : Advance clean s s.clear

/-- A sequence of such changes. -/
abbrev Advances (clean : Prop) : StorageState → StorageState → Prop :=
  Relation.ReflTransGen (Advance clean)

theorem SameContents.advances {clean : Prop} (h : SameContents s s') :
    Advances clean s s' := .single (.same h)

/-! ### Sessions -/

/-- The chunk that a call brings for a session, with its offset. -/
def Command.chunk (id : UploadId) : Command → Option (ℕ × List Byte)
  | .appendUpload id' offset chunk _ | .appendUploadOwned id' offset chunk _
  | .uploadChunk id' offset chunk _ _ => if id' = id then some (offset, chunk) else none
  | _ => none

/-- Whether a call is no import that succeeds under the number of a noncurrent generation. -/
def Command.clean (s : StorageState) : Command → Bool
  | .insertImported object bytes =>
      (Storage.insertImported object bytes s).1.toOption.isNone ||
        (s.noncurrent.get (generationKey object.bucket object.name object.generation)).isNone
  | _ => true

/-- A session that grows by what is new in a chunk. -/
inductive Grows (command : Command) (id : UploadId) (u : UploadSession) : UploadSession → Prop
  | same : Grows command id u u
  | grown {offset : ℕ} {chunk : List Byte} (hchunk : command.chunk id = some (offset, chunk))
      (hstate : u.state = .receiving) (hoffset : offset ≤ u.received.length) :
      Grows command id u (u.extend (chunk.drop (u.received.length - offset)))

/-- What becomes of a session otherwise. -/
inductive Settles (u : UploadSession) : UploadSession → Prop
  | same : Settles u u
  | configured (total : Option ℕ) (expectedMd5 : Option (List Byte)) (expectedCrc32c : Option (BitVec 32)) :
      Settles u { u with total, expectedMd5, expectedCrc32c }
  | aborted : Settles u u.abort
  | denied : Settles u { u with state := .denied u.received.length, received := [] }
  | committed (object : ObjectMetadata) : Settles u (u.commit object)

/-- What a call can do to a session. -/
inductive Evolves (command : Command) (id : UploadId) (u : UploadSession) : UploadSession → Prop
  | settles {v u' : UploadSession} (hgrows : Grows command id u v) (hsettles : Settles v u') :
      Evolves command id u u'
  | rolledBack {checkpoint : UploadCheckpoint} (hcommand : command = .rollbackUpload id checkpoint) :
      Evolves command id u (u.rollback checkpoint)

/-- A new session. -/
structure Fresh (s s' : StorageState) (id : UploadId) (u : UploadSession) : Prop where
  drawn : ∃ n token, id = uploadId n token ∧ s.nextUpload < n ∧ n ≤ s'.nextUpload
  received : u.received = []
  md5 : u.md5 = Md5.new
  crc32c : u.crc32c = Crc32c.new

/-- A call that adds no grant, or the one that does. -/
def Command.Regrants (command : Command) (s s' : StorageState) : Prop :=
  Storage.Regrants s s' ∨
    ∃ bucket name, command = .setPublicRead bucket name ∧ s' = s.setPublicRead bucket name

/-- What a call does to a store. -/
structure Effect (command : Command) (s s' : StorageState) : Prop where
  accounted : Accounted s'
  contents : Advances (command.clean s) s s'
  next : s.nextUpload ≤ s'.nextUpload
  sessions : ∀ id u', s'.uploads.get id = some u' →
    (∃ u, s.uploads.get id = some u ∧ Evolves command id u u') ∨ Fresh s s' id u'
  grants : command.Regrants s s'

theorem evolves_same {command : Command} {id : UploadId} {u : UploadSession} : Evolves command id u u :=
  .settles .same .same

/-- A call that only changes sessions. -/
theorem effect_of_uploads {command : Command} {uploads : SortedMap UploadId UploadSession}
    (ha : Accounted (s.withUploads uploads))
    (hsessions : ∀ id u', uploads.get id = some u' → ∃ u, s.uploads.get id = some u ∧ Evolves command id u u') :
    Effect command s (s.withUploads uploads) where
  accounted := ha
  contents := SameContents.advances ⟨rfl, rfl, rfl, rfl, rfl, rfl⟩
  next := le_rfl
  sessions id u' hget := .inl (hsessions id u' hget)
  grants := .inl (regrants_refl.congr rfl rfl)

/-- The end of a session after other changes. -/
theorem effect_commit {command : Command} {id : UploadId} {u w : UploadSession} {x : StorageState}
    (hx : Accounted x) (ho : ∀ j, j ≠ id → x.uploads.get j = s.uploads.get j)
    (hnext : x.nextUpload = s.nextUpload) (hc : Advances (command.clean s) s x)
    (hget' : x.uploads.get id = some w) (hl : v.received.length ≤ w.received.length)
    (hget : s.uploads.get id = some u) (he : Evolves command id u v) (hg : Regrants s x) :
    Effect command s (x.putUpload id v) := by
  refine ⟨hx.putUpload hget' (hx.fits_insert hget' hl), hc.tail (.same ⟨rfl, rfl, rfl, rfl, rfl, rfl⟩),
    hnext.ge, fun j y hj => .inl ?_, .inl (hg.congr rfl rfl)⟩
  change (x.uploads.insert id v).get j = some y at hj
  rw [get_insert] at hj
  split_ifs at hj with hid
  · cases hj
    exact ⟨u, hid ▸ hget, hid ▸ he⟩
  · exact ⟨y, by rwa [ho j hid] at hj, evolves_same⟩

section

variable (hs : Accounted s)

include hs

/-- A call that leaves the sessions alone. -/
theorem effect_of_sameUploads (h : SameUploads s s') (hc : Advances (command.clean s) s s')
    (hg : command.Regrants s s') : Effect command s s' where
  accounted := h.accounted hs
  contents := hc
  next := h.next.ge
  sessions id u' hget := .inl ⟨u', by rwa [h.uploads] at hget, evolves_same⟩
  grants := hg

theorem effect_refl : Effect command s s :=
  effect_of_sameUploads hs (sameUploads_refl) .refl (.inl (regrants_refl))

theorem effect_dropUpload (id : UploadId) : Effect command s (s.dropUpload id) := by
  refine effect_of_uploads (hs.dropUpload id) fun j u' hget => ⟨u', ?_, evolves_same⟩
  rw [get_erase] at hget
  split_ifs at hget
  exact hget

theorem effect_putUpload {id : UploadId} {u u' : UploadSession} (hget : s.uploads.get id = some u)
    (hfits : uploadBytes (s.uploads.insert id u') ≤ u64Max) (he : Evolves command id u u') :
    Effect command s (s.putUpload id u') := by
  refine effect_of_uploads (hs.putUpload hget hfits) fun j v hj => ?_
  rw [get_insert] at hj
  split_ifs at hj with hid
  · cases hj
    exact ⟨u, hid ▸ hget, hid ▸ he⟩
  · exact ⟨v, hj, evolves_same⟩

end

variable {id : UploadId} {u : UploadSession} {retained limit offset : ℕ} {chunk : List Byte}

/-! ### Calls on sessions -/

/-- What is left when a call fails. -/
def FailsWith (command : Command) (s : StorageState) (f : Failure) (s' : StorageState) : Prop :=
  f ≠ .panicked ∧ Effect command s s'

/-- A call that does what a command may do. -/
def Works {α : Type} (command : Command) (call : Store α) : Prop :=
  ∀ s, Accounted s → Act.wp call (fun _ s' => Effect command s s') (FailsWith command s) s

@[simp] theorem failsWith_refused {s s' : StorageState} {e : StorageError} :
    FailsWith command s (.refused e) s' ↔ Effect command s s' := by
  simp [FailsWith]

theorem Works.map {α : Type} {call : Store α} (h : Works command call) :
    Works command (do let _ ← call : Store Unit) := fun s hs => wp_bind.2 (h s hs)

theorem works_modify (h : ∀ s, SameUploads s (f s)) (hc : ∀ s, Advances (command.clean s) s (f s))
    (hg : ∀ s, command.Regrants s (f s)) :
    Works command (Act.modify f) := fun s hs => effect_of_sameUploads hs (h s) (hc s) (hg s)

theorem works_configure (h : ∀ s, SameUploads s (f s)) (hc : ∀ s, SameContents s (f s))
    (hg : ∀ s, (f s).publicRead = s.publicRead) : Works command (Act.modify f) :=
  works_modify h (fun s => (hc s).advances) fun s =>
    .inl (regrants_refl.congr (hc s).objects (hg s))

theorem works_withUploadSession {α : Type} {change : UploadSession → Except StorageError α × UploadSession}
    (hl : ∀ u, (change u).2.received.length ≤ u.received.length) (he : ∀ u, Evolves command id u (change u).2) :
    Works command (withUploadSession id now change) := by
  intro s hs
  have hfits : ∀ u, s.uploads.get id = some u → uploadBytes (s.uploads.insert id (change u).2) ≤ u64Max :=
    fun u hget => hs.fits_insert hget (hl u)
  rw [wp_withUploadSession hs hfits]
  simp only [failsWith_refused]
  refine ⟨fun _ => effect_refl hs, fun u hget => ⟨fun _ => effect_dropUpload hs id, fun _ => ?_⟩⟩
  have := effect_putUpload hs hget (hfits u hget) (he u)
  exact ⟨fun _ _ => this, fun _ _ => this⟩

theorem works_cancelUpload : Works (.cancelUpload id now) (cancelUpload id now) := by
  refine works_withUploadSession (fun u => ?_) fun u => ?_
  · cases u.state <;> simp [UploadSession.abort]
  · cases u.state with
    | committed => exact evolves_same
    | denied => exact evolves_same
    | receiving => exact .settles .same .aborted
    | aborted => exact .settles .same .aborted

theorem works_markUploadDenied : Works (.markUploadDenied id now) (markUploadDenied id now) := by
  refine works_withUploadSession (fun u => ?_) fun u => ?_
  · dsimp only
    split_ifs <;> simp
  · dsimp only
    split_ifs
    · exact .settles .same .denied
    · exact evolves_same

theorem works_uploadMut_bind {α : Type} {k : UploadSession → Store α}
    (h : ∀ s u, Accounted s → s.uploads.get id = some u →
      Act.wp (k u) (fun _ s' => Effect command s s') (FailsWith command s) s) :
    Works command (uploadMut id now >>= k) := by
  intro s hs
  rw [wp_bind, wp_uploadMut hs]
  simp only [failsWith_refused]
  exact ⟨fun _ => effect_refl hs, fun u hget => ⟨fun _ => effect_dropUpload hs id, fun _ => h s u hs hget⟩⟩

theorem effect_setUpload (hs : Accounted s) {u' : UploadSession} (hget : s.uploads.get id = some u)
    (hl : u'.received.length = u.received.length) (he : Evolves command id u u') :
    Effect command s (s.setUpload id u') := by
  rw [hs.setUpload hget hl]
  exact effect_putUpload hs hget (hs.fits_insert hget hl.le) he

theorem works_setUploadHashes {md5 : Option (List Byte)} {crc32c : Option (BitVec 32)} :
    Works (.setUploadHashes id md5 crc32c now) (setUploadHashes id md5 crc32c now) :=
  works_uploadMut_bind fun _ u hs hget => effect_setUpload hs hget rfl (.settles .same
    (.configured u.total (md5.or u.expectedMd5) (crc32c.or u.expectedCrc32c)))

theorem works_setUploadTotal {total : ℕ} :
    Works (.setUploadTotal id total now) (setUploadTotal id total now) := by
  intro s hs
  rw [setUploadTotal, wp_bind, wp_require]
  refine ⟨fun _ => ?_, fun _ => failsWith_refused.2 (effect_refl hs)⟩
  refine works_uploadMut_bind (fun s u hs hget => ?_) s hs
  simp only [wp_bind, wp_require, wp_modify, failsWith_refused]
  exact ⟨fun _ => effect_setUpload hs hget rfl (.settles .same
    (.configured (some total) u.expectedMd5 u.expectedCrc32c)), fun _ => effect_refl hs⟩

theorem works_uploadPhase : Works (.uploadPhase id now) (uploadPhase id now) :=
  works_uploadMut_bind fun _ _ hs _ => effect_refl hs

theorem works_pendingUpload : Works (.pendingUpload id now) (pendingUpload id now) := by
  refine works_uploadMut_bind fun s u hs hget => ?_
  simp [effect_refl hs]

variable {bucket : BucketName} {name : ObjectName} {bytes : List Byte}

theorem works_beginUploadWith {metadata : NewMetadata} {precondition : Precondition} {options : UploadOptions} :
    Works (.beginUpload bucket name metadata precondition options now)
      (beginUploadWith bucket name metadata precondition options now) := by
  intro s hs
  simp only [beginUploadWith, wp_bind, wp_require, wp_get, wp_orElse, wp_modify,
    wp_pure, failsWith_refused, effect_refl hs, implies_true, and_true]
  intro _ _ nextUpload hnext
  refine wp_sweepUploads hs fun s' hswept => ?_
  obtain ⟨hs', heq, hkept⟩ := hswept
  refine ⟨fun _ => ?_, fun _ => ?_⟩
  · obtain ⟨-, hsucc⟩ := checkedAdd_eq_some.1 hnext
    have hnextUpload : s'.nextUpload = s.nextUpload := by rw [heq]; rfl
    have hf : s'.uploads.get (uploadId nextUpload (tokenFrom s'.rng).1) = none :=
      hs'.drawn.fresh (by omega) _
    have hb : ∀ u : UploadSession, u.received = [] →
        uploadBytes (s'.uploads.insert (uploadId nextUpload (tokenFrom s'.rng).1) u) =
          uploadBytes s'.uploads := by
      intro u hu
      unfold uploadBytes
      rw [sum_insert_of_get_none _ _ hf, hu, length_nil, zero_add]
    refine ⟨⟨?_, ?_, fun id u hget => ?_⟩, SameContents.advances ?_, ?_, fun id u hget => ?_, .inl ?_⟩
    · exact hs'.exact.trans (hb _ rfl).symm
    · exact (hb _ rfl).le.trans hs'.fits
    · dsimp only at hget ⊢
      rw [get_insert] at hget
      split_ifs at hget with hid
      · exact ⟨_, _, hid, le_rfl⟩
      · obtain ⟨n, token, rfl, hn⟩ := hs'.drawn id u hget
        exact ⟨n, token, rfl, by omega⟩
    · rw [heq]
      exact ⟨rfl, rfl, rfl, rfl, rfl, rfl⟩
    · dsimp only
      omega
    · dsimp only at hget ⊢
      rw [get_insert] at hget
      split_ifs at hget with hid
      · cases hget
        exact .inr ⟨⟨nextUpload, _, hid, by omega, le_rfl⟩, rfl, rfl, rfl⟩
      · exact .inl ⟨u, hkept id u hget, evolves_same⟩
    · rw [heq]
      exact regrants_refl.congr rfl rfl
  · rw [heq]
    refine effect_of_uploads (heq ▸ hs') fun id u hget => ⟨u, hkept id u hget, evolves_same⟩

/-! ### Chunks -/

/-- What a chunk does is what a call with it may do. -/
theorem UploadSession.Appended.evolves (h : u.Appended retained limit offset chunk r)
    (hchunk : command.chunk id = some (offset, chunk)) : Evolves command id u r.2 := by
  cases h with
  | same => exact evolves_same
  | aborted => exact .settles .same .aborted
  | grown hstate hoffset => exact .settles (.grown hchunk hstate hoffset) .same

theorem UploadSession.Appended.grows (h : u.Appended retained limit offset chunk r) {received : ℕ}
    (hok : r.1 = .ok received) (hchunk : command.chunk id = some (offset, chunk)) :
    Grows command id u r.2 := by
  cases h with
  | same => exact .same
  | aborted => cases hok
  | grown hstate hoffset => exact .grown hchunk hstate hoffset

theorem works_appendUpload (hchunk : command.chunk id = some (offset, chunk)) :
    Works command (appendUpload id offset chunk now) := by
  intro s hs
  have ht := fun u (hget : s.uploads.get id = some u) =>
    (u.appended s.retainedUploadBytes s.retainedUploadLimit offset chunk).within.total hs hget
  rw [appendUpload, wp_bind, wp_get, wp_withUploadSession hs fun u hget => (ht u hget).1]
  simp only [failsWith_refused]
  refine ⟨fun _ => effect_refl hs, fun u hget => ⟨fun _ => effect_dropUpload hs id, fun _ => ?_⟩⟩
  have := effect_putUpload hs hget (ht u hget).1 ((u.appended _ _ offset chunk).evolves hchunk)
  exact ⟨fun _ _ => this, fun _ _ => this⟩

theorem UploadSession.Adopted.evolves {r : Except StorageError (Option ℕ) × UploadSession}
    (h : u.Adopted retained limit offset chunk r) (hchunk : command.chunk id = some (offset, chunk)) :
    Evolves command id u r.2 := by
  cases h with
  | refused => exact evolves_same
  | passed => exact evolves_same
  | aborted => exact .settles .same .aborted
  | adopted hstate hoffset hreceived =>
    have hg := Grows.grown hchunk hstate (hoffset ▸ Nat.zero_le _)
    rw [hreceived, length_nil, Nat.zero_sub, drop_zero] at hg
    exact .settles hg .same

theorem works_appendUploadOwned (hchunk : command.chunk id = some (offset, chunk)) :
    Works command (appendUploadOwned id offset chunk now) := by
  intro s hs
  have ht := fun u (hget : s.uploads.get id = some u) =>
    (u.adopted s.retainedUploadBytes s.retainedUploadLimit offset chunk).within.total hs hget
  rw [appendUploadOwned, wp_bind, wp_get, wp_bind, wp_withUploadSession hs fun u hget => (ht u hget).1]
  simp only [failsWith_refused]
  refine ⟨fun _ => effect_refl hs, fun u hget => ⟨fun _ => effect_dropUpload hs id, fun _ => ?_⟩⟩
  have ha := u.adopted s.retainedUploadBytes s.retainedUploadLimit offset chunk
  have hput := effect_putUpload hs hget (ht u hget).1 (ha.evolves hchunk)
  refine ⟨fun attempt hattempt => ?_, fun _ _ => hput⟩
  cases attempt with
  | some => exact hput
  | none =>
    rw [ha.eq_of_none hattempt, hs.putUpload_self hget]
    exact works_appendUpload hchunk s hs

/-! ### Finalization -/

theorem works_finalizeUploadWithAdmission {R : Type} {admits : List StorageEvent → Except StorageError R} :
    Works command (finalizeUploadWithAdmission admits id now) := by
  intro s hs
  refine wp_finalizeUploadWithAdmission hs (fun u plan r hget hstate hplan ha => ?_) (fun e _ => ?_)
    (fun e u hget hstate => ?_) fun e u hget he => ?_
  · have hsame := sameUploads_applyPlannedPut s plan u.received (putEvents plan)
    exact effect_commit (hsame.accounted hs) (fun j _ => by rw [hsame.uploads]) hsame.next
      (.single (.change (.write u.received hplan))) (by rw [hsame.uploads]; exact hget) (Nat.zero_le _) hget
      (.settles .same (.committed _)) (regrants_applyPlannedPut _ _ _)
  · exact failsWith_refused.2 (effect_refl hs)
  · exact failsWith_refused.2 (effect_putUpload hs hget (hs.fits_insert hget (Nat.zero_le _))
      (.settles .same .aborted))
  · exact failsWith_refused.2 (effect_dropUpload hs id)

theorem works_rollbackUpload {checkpoint : UploadCheckpoint} :
    Works (.rollbackUpload id checkpoint) (rollbackUpload id checkpoint) := fun _ hs =>
  wp_rollbackUpload hs (fun _ => effect_refl hs) fun u hget =>
    effect_putUpload hs hget (hs.fits_insert hget (u.length_rollback_le)) (.rolledBack rfl)

theorem putUpload_putUpload : (s.putUpload id u).putUpload id v = s.putUpload id v := by
  have hi : (s.uploads.insert id u).insert id v = s.uploads.insert id v :=
    ext_get fun j => by
      simp only [get_insert]
      split_ifs <;> rfl
  simp only [StorageState.putUpload, StorageState.withUploads, hi]

theorem dropUpload_putUpload : (s.putUpload id u).dropUpload id = s.dropUpload id := by
  have he : (s.uploads.insert id u).erase id = s.uploads.erase id :=
    ext_get fun j => by
      simp only [get_insert, get_erase]
      split_ifs <;> rfl
  simp only [StorageState.putUpload, StorageState.dropUpload, StorageState.withUploads, he]

theorem UploadSession.rollback_of_not_receiving (h : u.state ≠ .receiving)
    (checkpoint : UploadCheckpoint) : u.rollback checkpoint = u := if_neg h

/-- The checkpoint of a session takes it back to what it was before a chunk. -/
theorem Grows.rollback (h : Grows command id u v) (hstate : u.state = .receiving) :
    v.rollback ⟨u.received.length, u.md5, u.crc32c⟩ = u := by
  cases h with
  | same => rw [UploadSession.rollback, if_pos hstate, take_length]
  | grown =>
    rw [UploadSession.rollback, if_pos (by exact hstate)]
    simp only [UploadSession.extend, take_left]

/-- What is committed together with a chunk. -/
theorem effect_commitUpload (hs : Accounted s) (hget : s.uploads.get id = some u)
    (hgrows : Grows command id u v) (hfits : uploadBytes (s.uploads.insert id v) ≤ u64Max)
    {plan : StorageState.PlannedPut} (hplan : (s.putUpload id v).planPut v.bucket v.name v.received.length
      v.digests v.metadata v.precondition now = .ok plan) :
    Effect command s (((s.putUpload id v).applyPlannedPut plan v.received (putEvents plan)).putUpload id
      (v.commit plan.object)) := by
  have hsame := sameUploads_applyPlannedPut (s.putUpload id v) plan v.received (putEvents plan)
  refine effect_commit (hsame.accounted (hs.putUpload hget hfits)) (fun j hj => ?_) hsame.next ?_
    (by rw [hsame.uploads]; exact get_insert_self _ _ _) (Nat.zero_le _) hget
    (.settles hgrows (.committed _)) (by exact regrants_applyPlannedPut (s := s.putUpload id v) _ _ _)
  · rw [hsame.uploads]
    exact get_insert_of_ne _ _ hj
  · exact .tail (b := s.putUpload id v) (.single (.same ⟨rfl, rfl, rfl, rfl, rfl, rfl⟩))
      (.change (.write v.received hplan))

/-- The end of a call with a chunk that asks for finalization: the bytes are committed, or the chunk is kept or
taken back, or the session is aborted, or dropped because it has expired. -/
theorem wp_finishUpload (hs : Accounted s) (hget : s.uploads.get id = some u) (hgrows : Grows command id u v)
    (hfits : uploadBytes (s.uploads.insert id v) ≤ u64Max) {checkpoint : Option UploadCheckpoint}
    (hcheckpoint : ∀ c ∈ checkpoint, u.state = .receiving ∧ c = ⟨u.received.length, u.md5, u.crc32c⟩)
    {Q : UploadProgress → StorageState → Prop} {E : Failure → StorageState → Prop}
    (hcommit : ∀ plan, v.state = .receiving →
      (s.putUpload id v).planPut v.bucket v.name v.received.length v.digests v.metadata v.precondition now =
        .ok plan → Q ⟨plan.object.size, some plan.object⟩
        (((s.putUpload id v).applyPlannedPut plan v.received (putEvents plan)).putUpload id
          (v.commit plan.object)))
    (hkept : ∀ e, (v.state = .receiving → checkpoint = none) → E (.refused e) (s.putUpload id v))
    (hback : ∀ e, E (.refused e) s) (habort : ∀ e, E (.refused e) (s.putUpload id v.abort))
    (hdrop : ∀ e, v.expired now = true → E (.refused e) (s.dropUpload id)) :
    Act.wp (finishUpload id checkpoint now) Q E (s.putUpload id v) := by
  have hs₁ := hs.putUpload hget hfits
  have hself : ∀ {w w' : UploadSession}, (s.putUpload id w).uploads.get id = some w' → w' = w := fun hw =>
    Option.some.inj (hw.symm.trans (get_insert_self _ _ _))
  have hfinalize : Act.wp (finalizeUpload id now) (fun object s' => Q ⟨object.size, some object⟩ s')
      (fun f s' => ∃ e, f = .refused e ∧
        ((s' = s.putUpload id v ∧ (v.state = .receiving → e = .storedBytesLimit)) ∨
          s' = s.putUpload id v.abort ∨ (s' = s.dropUpload id ∧ v.expired now = true)))
      (s.putUpload id v) := by
    rw [finalizeUpload, wp_bind]
    refine wp_finalizeUploadWithAdmission hs₁ (fun w plan r hw hstate hplan _ => ?_) (fun e hreason => ?_)
      (fun e w hw _ => ?_) fun e w hw he => ?_
    · obtain rfl := hself hw
      exact hcommit plan hstate hplan
    · refine ⟨e, rfl, .inl ⟨rfl, fun hstate => ?_⟩⟩
      rcases hreason v (get_insert_self _ _ _) hstate with he | ⟨_, _, ha⟩
      · exact he
      · cases ha
    · obtain rfl := hself hw
      exact ⟨e, rfl, .inr (.inl (putUpload_putUpload))⟩
    · obtain rfl := hself hw
      exact ⟨e, rfl, .inr (.inr ⟨dropUpload_putUpload, he⟩)⟩
  rcases hrun : finalizeUpload id now (s.putUpload id v) with ⟨f | object, s'⟩
  · obtain ⟨e, rfl, hleft⟩ := wp_of_error hfinalize hrun
    rcases finishUpload_of_error checkpoint hrun with ⟨hnone, heq⟩ | ⟨c, hc, -, heq⟩
    · rw [Act.wp, heq]
      rcases hleft with ⟨rfl, hlimit⟩ | rfl | ⟨rfl, he⟩
      · exact hkept e fun hstate => hnone (congrArg _ (hlimit hstate))
      · exact habort e
      · exact hdrop e he
    · -- the stored-byte bound: the chunk is taken back
      obtain ⟨hstate, rfl⟩ := hcheckpoint c hc
      rw [Act.wp, heq]
      refine wp_bind.2 ?_
      rcases hleft with ⟨rfl, -⟩ | rfl | ⟨rfl, he⟩
      · refine wp_rollbackUpload hs₁ (fun hnone => ?_) fun w hw => ?_
        · cases (get_insert_self _ _ _).symm.trans hnone
        · obtain rfl := hself hw
          rw [putUpload_putUpload, hgrows.rollback hstate, hs.putUpload_self hget]
          simpa using hback _
      · have hzero := hs.fits_insert hget (show v.abort.received.length ≤ u.received.length from Nat.zero_le _)
        refine wp_rollbackUpload (hs.putUpload hget hzero) (fun _ => by simpa using habort _) fun w hw => ?_
        obtain rfl := hself hw
        rw [putUpload_putUpload, UploadSession.rollback_of_not_receiving (by simp [UploadSession.abort])]
        simpa using habort _
      · refine wp_rollbackUpload (hs.dropUpload id) (fun _ => by simpa using hdrop _ he) fun w hw => ?_
        cases (get_erase_self _ _).symm.trans hw
  · have heq : finishUpload id checkpoint now (s.putUpload id v) = (.ok ⟨object.size, some object⟩, s') := by
      unfold finishUpload
      rw [hrun]
    rw [Act.wp, heq]
    exact wp_of_ok hfinalize hrun

theorem works_uploadChunk {finalize : Bool} :
    Works (.uploadChunk id offset chunk finalize now) (uploadChunk id offset chunk finalize now) := by
  intro s hs
  have hchunk : (Command.uploadChunk id offset chunk finalize now).chunk id = some (offset, chunk) :=
    if_pos rfl
  have ht := fun u (hget : s.uploads.get id = some u) =>
    (u.appended s.retainedUploadBytes s.retainedUploadLimit offset chunk).within.total hs hget
  rw [uploadChunk, wp_bind, wp_get, wp_bind, appendUpload, wp_bind, wp_get,
    wp_withUploadSession hs fun u hget => (ht u hget).1]
  simp only [failsWith_refused]
  refine ⟨fun _ => effect_refl hs, fun u hget => ⟨fun _ => effect_dropUpload hs id, fun _ => ?_⟩⟩
  have ha := u.appended s.retainedUploadBytes s.retainedUploadLimit offset chunk
  have hput := effect_putUpload hs hget (ht u hget).1 (ha.evolves hchunk)
  refine ⟨fun received hreceived => ?_, fun _ _ => hput⟩
  rw [wp_ite]
  have hgrows := ha.grows hreceived hchunk
  refine ⟨fun _ => hput, fun _ => wp_finishUpload hs hget hgrows (ht u hget).1 ?_ (fun plan _ hplan => ?_)
    (fun e _ => failsWith_refused.2 hput) (fun e => failsWith_refused.2 (effect_refl hs))
    (fun e => failsWith_refused.2 (effect_putUpload hs hget (hs.fits_insert hget (Nat.zero_le _))
      (.settles hgrows .aborted))) fun e _ => failsWith_refused.2 (effect_dropUpload hs id)⟩
  · intro c hc
    split_ifs at hc
    · simp only [StorageState.uploadCheckpoint, hget, Option.mem_def, Option.map_eq_some_iff,
        Option.filter_eq_some_iff, Option.some.injEq, decide_eq_true_eq] at hc
      obtain ⟨w, ⟨rfl, hstate⟩, rfl⟩ := hc
      exact ⟨hstate, rfl⟩
    · cases hc
  · exact effect_commitUpload hs hget hgrows (ht u hget).1 hplan

/-! ### Any call -/

theorem sameUploads_installImported {object : ObjectMetadata} :
    SameUploads s (s.installImported object bytes) := by
  obtain ⟨_, _, h⟩ := s.installImported_eq object bytes
  rw [h]
  exact ⟨rfl, rfl, rfl, rfl⟩

theorem works_insertImported {object : ImportedObject} :
    Works (.insertImported object bytes) (insertImported object bytes) := by
  intro s hs
  have hwp : Act.wp (insertImported object bytes)
      (fun _ s' => ∃ installed : ObjectMetadata, installed.blob = s.nextBlob + 1 ∧
        installed.size = bytes.length ∧ s' = s.installImported installed bytes ∧
        generationKey installed.bucket installed.name installed.generation =
          generationKey object.bucket object.name object.generation)
      (fun f s' => f ≠ .panicked ∧ s' = s) s := by
    simp only [insertImported, wp_bind, wp_require, wp_get, wp_orElse, wp_modify,
      wp_pure, wp_refuse, ne_eq, reduceCtorEq, not_false_eq_true, implies_true, and_true]
    intros _ _ _ _ _ _ _ _ nextBlob hnext
    obtain ⟨-, hnext⟩ := checkedAdd_eq_some.1 hnext
    exact ⟨_, hnext.symm, rfl, rfl, rfl⟩
  refine wp_iff.2 ⟨fun _ s' hok => ?_, fun f s' he => ?_⟩
  · obtain ⟨installed, hblob, hsize, rfl, hkey⟩ := wp_of_ok hwp hok
    refine effect_of_sameUploads hs sameUploads_installImported
      (.single (.imported hblob hsize fun hc => ?_)) (.inl regrants_installImported)
    rw [hkey]
    simpa [Command.clean, hok, Except.toOption] using hc
  · obtain ⟨hf, rfl⟩ := wp_of_error hwp he
    exact ⟨hf, effect_refl hs⟩

theorem works_mutate {mutation : Mutation} {admits : List StorageEvent → Except StorageError Unit} :
    Works (.mutate mutation admits) (mutation.run admits) := by
  by_cases hfinalize : ∃ id now, mutation = .finalizeUpload id now
  · obtain ⟨id, now, rfl⟩ := hfinalize
    exact fun s hs => wp_bind.2 (works_finalizeUploadWithAdmission s hs)
  · push Not at hfinalize
    intro s hs
    have hg : Guarded (mutation.run admits) := Mutation.guarded hfinalize
    refine wp_iff.2 ⟨fun a s' hok => ?_, fun f s' he => ?_⟩
    · obtain ⟨object, reservation⟩ := a
      have hsame := wp_of_ok (hg s) hok
      rcases mutation.announces Unit admits s s' object reservation hok with
        ⟨-, rfl, -⟩ | ⟨_, batch, s₁, -, hc, hs₁, -, -⟩
      · exact effect_refl hs
      · refine effect_of_sameUploads hs hsame (.tail (.single (.change hc)) (.same ?_))
          (.inl (hc.regrants.congr (by rw [hs₁]) (by rw [hs₁])))
        rw [hs₁]
        exact ⟨rfl, rfl, rfl, rfl, rfl, rfl⟩
    · obtain ⟨hf, rfl⟩ := wp_of_error (hg s) he
      exact ⟨hf, effect_refl hs⟩

theorem works_removeBucketsWhere {owned : Str → Bool} : Works command (removeBucketsWhere owned) := by
  intro s hs
  have hsame := sameUploads_withoutGenerations owned s
  refine (wp_removeBucketsWhere hs).2 ⟨hs.withoutBuckets owned, ?_, hsame.next.ge, fun id u hget => .inl ?_,
    .inl (regrants_withoutGenerations.congr rfl rfl)⟩
  · exact .tail (.single (.removed owned)) (.same ⟨rfl, rfl, rfl, rfl, rfl, rfl⟩)
  · have hget := (get_filter_eq_some.1 hget).1
    rw [hsame.uploads] at hget
    exact ⟨u, hget, evolves_same⟩

theorem setPublicRead_frame :
    SameUploads s (s.setPublicRead bucket name) ∧ SameContents s (s.setPublicRead bucket name) := by
  unfold StorageState.setPublicRead
  cases s.get bucket name <;> exact ⟨⟨rfl, rfl, rfl, rfl⟩, rfl, rfl, rfl, rfl, rfl, rfl⟩

theorem clearPublicRead_frame :
    SameUploads s (s.clearPublicRead bucket name) ∧ SameContents s (s.clearPublicRead bucket name) := by
  unfold StorageState.clearPublicRead
  cases s.get bucket name <;> exact ⟨⟨rfl, rfl, rfl, rfl⟩, rfl, rfl, rfl, rfl, rfl, rfl⟩

/-- What every call does. -/
theorem Command.effect (command : Command) : Works command command.run := by
  cases command with
  | mutate => exact works_mutate.map
  | insertImported => exact works_insertImported.map
  | beginUpload => exact works_beginUploadWith.map
  | setUploadHashes => exact works_setUploadHashes
  | setUploadTotal => exact works_setUploadTotal
  | uploadPhase => exact works_uploadPhase.map
  | pendingUpload => exact works_pendingUpload.map
  | markUploadDenied => exact works_markUploadDenied
  | cancelUpload => exact works_cancelUpload
  | appendUpload id offset chunk now =>
    have hchunk : (Command.appendUpload id offset chunk now).chunk id = some (offset, chunk) := if_pos rfl
    exact (works_appendUpload hchunk).map
  | appendUploadOwned id offset chunk now =>
    have hchunk : (Command.appendUploadOwned id offset chunk now).chunk id = some (offset, chunk) :=
      if_pos rfl
    exact (works_appendUploadOwned hchunk).map
  | uploadChunk => exact works_uploadChunk.map
  | rollbackUpload => exact works_rollbackUpload
  | setPublicRead bucket name =>
    exact works_modify (fun s => (setPublicRead_frame).1)
      (fun s => (setPublicRead_frame).2.advances) fun _ => .inr ⟨bucket, name, rfl, rfl⟩
  | clearPublicRead =>
    exact works_modify (fun s => (clearPublicRead_frame).1)
      (fun s => (clearPublicRead_frame).2.advances) fun _ =>
        .inl (regrants_clearPublicRead)
  | defaultContentDisposition bucket name value =>
    exact works_modify (fun _ => ⟨rfl, rfl, rfl, rfl⟩) (fun _ => .single (.described bucket name value))
      fun _ => .inl (regrants_defaultContentDisposition)
  | removeBucket | removeBucketsWhere => exact works_removeBucketsWhere.map
  | clear =>
    exact fun s _ => ⟨accounted_of_empty rfl rfl, .single .cleared, le_rfl,
      (fun _ _ hget => nomatch hget), .inl (regrants_clear)⟩
  | setVersioning | setProductionOrder | setStoredBytesLimit | setTokenGenerator | drainEvents =>
    exact works_configure (fun _ => ⟨rfl, rfl, rfl, rfl⟩) (fun _ => by constructor <;> rfl) fun _ => rfl

end Fireemu.Storage
