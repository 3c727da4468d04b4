import Fireemu.Storage.Ownership

/-!
# The bound on stored bytes

The check of a write against the bound comes before the write and predicts what it leaves.  On a sound
store the prediction is exact (`storedBytes_applyPlannedPut`): the blob of a write is new, and the blob of
the generation it replaces is counted.  So a write is let through if and only if it ends within the bound
or does not add to the total.
-/

namespace Fireemu.Storage

open Library (SortedMap)

variable {s s' : StorageState} {plan : StorageState.PlannedPut}

/-- The bytes that go with a replaced generation. -/
def StorageState.freed (s : StorageState) (replaced : Option ObjectMetadata) : ℕ :=
  ((replaced.bind fun old => s.blobs.get old.blob).map List.length).getD 0

theorem freed_le (hs : Counted s) (replaced : Option ObjectMetadata) : s.freed replaced ≤ s.storedBytes := by
  rw [hs]
  cases replaced with
  | none => exact Nat.zero_le _
  | some => exact s.blobLength_le

variable {bytes : List Byte}

/-- A new blob adds its length. -/
theorem storedBytes_insertBlob {blob : ℕ} (h : s.blobs.get blob = none) :
    (s.insertBlob blob bytes).storedBytes = s.storedBytes + bytes.length := by
  rw [StorageState.insertBlob, h]
  rfl

/-- What a write leaves is what the check expects. -/
theorem storedBytes_applyPlannedPut (hs : Sound s) (hblob : plan.object.blob = s.nextBlob + 1)
    (hr : Replaces s plan) (bytes : List Byte) (events : List StorageEvent) :
    (s.applyPlannedPut plan bytes events).storedBytes =
      s.storedBytes - s.freed plan.replaced + bytes.length := by
  have hnew : s.blobs.get plan.object.blob = none := by
    rw [Option.eq_none_iff_forall_ne_some]
    intro old hold
    have := hs.owned.drawn _ old hold
    change plan.object.blob ≤ s.nextBlob at this
    omega
  unfold StorageState.applyPlannedPut
  rw [hr]
  cases s.objects.get plan.key with
  | none =>
    rw [ite_self]
    exact storedBytes_insertBlob hnew
  | some old =>
    cases plan.archive with
    | some => exact storedBytes_insertBlob hnew
    | none =>
      dsimp only
      rw [StorageState.removeBlob_eq]
      refine storedBytes_insertBlob ?_
      change (s.blobs.erase old.blob).get plan.object.blob = none
      rw [SortedMap.get_erase, hnew, ite_self]

variable {limit : ℕ}

/-- The check lets a write through if it ends within the bound or does not add to the total. -/
theorem checkStoredBytes_iff (hs : Sound s) (hblob : plan.object.blob = s.nextBlob + 1) (hr : Replaces s plan)
    (hlimit : s.storedBytesLimit = some limit) {events : List StorageEvent} :
    s.checkStoredBytes plan.replaced bytes.length = .ok () ↔
      (s.applyPlannedPut plan bytes events).storedBytes ≤ limit ∨
        (s.applyPlannedPut plan bytes events).storedBytes ≤ s.storedBytes := by
  have hle := freed_le hs.counted plan.replaced
  rw [storedBytes_applyPlannedPut hs hblob hr]
  unfold StorageState.checkStoredBytes
  rw [hlimit]
  dsimp only
  rw [← StorageState.freed]
  split_ifs with h
  · exact iff_of_false nofun (by omega)
  · exact iff_of_true rfl (by omega)

theorem Change.storedBytes {object : ObjectMetadata} {batch : List StorageEvent}
    (h : Change s object batch s') (hs : Sound s) (hlimit : s.storedBytesLimit = some limit) :
    s'.storedBytes ≤ limit ∨ s'.storedBytes ≤ s.storedBytes := by
  cases h with
  | write bytes hplan =>
    have hp := planned_of_planPut hplan
    exact (checkStoredBytes_iff hs hp.blob hp.replaced hlimit).1 (hp.size ▸ hp.checked)
  | update | updateVersion | archive => exact .inr le_rfl
  | drop | dropVersion => exact .inr (Nat.sub_le _ _)

/-- No call that announces events, a write, a copy and the end of an upload among them, takes the total past
the bound; and a write is refused for its size only if it would. -/
theorem stored_bytes_within_limit (seed : BitVec 64) (steps : List SessionStep) :
    ∃ session, (Session.new seed).run steps = some session ∧
      ∀ limit, session.store.storedBytesLimit = some limit →
        (∀ (mutation : Mutation) (R : Type) (admits : List StorageEvent → Except StorageError R)
          (answer : ObjectMetadata × Option R) (s' : StorageState),
          mutation.run admits session.store = (.ok answer, s') →
            s'.storedBytes ≤ limit ∨ s'.storedBytes ≤ session.store.storedBytes) ∧
        ∀ (bucket : BucketName) (name : ObjectName) (digests : ObjectDigests) (metadata : NewMetadata)
          (pre : Precondition) (now : LogicalInstant) (plan : StorageState.PlannedPut)
          (bytes : List Byte) (events : List StorageEvent),
          StorageState.planPut { session.store with storedBytesLimit := none } bucket name bytes.length
            digests metadata pre now = .ok plan →
          (session.store.checkStoredBytes plan.replaced bytes.length = .ok () ↔
            (session.store.applyPlannedPut plan bytes events).storedBytes ≤ limit ∨
              (session.store.applyPlannedPut plan bytes events).storedBytes ≤
                session.store.storedBytes) := by
  obtain ⟨session, hrun, -, ledger, hfiled⟩ := (Session.accounted_new seed).run
    (P := fun _ session => ∃ ledger, session.Filed ledger) steps ⟨_, Session.filed_new⟩
    fun _ _ _ _ _ ⟨ledger, h⟩ _ hm => (h.moves hm).imp fun _ h => h.2
  have hs := hfiled.store.sound
  refine ⟨session, hrun, fun limit hlimit => ⟨fun mutation R admits answer s' hok => ?_,
    fun bucket name digests metadata pre now plan bytes events hplan => ?_⟩⟩
  · rcases mutation.announces R admits session.store s' answer.1 answer.2 hok with
      ⟨-, rfl, -⟩ | ⟨_, batch, s₁, -, hc, hs₁, -, -⟩
    · exact .inr le_rfl
    · have hsame : s'.storedBytes = s₁.storedBytes := by
        rw [hs₁]
      rw [hsame]
      exact hc.storedBytes hs hlimit
  · exact checkStoredBytes_iff hs (planned_of_planPut hplan).blob (planned_of_planPut hplan).replaced hlimit

end Fireemu.Storage
