import Fireemu.Storage.Restore

/-!
# Public read follows the live generation

In every store that a session reaches, every grant names the number of the live generation of its object
(`Granted`): a call that makes another number live leaves the object private.  Only a restoration can make
another number live with its grant, because a capture holds grants along with generations.
-/

namespace Fireemu.Storage

open Library (SortedMap SortedSet Act)
open Library.SortedSet

variable {s s' captured : StorageState} {command : Command}

/-- Every grant is one of a live generation. -/
def Granted (s : StorageState) : Prop :=
  ∀ bucket name generation, generationKey bucket name generation ∈ s.publicRead →
    s.liveGeneration bucket name = some generation

theorem Sound.named (hs : Sound s) : Named s := fun key object hget => (hs.drawn (.live key) object hget).1

variable {bucket : BucketName} {name : ObjectName}

/-- After a call, what is public was live before, and public too unless the call grants it. -/
theorem Effect.public_of_public (he : Effect command s s') (hn : Named s) (hs : Granted s) {generation : ℕ}
    (hmem : generationKey bucket name generation ∈ s'.publicRead) :
    s.liveGeneration bucket name = some generation ∧ s'.liveGeneration bucket name = some generation ∧
      (generationKey bucket name generation ∈ s.publicRead ∨ command = .setPublicRead bucket name) := by
  rcases he.grants with hg | ⟨bucket', name', rfl, rfl⟩
  · obtain ⟨hwas, hkeeps⟩ := hg hn bucket name generation hmem
    have hlive := hs _ _ _ hwas
    exact ⟨hlive, hkeeps hlive, .inl hwas⟩
  · have hsame : (s.setPublicRead bucket' name').liveGeneration bucket name = s.liveGeneration bucket name := by
      rw [StorageState.liveGeneration, (setPublicRead_frame).2.objects]
      rfl
    rw [hsame]
    suffices h : s.liveGeneration bucket name = some generation ∧
        (generationKey bucket name generation ∈ s.publicRead ∨
          Command.setPublicRead bucket' name' = .setPublicRead bucket name) from ⟨h.1, h.1, h.2⟩
    unfold StorageState.setPublicRead at hmem
    cases hget : s.get bucket' name' with
    | none =>
      rw [hget] at hmem
      exact ⟨hs _ _ _ hmem, .inl hmem⟩
    | some =>
      rw [hget] at hmem
      rcases mem_add.1 hmem with heq | hwas
      · obtain ⟨rfl, rfl, rfl⟩ := generationKey_inj.1 heq
        exact ⟨congrArg (Option.map _) hget, .inr rfl⟩
      · exact ⟨hs _ _ _ hwas, .inl hwas⟩

/-- A restoration takes the live generations and the grants of its scope from the capture. -/
theorem liveGeneration_restoreContent {owned : Str → Bool} :
    (captured.restoreContent owned (s.withoutBuckets owned)).liveGeneration bucket name =
      (if owned bucket.1 then captured else s).liveGeneration bucket name := by
  unfold StorageState.liveGeneration
  rw [objects_takenOver]
  change Option.map _ (if owned bucket.1 then _ else _) = _
  split_ifs <;> rfl

theorem publicRead_restoreContent (captured s : StorageState) (owned : Str → Bool) (bucket : BucketName)
    (name : ObjectName) (generation : ℕ) :
    generationKey bucket name generation ∈
        (captured.restoreContent owned (s.withoutBuckets owned)).publicRead ↔
      generationKey bucket name generation ∈ (if owned bucket.1 then captured else s).publicRead := by
  rw [mem_def, publicRead_takenOver, mem_def]
  change (if owned bucket.1 then _ else _) = _ ↔ _
  split_ifs <;> rfl

theorem Granted.restoreContent (hs : Granted s) (hcaptured : Granted captured) (owned : Str → Bool) :
    Granted (captured.restoreContent owned (s.withoutBuckets owned)) := by
  intro bucket name generation hmem
  rw [publicRead_restoreContent] at hmem
  rw [liveGeneration_restoreContent]
  split_ifs at hmem ⊢
  · exact hcaptured _ _ _ hmem
  · exact hs _ _ _ hmem

theorem Granted.captureBuckets (hs : Granted s) (owned : Str → Bool) : Granted (s.captureBuckets owned) := by
  intro bucket name generation hmem
  obtain ⟨hwas, ho⟩ := SortedMap.get_filter_eq_some.1 hmem
  have hlive := hs _ _ _ hwas
  unfold StorageState.liveGeneration at hlive ⊢
  change Option.map _ ((s.objects.filter fun key _ => owned (ofLex key).1.1).get _) = _
  rwa [SortedMap.get_filter_key, if_pos (by exact ho)]

/-- A session whose store and captures have the grants of live generations only. -/
structure Session.Granted (session : Session) : Prop where
  filed : ∃ ledger, session.Filed ledger
  store : Storage.Granted session.store
  captures : ∀ captured ∈ session.captures, Storage.Granted captured

theorem Session.granted_new {seed : BitVec 64} : (Session.new seed).Granted :=
  ⟨⟨_, Session.filed_new⟩, fun _ _ _ hmem => absurd hmem (not_mem_empty _), nofun⟩

theorem Session.Granted.moves {session session' : Session} {step : SessionStep} (h : session.Granted)
    (hm : session.Moves step session') : session'.Granted := by
  obtain ⟨⟨_, hf⟩, hs, hc⟩ := h
  obtain ⟨ledger, -, hf'⟩ := hf.moves hm
  suffices h : Storage.Granted session'.store ∧ ∀ captured ∈ session'.captures, Storage.Granted captured from
    ⟨⟨ledger, hf'⟩, h.1, h.2⟩
  cases hm with
  | command command he =>
    exact ⟨fun _ _ _ hmem => (he.public_of_public hf.store.sound.named hs hmem).2.1, hc⟩
  | capture owned =>
    exact ⟨hs, List.forall_mem_append.2 ⟨hc, List.forall_mem_singleton.2 (hs.captureBuckets owned)⟩⟩
  | restore owned hcaptured => exact ⟨hs.restoreContent (hc _ hcaptured) owned, hc⟩
  | unchanged => exact ⟨hs, hc⟩

/-- Along every run a grant names the live generation of its object.  What is public after a call has the
number that was live before it, and was public then unless the call grants it: a number that another call,
such as an import, makes live starts private.  A restoration that is made takes live generations and grants
of its scope from the capture. -/
theorem grants_follow_live_generation (seed : BitVec 64) (steps : List SessionStep) :
    ∃ session, (Session.new seed).run steps = some session ∧ Granted session.store ∧
      (∀ (command : Command) (bucket : BucketName) (name : ObjectName) (generation : ℕ),
        generationKey bucket name generation ∈ (command.run session.store).2.publicRead →
          session.store.liveGeneration bucket name = some generation ∧
          (command.run session.store).2.liveGeneration bucket name = some generation ∧
          (generationKey bucket name generation ∈ session.store.publicRead ∨
            command = .setPublicRead bucket name)) ∧
      ∀ (owned : Str → Bool) (index : ℕ), session.step (.restore owned index) = some session ∨
        ∃ captured ∈ session.captures, ∃ session', session.step (.restore owned index) = some session' ∧
          ∀ (bucket : BucketName) (name : ObjectName), session'.store.liveGeneration bucket name =
              (if owned bucket.1 then captured else session.store).liveGeneration bucket name ∧
            ∀ generation, generationKey bucket name generation ∈ session'.store.publicRead ↔
              generationKey bucket name generation ∈
                (if owned bucket.1 then captured else session.store).publicRead := by
  obtain ⟨session, hrun, ha, hg⟩ := (Session.accounted_new seed).run
    (P := fun _ session => session.Granted) steps (Session.granted_new)
    fun _ _ _ _ _ h _ hm => h.moves hm
  obtain ⟨_, hf⟩ := hg.filed
  refine ⟨session, hrun, hg.store, fun command bucket name generation hmem => ?_, fun owned index => ?_⟩
  · have he : Effect command session.store (command.run session.store).2 := by
      have := command.effect session.store ha.store
      rw [Act.wp_iff] at this
      rcases hr : command.run session.store with ⟨f | a, s'⟩
      · exact (this.2 f s' hr).2
      · exact this.1 a s' hr
    exact he.public_of_public hf.store.sound.named hg.store hmem
  · obtain ⟨session', hstep, hm⟩ := ha.step (.restore owned index)
    cases hm with
    | unchanged => exact .inl hstep
    | restore _ hcaptured =>
      exact .inr ⟨_, hcaptured, _, hstep, fun bucket name =>
        ⟨liveGeneration_restoreContent, publicRead_restoreContent _ _ owned bucket name⟩⟩

/-- A public generation is captured, gives way to another one, and comes back with the capture. -/
def publicComesBack : List SessionStep :=
  [importStep 1, .command (.setPublicRead sampleBucket sampleName), .capture fun _ => true,
    .command (.insertImported (sampleImport 2) [0])]

/-- Before the restoration another number is live and the object is private; after it the object is public. -/
theorem restoration_publishes :
    ((Session.new 0).run publicComesBack).map (fun session =>
        (session.store.liveGeneration sampleBucket sampleName, session.store.publicRead.keys.length)) =
      some (some 2, 0) ∧
    ((Session.new 0).run (publicComesBack ++ [.restore (fun _ => true) 0])).map (fun session =>
        (session.store.liveGeneration sampleBucket sampleName,
          decide (generationKey sampleBucket sampleName 1 ∈ session.store.publicRead))) =
      some (some 1, true) := by
  constructor <;> decide +kernel

end Fireemu.Storage
