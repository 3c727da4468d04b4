import Fireemu.PubSub.Broker

/-!
# What a command does to one subscription

`Command.operations` lists the operations of a subscription that a command executes on it, and
`Broker.Step.subscription` says that this is all that happens to it, except that settings may change
and that a command may discard or create it.  `publication_atomic` then says that a commit is atomic
and never panics, after every run of the broker.
-/

namespace Fireemu.PubSub

open Library (GroupedIndex SortedMap SortedSet)
open List Library.SortedMap SubscriptionState PubSubState

variable {s' : PubSubState} {key : Str} {now : LogicalInstant} {c : Command}

namespace Command

/-- Whether a command drops a subscription. -/
def Discards : Command → Str → Prop
  | .deleteSubscription name, key => key = name.toFull
  | .clear, _ => True
  | .clearProject project, key => PubSubState.InProject (· = project) key
  | .clearProjectsWhere accepted, key => PubSubState.InProject (accepted · = true) key
  | _, _ => False

variable (platform : Platform)

/-- The operations a command executes on a subscription. -/
def operations (b : Broker) (key : Str) (sub : SubscriptionState) : Command → List Operation
  | .commitPrepared i now =>
      match b.pool[i]? with
      | none => []
      | some prepared =>
          match b.state.commitAdmission platform prepared with
          | .error _ => []
          | .ok () =>
              if b.state.Reaches (b.state.topicSubscriptions prepared.topicKey) key then
                (prepared.published.filter sub.admits).map fun stored =>
                  .enqueue stored (prepared.publishTime now)
              else []
  | .pull name max now batching authorized admission =>
      if key = name.toFull then
        [.expireDeadlines now, .pull max now (sub.config.deadLetterPolicy.isSome && authorized)
          batching (PubSubState.nextAckId b.state.ackRng) admission]
      else []
  | .acknowledge name ackIds => if key = name.toFull then [.acknowledge ackIds] else []
  | .retainOutstandingAckIds name _ now =>
      if key = name.toFull then [.expireDeadlines now] else []
  | .modifyAckDeadline name ackIds seconds now =>
      if key = name.toFull then ackIds.map fun id => .modifyAckDeadline id seconds now else []
  | .seekToTime name time now => if key = name.toFull then [.seekToTime time now] else []
  | .seekToSnapshot subscription snapshotName now =>
      if key = subscription.toFull then
        match b.state.getSnapshot platform snapshotName now with
        | (.error _, _) => []
        | (.ok snapshot, s) =>
            if sub.config.topic ≠ snapshot.topic ∨
                (s.topics.get sub.config.topic.toFull).map TopicEntry.incarnation ≠
                  some snapshot.topicIncarnation then []
            else [.seekToSnapshot snapshot.capturedMessages snapshot.retainedMessageIds
              snapshot.unacknowledgedMessageIds snapshot.createdAt now]
      else []
  | .expireAll now => [.expireDeadlines now]
  | .completeDeadLetter name messageId =>
      if key = name.toFull then [.completeForward messageId] else []
  | .resumeDeadLetter forward now =>
      if key = forward.sourceSubscription.toFull then [.resumeForward forward.message now] else []
  | .prepareDeadLetterPublication forward authorized _ now =>
      if b.state.canCommitDeadLetter forward authorized then []
      else if key = forward.sourceSubscription.toFull then [.resumeForward forward.message now]
      else []
  | _ => []

/-- The messages a pull returns. -/
def received (b : Broker) : Command → List ReceivedMessage
  | .pull name max now batching authorized admission =>
      (b.state.pullWithDeadLettersAdmitted name max now batching authorized admission).1.toOption.elim
        [] PullResult.received
  | _ => []

end Command

namespace PubSubState

variable {s s'' : PubSubState} {discarded : Str → Prop} {ops : Str → SubscriptionState → List Operation}

/-- Subscriptions are dropped, or execute operations and have their settings changed. -/
def Executes (discarded : Str → Prop) (ops : Str → SubscriptionState → List Operation)
    (s s' : PubSubState) : Prop :=
  ∀ key, (s'.subscriptions.get key = none ∧
      (s.subscriptions.get key = none ∨ discarded key)) ∨
    ∃ sub sub', s.subscriptions.get key = some sub ∧
      s'.subscriptions.get key = some sub' ∧ (sub.run (ops key sub)).Administered sub'

theorem Administers.executes (h : Administers discarded s s')
    (hops : ∀ key sub, s.subscriptions.get key = some sub → ops key sub = []) :
    Executes discarded ops s s' := by
  intro key
  refine (h.subs key).imp_right ?_
  rintro ⟨sub, sub', hsub, hsub', hadm⟩
  refine ⟨sub, sub', hsub, hsub', ?_⟩
  rwa [hops key sub hsub]

variable {f : SubscriptionState → SubscriptionState}

variable {name : SubscriptionName}

/-- Operations on one subscription. -/
theorem executes_of_get (hself : s'.subscriptions.get key = (s.subscriptions.get key).map f)
    (hrest : ∀ key' ≠ key, s'.subscriptions.get key' = s.subscriptions.get key')
    (hf : ∀ sub, s.subscriptions.get key = some sub → f sub = sub.run (ops key sub))
    (ho : ∀ key' ≠ key, ∀ sub, ops key' sub = []) : Executes discarded ops s s' := by
  intro key'
  by_cases hkey : key' = key
  · subst hkey
    rw [hself]
    cases hsub : s.subscriptions.get key' with
    | none => exact .inl ⟨rfl, .inl rfl⟩
    | some sub =>
      refine .inr ⟨sub, f sub, rfl, rfl, ?_⟩
      rw [hf sub hsub]
      exact .refl _
  · rw [hrest key' hkey]
    cases hsub : s.subscriptions.get key' with
    | none => exact .inl ⟨rfl, .inl rfl⟩
    | some sub =>
      refine .inr ⟨sub, sub, rfl, rfl, ?_⟩
      rw [ho key' hkey]
      exact .refl sub

theorem executes_updateSub (hf : ∀ sub, s.subscriptions.get key = some sub → f sub = sub.run (ops key sub))
    (ho : ∀ key' ≠ key, ∀ sub, ops key' sub = []) : Executes discarded ops s (s.updateSub key f) := by
  refine executes_of_get ?_ (fun key' hkey => ?_) hf ho <;>
    rw [updateSub, get_modify]
  · exact if_pos rfl
  · exact if_neg hkey

theorem executes_onSub {α : Type} {f : SubscriptionState → Except PubSubError α × SubscriptionState}
    (hf : ∀ sub, s.subscriptions.get name.toFull = some sub → (f sub).2 = sub.run (ops name.toFull sub))
    (ho : ∀ key' ≠ name.toFull, ∀ sub, ops key' sub = []) : Executes discarded ops s (s.onSub name f).2 := by
  rw [onSub_snd]
  exact executes_updateSub hf ho

theorem Pruned.subscriptions (h : s.Pruned s') : s'.subscriptions = s.subscriptions := by
  obtain ⟨_, _, _, _, rfl⟩ := h.frame
  rfl

theorem Pruned.executes (h : s.Pruned s') (h' : Executes discarded ops s' s'') :
    Executes discarded ops s s'' := by
  intro key
  rw [← h.subscriptions]
  exact h' key

/-- A pull is a sweep and a delivery. -/
theorem executes_pull {max : ℕ} {batching : OrderedPullBatching} {authorized : Bool}
    {admission : List StoredMessage → Bool} (hops : ∀ sub, ops name.toFull sub = [.expireDeadlines now,
      .pull max now (sub.config.deadLetterPolicy.isSome && authorized) batching (nextAckId s.ackRng)
        admission]) (ho : ∀ key' ≠ name.toFull, ∀ sub, ops key' sub = []) :
    Executes discarded ops s
      (s.pullWithDeadLettersAdmitted name max now batching authorized admission).2 := by
  cases hsub : s.subscriptions.get name.toFull with
  | none =>
    rw [pullWithDeadLettersAdmitted, hsub]
    refine (Administers.refl s).executes fun key sub hget => ho key ?_ sub
    rintro rfl
    rw [hsub] at hget
    cases hget
  | some sub =>
    rw [pullWithDeadLettersAdmitted, hsub]
    refine executes_of_get (f := fun sub => sub.run (ops name.toFull sub)) ?_
      (fun key' hkey => get_insert_of_ne _ _ hkey) (fun _ _ => rfl) ho
    have hc : (sub.expireDeadlines now).config = sub.config :=
      foldl_release_config sub
    rw [hsub, Option.map_some, hops, ← hc]
    exact get_insert_self _ _ _

/-- A pull draws an ack id for every message it returns. -/
theorem pullWithDeadLettersAdmitted_frame (s : PubSubState) (name : SubscriptionName) (max : ℕ)
    (now : LogicalInstant) (batching : OrderedPullBatching) (authorized : Bool)
    (admission : List StoredMessage → Bool) :
    ∃ subscriptions, (s.pullWithDeadLettersAdmitted name max now batching authorized admission).2 = { s with
        subscriptions
        ackRng := s.ackRng.advance
          ((s.pullWithDeadLettersAdmitted name max now batching authorized
            admission).1.toOption.elim [] PullResult.received).length } := by
  cases hsub : s.subscriptions.get name.toFull with
  | none =>
    rw [pullWithDeadLettersAdmitted, hsub]
    dsimp only [Except.toOption, Option.elim, length_nil]
    rw [SplitMix64.advance_zero]
    exact ⟨_, rfl⟩
  | some =>
    rw [pullWithDeadLettersAdmitted, hsub]
    exact ⟨_, rfl⟩

/-- A commit appends the publication to the subscriptions it reaches. -/
theorem Committed.executes {prepared : PreparedPublication} (h : s.Committed s' prepared now)
    (hreach : ∀ key sub, s.Reaches (s.topicSubscriptions prepared.topicKey) key →
      ops key sub = (prepared.published.filter sub.admits).map fun stored =>
        .enqueue stored (prepared.publishTime now))
    (ho : ∀ key sub, ¬ s.Reaches (s.topicSubscriptions prepared.topicKey) key → ops key sub = []) :
    Executes discarded ops s s' := by
  intro key
  cases hget : s.subscriptions.get key with
  | none =>
    refine .inl ⟨?_, .inl rfl⟩
    rw [h.other key (.inr hget), hget]
  | some sub =>
    refine .inr ?_
    by_cases hkey : s.Reaches (s.topicSubscriptions prepared.topicKey) key
    · obtain ⟨sub', hsub', he⟩ := h.reached key hkey sub hget
      refine ⟨sub, sub', rfl, hsub', ?_⟩
      rw [hreach key sub hkey, run_of_enqueueEach he]
      exact .refl sub'
    · refine ⟨sub, sub, rfl, ?_, ?_⟩
      · rw [h.other key (.inl hkey), hget]
      · rw [ho key sub hkey]
        exact .refl sub

/-- The subscriptions by topic once a new one is added. -/
def attachment (s : PubSubState) (config : SubscriptionConfig) : SortedMap Str (SortedSet Str) :=
  s.topicSubs.insert config.topic.toFull
    (SortedSet.add ((s.topicSubs.get config.topic.toFull).getD SortedMap.empty)
      config.name.toFull)

/-- A creation is refused, or it attaches a name that no subscription has; then it creates the
subscription unless policies have run out. -/
theorem createSubscription_frame (s : PubSubState) (config : SubscriptionConfig)
    (checked : Except PubSubError Unit) :
    (s.createSubscription config checked).2 = s ∨ s.subscriptions.get config.name.toFull = none ∧
      (maxPolicyIncarnation ≤ s.policyIncarnation ∧
        (s.createSubscription config checked).2 = { s with topicSubs := s.attachment config } ∨
      s.policyIncarnation < maxPolicyIncarnation ∧ (s.createSubscription config checked).2 = { s with
          topicSubs := s.attachment config
          policyIncarnation := s.policyIncarnation + 1
          subscriptions := s.subscriptions.insert config.name.toFull
            { SubscriptionState.new config with
              pushMinimumRedeliveryInterval := s.pushMinimumRedeliveryInterval } }) := by
  unfold createSubscription
  split
  · exact .inl rfl
  dsimp only
  by_cases he : s.subscriptions.contains config.name.toFull = true
  · rw [if_pos he]
    exact .inl rfl
  rw [if_neg he]
  have hnone : s.subscriptions.get config.name.toFull = none := by
    simpa [SortedMap.contains] using he
  by_cases ht : (!config.topic.isDeletedSentinel &&
      !s.topics.contains config.topic.toFull) = true
  · rw [if_pos ht]
    exact .inl rfl
  rw [if_neg ht]
  split
  · exact .inl rfl
  by_cases hfull : maxSubscriptions ≤ s.subscriptions.size
  · rw [if_pos hfull]
    exact .inl rfl
  rw [if_neg hfull]
  refine .inr ⟨hnone, ?_⟩
  unfold createResourcePolicy
  by_cases hp : s.policyIncarnation + 1 ≤ maxPolicyIncarnation
  · rw [if_pos hp]
    exact .inr ⟨hp, rfl⟩
  · rw [if_neg hp]
    exact .inl ⟨by omega, rfl⟩

end PubSubState

namespace Broker

variable {platform : Platform} {b b' : Broker}

/-- What every run keeps: the accounts of subscriptions, and the index of snapshots. -/
structure Sound (b : Broker) : Prop where
  accounted : ∀ key sub, b.sub? key = some sub → sub.Accounted
  index : b.state.SnapshotIndex

variable {outcome : Outcome PreparedPublication}

theorem state_prepared : (b.prepared outcome).state = outcome.2 := by
  unfold prepared
  split <;> rfl

/-- What a command can do. -/
structure Step (platform : Platform) (b : Broker) (c : Command) (b' : Broker) : Prop where
  subs : PubSubState.Executes c.Discards (c.operations platform b) b.state b'.state ∨
    ∃ config checked, c = .createSubscription config checked ∧
      b'.state = (b.state.createSubscription config checked).2
  index : b.state.SnapshotIndex → b'.state.SnapshotIndex
  ackRng : b'.state.ackRng = b.state.ackRng.advance (c.received b).length ∨ ∀ key, c.Discards key
  nextAddress : b.state.nextAddress ≤ b'.state.nextAddress
  pool : (∀ i now, c ≠ .commitPrepared i now) ∧
      (b'.pool = b.pool ∨ ∃ prepared, b'.pool = b.pool ++ [prepared] ∧ b.state.Allocates b'.state prepared) ∨
    ∃ i now, c = .commitPrepared i now ∧ b'.pool = b.pool.eraseIdx i

theorem Step.of_administers (hc : ∀ i now, c ≠ .commitPrepared i now)
    (h : PubSubState.Administers c.Discards b.state s')
    (hops : ∀ key sub, b.sub? key = some sub → c.operations platform b key sub = [])
    (hreceived : c.received b = []) : Step platform b c ⟨s', b.pool⟩ where
  subs := .inl (h.executes hops)
  index := h.index
  ackRng := by
    rw [hreceived, length_nil, SplitMix64.advance_zero]
    exact h.ackRng
  nextAddress := h.nextAddress
  pool := .inl ⟨hc, .inl rfl⟩

/-- Operations that draw no ack id. -/
theorem Step.of_executes (hc : ∀ i now, c ≠ .commitPrepared i now)
    (h : PubSubState.Executes c.Discards (c.operations platform b) b.state s')
    (hi : b.state.SnapshotIndex → s'.SnapshotIndex) (hrng : s'.ackRng = b.state.ackRng)
    (ha : s'.nextAddress = b.state.nextAddress) (hreceived : c.received b = []) :
    Step platform b c ⟨s', b.pool⟩ where
  subs := .inl h
  index := hi
  ackRng := by
    rw [hreceived, length_nil, SplitMix64.advance_zero]
    exact .inl hrng
  nextAddress := ha.ge
  pool := .inl ⟨hc, .inl rfl⟩

/-- Operations on one subscription that draw no ack id. -/
theorem Step.of_onSub {α : Type} (hc : ∀ i now, c ≠ .commitPrepared i now) (name : SubscriptionName)
    {f : SubscriptionState → Except PubSubError α × SubscriptionState}
    (l : SubscriptionState → List Operation)
    (hops : ∀ key sub, c.operations platform b key sub = if key = name.toFull then l sub else [])
    (hf : ∀ sub, (f sub).2 = sub.run (l sub)) (hreceived : c.received b = []) :
    Step platform b c (b.after (b.state.onSub name f)) := by
  refine Step.of_executes hc
    (executes_onSub (fun sub _ => ?_) fun key hkey sub => ?_) (fun h => ?_) ?_ ?_ hreceived <;> try rw [onSub_snd]
  · rw [hops, if_pos rfl, hf]
  · rw [hops, if_neg hkey]
  · exact h.of_eq rfl rfl
  · rfl
  · rfl

/-- A preparation enters the pool. -/
theorem Step.of_prepared (hc : ∀ i now, c ≠ .commitPrepared i now)
    (h : PubSubState.Administers c.Discards b.state outcome.2)
    (hops : ∀ key sub, b.sub? key = some sub → c.operations platform b key sub = [])
    (hreceived : c.received b = [])
    (ha : ∀ prepared s', outcome = (.ok prepared, s') → b.state.Allocates s' prepared) :
    Step platform b c (b.prepared outcome) := by
  have hstep := Step.of_administers hc h hops hreceived
  obtain ⟨result, s'⟩ := outcome
  cases result with
  | error => exact hstep
  | ok prepared =>
    exact ⟨hstep.subs, hstep.index, hstep.ackRng, hstep.nextAddress,
      .inl ⟨hc, .inr ⟨prepared, rfl, ha prepared s' rfl⟩⟩⟩

variable {authorized : Bool}

theorem executes_expireAll {s : PubSubState} {discarded : Str → Prop} :
    PubSubState.Executes discarded (fun _ _ => [.expireDeadlines now]) s
      (s.expireAll platform now) := by
  refine (pruned_removeExpiredSnapshots platform s now).executes fun key => ?_
  unfold PubSubState.expireAll
  dsimp only
  rw [get_mapValues]
  cases (s.removeExpiredSnapshots platform now).subscriptions.get key with
  | none => exact .inl ⟨rfl, .inl rfl⟩
  | some sub => exact .inr ⟨sub, _, rfl, rfl, .refl _⟩

/-- A transfer that may not be made is given back. -/
theorem step_prepareDeadLetterPublication (b : Broker) {forward : DeadLetterForward} {enforced : Bool} :
    Step platform b (.prepareDeadLetterPublication forward authorized enforced now) (b.prepared
      (b.state.prepareDeadLetterPublication platform forward authorized enforced now)) := by
  unfold PubSubState.prepareDeadLetterPublication
  by_cases hcan : b.state.canCommitDeadLetter forward authorized = true
  · have hops : ∀ key sub, Command.operations platform b key sub
        (.prepareDeadLetterPublication forward authorized enforced now) = [] := by
      intro key sub
      exact if_pos hcan
    rw [if_pos hcan]
    split
    · exact .of_prepared nofun (.refl b.state) (fun key sub _ => hops key sub) rfl nofun
    · exact .of_prepared nofun
        (administers_preparePublishNumbered platform b.state _ _ now)
        (fun key sub _ => hops key sub) rfl
        fun _ _ h => (preparePublishNumbered_ok platform h).1
  · rw [if_neg hcan]
    refine Step.of_executes nofun (executes_updateSub (fun sub _ => ?_)
      fun key hkey sub => ?_) (fun h => h.of_eq rfl rfl) rfl rfl rfl
    · simp only [Command.operations, if_neg hcan, if_true]
      rfl
    · simp only [Command.operations, if_neg hcan, if_neg hkey]

theorem step_seekToSnapshot (b : Broker) {subscription : SubscriptionName} {snapshotName : Str} :
    Step platform b (.seekToSnapshot subscription snapshotName now)
      (b.after (b.state.seekToSnapshot platform subscription snapshotName now)) := by
  have hp := pruned_getSnapshot platform b.state snapshotName now
  have ho : ∀ key ≠ subscription.toFull, ∀ sub, Command.operations platform b key sub
      (.seekToSnapshot subscription snapshotName now) = [] := by
    intro key hkey sub
    rw [Command.operations, if_neg hkey]
  unfold PubSubState.seekToSnapshot
  cases hget : b.state.getSnapshot platform snapshotName now with
  | mk result =>
    rw [hget] at hp
    cases result with
    | error =>
      refine .of_administers nofun hp.administers (fun key sub _ => ?_) rfl
      rw [Command.operations, hget, ite_self]
    | ok =>
      -- what the checks read is as it was before snapshots were pruned
      have hsame := hp.subscriptions
      dsimp only
      rw [hsame]
      cases hsub : b.state.subscriptions.get subscription.toFull with
      | none =>
        refine .of_administers nofun hp.administers (fun key sub hkey => ho key ?_ sub) rfl
        rintro rfl
        rw [sub?, hsub] at hkey
        cases hkey
      | some sub =>
        dsimp only
        split_ifs with ht
        · refine .of_administers nofun hp.administers (fun key sub' hkey => ?_) rfl
          by_cases hname : key = subscription.toFull
          · subst hname
            rw [sub?, hsub, Option.some.injEq] at hkey
            subst hkey
            rw [Command.operations, if_pos rfl, hget]
            exact if_pos ht
          · exact ho key hname sub'
        · refine .of_executes nofun (hp.executes ?_) (fun h => ?_) ?_ ?_ rfl
          · refine executes_onSub (fun sub' hsub' => ?_) ho
            rw [hsame, hsub, Option.some.injEq] at hsub'
            subst hsub'
            rw [Command.operations, if_pos rfl, hget]
            dsimp only
            rw [if_neg ht]
            rfl
          all_goals rw [onSub_snd]
          · exact (hp.index h).of_eq rfl rfl
          all_goals
            obtain ⟨_, _, _, _, rfl⟩ := hp.frame
            rfl

theorem step_pull (b : Broker) {name : SubscriptionName} {max : ℕ} {batching : OrderedPullBatching}
    {admission : List StoredMessage → Bool} :
    Step platform b (.pull name max now batching authorized admission)
      (b.after (b.state.pullWithDeadLettersAdmitted name max now batching authorized admission)) := by
  obtain ⟨subscriptions, hf⟩ := b.state.pullWithDeadLettersAdmitted_frame name max now batching
    authorized admission
  refine ⟨.inl (executes_pull
    (fun sub => if_pos rfl) fun key hkey sub => if_neg hkey), fun h => ?_, .inl ?_, ?_,
      .inl ⟨nofun, .inl rfl⟩⟩ <;>
    rw [after, hf]
  · exact h.of_eq rfl rfl
  · rfl

theorem Sound.step_commitPrepared (hb : b.Sound) {i : ℕ} :
    ∃ b', b.exec platform (.commitPrepared i now) = some b' ∧ Step platform b (.commitPrepared i now) b' := by
  have hexec : b.exec platform (.commitPrepared i now) = match b.pool[i]? with
      | none => some b
      | some publication =>
          (b.state.commitPrepared platform publication now).map fun outcome =>
            ⟨outcome.2, b.pool.eraseIdx i⟩ := rfl
  have hsame : (∀ key sub, Command.operations platform b key sub (.commitPrepared i now) = []) →
      PubSubState.Executes (Command.Discards (.commitPrepared i now))
          (fun key sub => Command.operations platform b key sub (.commitPrepared i now))
          b.state b.state ∨
        ∃ config checked, (.commitPrepared i now : Command) = .createSubscription config checked ∧
          b.state = (b.state.createSubscription config checked).2 := fun hops =>
    .inl ((PubSubState.Administers.refl b.state).executes fun key sub _ => hops key sub)
  rw [hexec]
  cases hpool : b.pool[i]? with
  | none =>
    refine ⟨b, rfl, hsame fun key sub => ?_, id, .inl SplitMix64.advance_zero.symm, le_rfl,
      .inr ⟨i, now, rfl, (eraseIdx_of_length_le (List.getElem?_eq_none_iff.1 hpool)).symm⟩⟩
    rw [Command.operations, hpool]
  | some prepared =>
    dsimp only
    rcases commitPrepared_cases platform prepared now hb.accounted
      hb.index with ⟨e, ha, he⟩ | ⟨ha, s', hok, hc⟩
    · rw [he]
      refine ⟨_, rfl, hsame fun key sub => ?_, id, .inl SplitMix64.advance_zero.symm, le_rfl,
        .inr ⟨i, now, rfl, rfl⟩⟩
      simp only [Command.operations, hpool, ha]
    · rw [hok]
      refine ⟨_, rfl, .inl (hc.executes (fun key sub hreach => ?_) fun key sub hreach => ?_),
        hc.index, .inl ?_, ?_, .inr ⟨i, now, rfl, rfl⟩⟩
      · simp only [Command.operations, hpool, ha, if_pos hreach]
      · simp only [Command.operations, hpool, ha, if_neg hreach]
      all_goals obtain ⟨_, _, _, heq⟩ := hc.rest
      · rw [heq]
        exact SplitMix64.advance_zero.symm
      · rw [heq]

/-- Every command has its effect, and none panics. -/
theorem Sound.exec (hb : b.Sound) (platform : Platform) (c : Command) :
    ∃ b', b.exec platform c = some b' ∧ Step platform b c b' := by
  cases c with
  | setPushMinimumRedeliveryInterval =>
    exact ⟨_, rfl, .of_administers nofun (b.state.administers_setPushMinimumRedeliveryInterval)
      (fun _ _ _ => rfl) rfl⟩
  | createTopic =>
    exact ⟨_, rfl, .of_administers nofun (b.state.administers_createTopic)
      (fun _ _ _ => rfl) rfl⟩
  | deleteTopic =>
    exact ⟨_, rfl, .of_administers nofun (b.state.administers_deleteTopic) (fun _ _ _ => rfl) rfl⟩
  | createSubscription config checked =>
    refine ⟨_, rfl, .inr ⟨config, checked, rfl, rfl⟩, fun h => ?_, .inl ?_, ?_, .inl ⟨nofun, .inl rfl⟩⟩
    all_goals
      unfold after
      rcases b.state.createSubscription_frame config checked with heq | ⟨-, ⟨-, heq⟩ | ⟨-, heq⟩⟩ <;>
        rw [heq]
    any_goals exact SplitMix64.advance_zero.symm
    · exact h
    · exact h.of_eq rfl rfl
    · exact h.of_eq rfl rfl
  | markFunctionSubscription =>
    exact ⟨_, rfl, .of_administers nofun (b.state.administers_markFunctionSubscription)
      (fun _ _ _ => rfl) rfl⟩
  | deleteSubscription =>
    exact ⟨_, rfl, .of_administers nofun (b.state.administers_deleteSubscription)
      (fun _ _ _ => rfl) rfl⟩
  | updateAckDeadline =>
    exact ⟨_, rfl, .of_administers nofun (b.state.administers_updateAckDeadline)
      (fun _ _ _ => rfl) rfl⟩
  | updatePushConfig =>
    exact ⟨_, rfl, .of_administers nofun (b.state.administers_updatePushConfig)
      (fun _ _ _ => rfl) rfl⟩
  | updateSubscriptionConfiguration =>
    exact ⟨_, rfl, .of_administers nofun
      (b.state.administers_updateSubscriptionConfiguration) (fun _ _ _ => rfl) rfl⟩
  | createSnapshot requestedName subscription labels =>
    exact ⟨_, rfl, .of_administers nofun (administers_createSnapshot platform labels) (fun _ _ _ => rfl) rfl⟩
  | getSnapshot name now =>
    exact ⟨_, rfl, .of_administers nofun
      (pruned_getSnapshot platform b.state name now).administers (fun _ _ _ => rfl) rfl⟩
  | listSnapshots now =>
    exact ⟨_, rfl, .of_administers nofun
      (pruned_removeExpiredSnapshots platform b.state now).administers
      (fun _ _ _ => rfl) rfl⟩
  | updateSnapshot name labels =>
    exact ⟨_, rfl, .of_administers nofun
      (administers_updateSnapshot platform labels)
      (fun _ _ _ => rfl) rfl⟩
  | deleteSnapshot =>
    exact ⟨_, rfl, .of_administers nofun
      (pruned_deleteSnapshot platform).administers
      (fun _ _ _ => rfl) rfl⟩
  | clear => exact ⟨_, rfl, .of_administers nofun b.state.administers_clear (fun _ _ _ => rfl) rfl⟩
  | clearProject =>
    exact ⟨_, rfl, .of_administers nofun
      (administers_clearProject platform) (fun _ _ _ => rfl) rfl⟩
  | clearProjectsWhere =>
    exact ⟨_, rfl, .of_administers nofun
      (administers_clearProjectsWhere platform) (fun _ _ _ => rfl) rfl⟩
  | preparePublish topic messages now =>
    exact ⟨_, rfl, .of_prepared nofun
      (administers_preparePublishNumbered platform b.state topic _ now)
      (fun _ _ _ => rfl) rfl
      fun _ _ h => (preparePublishNumbered_ok platform h).1⟩
  | preparePublishWithMessageIds =>
    exact ⟨_, rfl, .of_prepared nofun
      (administers_preparePublishWithMessageIds platform)
      (fun _ _ _ => rfl) rfl
      fun _ _ h => preparePublishWithMessageIds_allocates platform h⟩
  | prepareDeadLetterPublication => exact ⟨_, rfl, b.step_prepareDeadLetterPublication⟩
  | commitPrepared => exact hb.step_commitPrepared
  | pull => exact ⟨_, rfl, b.step_pull⟩
  | acknowledge name ackIds =>
    exact ⟨_, rfl, .of_onSub (by nofun) name (fun _ => [.acknowledge ackIds]) (fun _ _ => rfl) (fun _ => rfl) rfl⟩
  | retainOutstandingAckIds name ackIds now =>
    exact ⟨_, rfl, .of_onSub (by nofun) name (fun _ => [.expireDeadlines now]) (fun _ _ => rfl) (fun _ => rfl) rfl⟩
  | modifyAckDeadline name ackIds seconds now =>
    refine ⟨_, rfl, .of_onSub (by nofun) name (fun _ => ackIds.map fun id => .modifyAckDeadline id seconds now)
      (fun _ _ => rfl) (fun sub => ?_) rfl⟩
    change _ = foldl _ _ _
    rw [foldl_map]
    rfl
  | seekToTime name time now =>
    exact ⟨_, rfl, .of_onSub (by nofun) name (fun _ => [.seekToTime time now]) (fun _ _ => rfl) (fun _ => rfl) rfl⟩
  | seekToSnapshot => exact ⟨_, rfl, b.step_seekToSnapshot⟩
  | expireAll now =>
    refine ⟨_, rfl, .of_executes nofun (executes_expireAll) (fun h => ?_) ?_ ?_ rfl⟩
    · exact ((pruned_removeExpiredSnapshots platform b.state now).index h).of_eq rfl rfl
    all_goals
      unfold PubSubState.expireAll
      obtain ⟨_, _, _, _, heq⟩ :=
        (pruned_removeExpiredSnapshots platform b.state now).frame
      rw [heq]
  | completeDeadLetter name messageId =>
    exact ⟨_, rfl, .of_onSub (by nofun) name (fun _ => [.completeForward messageId]) (fun _ _ => rfl) (fun _ => rfl) rfl⟩
  | resumeDeadLetter =>
    refine ⟨_, rfl, .of_executes nofun (executes_updateSub (fun sub _ => ?_)
      fun key hkey sub => if_neg hkey) (fun h => h.of_eq rfl rfl) rfl rfl rfl⟩
    rw [Command.operations, if_pos rfl]
    rfl

/-- What happens to one subscription. -/
theorem Step.subscription (h : Step platform b c b') (key : Str) :
    (b'.sub? key = none ∧ (b.sub? key = none ∨ c.Discards key)) ∨
    (∃ sub sub', b.sub? key = some sub ∧ b'.sub? key = some sub' ∧
      (sub.run (c.operations platform b key sub)).Administered sub') ∨
    b.sub? key = none ∧ ∃ config interval, config.name.toFull = key ∧ b'.sub? key =
      some { SubscriptionState.new config with pushMinimumRedeliveryInterval := interval } := by
  rcases h.subs with hexec | ⟨config, checked, rfl, hstate⟩
  · exact (hexec key).imp_right .inl
  · have hc := b.state.createSubscription_frame config checked
    rw [← hstate] at hc
    have hsame : b'.sub? key = b.sub? key → (b'.sub? key = none ∧ (b.sub? key = none ∨
          Command.Discards (.createSubscription config checked) key)) ∨
        ∃ sub sub', b.sub? key = some sub ∧ b'.sub? key = some sub' ∧
          (sub.run (Command.operations platform b key sub
            (.createSubscription config checked))).Administered sub' := by
      intro heq
      rw [heq]
      cases hsub : b.sub? key with
      | none => exact .inl ⟨rfl, .inl rfl⟩
      | some sub => exact .inr ⟨sub, sub, rfl, rfl, .refl sub⟩
    rcases hc with heq | ⟨hnone, ⟨-, heq⟩ | ⟨-, heq⟩⟩
    · rcases hsame (by rw [sub?, heq]) with hcase | hcase
      · exact .inl hcase
      · exact .inr (.inl hcase)
    · rcases hsame (by rw [sub?, heq]) with hcase | hcase
      · exact .inl hcase
      · exact .inr (.inl hcase)
    · by_cases hkey : key = config.name.toFull
      · subst hkey
        refine .inr (.inr ⟨hnone, config, b.state.pushMinimumRedeliveryInterval, rfl, ?_⟩)
        rw [sub?, heq]
        exact get_insert_self _ _ _
      · rcases hsame (by
          rw [sub?, heq]
          exact get_insert_of_ne _ _ hkey) with hcase | hcase
        · exact .inl hcase
        · exact .inr (.inl hcase)

/-- A subscription that is not discarded stays. -/
theorem Step.subscription_of_some (h : Step platform b c b') {sub : SubscriptionState}
    (hsub : b.sub? key = some sub) (hdiscards : ¬ c.Discards key) :
    ∃ sub', b'.sub? key = some sub' ∧ (sub.run (c.operations platform b key sub)).Administered sub' := by
  rcases h.subscription key with ⟨-, hnone | hd⟩ | ⟨sub₀, sub', hsub₀, hsub', hadm⟩ | ⟨hnone, -⟩
  · rw [hnone] at hsub
    cases hsub
  · exact absurd hd hdiscards
  · rw [hsub, Option.some.injEq] at hsub₀
    subst hsub₀
    exact ⟨sub', hsub', hadm⟩
  · rw [hnone] at hsub
    cases hsub

/-- A subscription after a command was there before, or is new. -/
theorem Step.subscription_before (h : Step platform b c b') {sub' : SubscriptionState}
    (hsub' : b'.sub? key = some sub') :
    (∃ sub, b.sub? key = some sub ∧ (sub.run (c.operations platform b key sub)).Administered sub') ∨
    b.sub? key = none ∧ ∃ config interval,
      sub' = { SubscriptionState.new config with pushMinimumRedeliveryInterval := interval } := by
  rcases h.subscription key with ⟨hnone, -⟩ | ⟨sub, sub₁, hsub, hsub₁, hadm⟩ |
    ⟨hnone, config, interval, -, hc⟩
  · rw [hnone] at hsub'
    cases hsub'
  · rw [hsub₁, Option.some.injEq] at hsub'
    exact .inl ⟨sub, hsub, hsub' ▸ hadm⟩
  · rw [hc, Option.some.injEq] at hsub'
    exact .inr ⟨hnone, config, interval, hsub'.symm⟩

theorem accounted_new (config : SubscriptionConfig) (interval : LogicalDuration) :
    SubscriptionState.Accounted
      { SubscriptionState.new config with pushMinimumRedeliveryInterval := interval } :=
  ⟨rfl, Nat.zero_le _, Nat.zero_le _⟩

theorem Sound.step (hb : b.Sound) (h : Step platform b c b') : b'.Sound where
  accounted key sub' hsub' := by
    rcases h.subscription_before hsub' with ⟨sub, hsub, hadm⟩ | ⟨-, config, interval, rfl⟩
    · exact ((hb.accounted key sub hsub).run _).of_administered hadm
    · exact accounted_new config interval
  index := h.index hb.index

theorem sound_new (seed : BitVec 64) : (new seed).Sound := ⟨nofun, snapshotIndex_new seed⟩

/-- No run panics. -/
theorem Sound.run (hb : b.Sound) (platform : Platform) (commands : List Command) :
    ∃ b', b.run platform commands = some b' ∧ b'.Sound := by
  induction commands generalizing b with
  | nil => exact ⟨b, rfl, hb⟩
  | cons c commands ih =>
    obtain ⟨b₁, hexec, hstep⟩ := hb.exec platform c
    obtain ⟨b', hrun, hb'⟩ := ih (hb.step hstep)
    refine ⟨b', ?_, hb'⟩
    rw [Broker.run, foldlM_cons, hexec]
    exact hrun

/-- After any run of the broker, a commit of any publication either fails and changes nothing, or
appends to every subscription of the topic that is not a function's what its filter admits, in
order, and changes no other subscription; it never panics.  A batch is accepted as a whole exactly
when its messages are accepted one by one. -/
theorem publication_atomic (platform : Platform) (seed : BitVec 64) (commands : List Command) :
    ∃ b, (new seed).run platform commands = some b ∧
      (∀ (prepared : PreparedPublication) (now : LogicalInstant),
        (∃ e, b.state.commitPrepared platform prepared now = some (.error e, b.state)) ∨
        ∃ s', b.state.commitPrepared platform prepared now = some (.ok prepared.published, s') ∧
          (∀ key sub, b.sub? key = some sub → key ∈ b.state.topicSubscriptions prepared.topicKey →
            key ∉ b.state.functionSubscriptions → ∃ sub', s'.subscriptions.get key = some sub' ∧
              sub.Appended sub' (prepared.publishTime now) (prepared.published.filter sub.admits)) ∧
          ∀ key, key ∉ b.state.topicSubscriptions prepared.topicKey ∨ key ∈ b.state.functionSubscriptions →
            s'.subscriptions.get key = b.sub? key) ∧
      ∀ key sub, b.sub? key = some sub → ∀ (messages : List StoredMessage) (now : LogicalInstant),
        sub.ensureEnqueueCapacity messages = .ok () ↔
          (SubscriptionState.enqueueEach now messages sub).isSome = true := by
  obtain ⟨b, hrun, hb⟩ := (sound_new seed).run platform commands
  refine ⟨b, hrun, fun prepared now => ?_, fun key sub hsub messages now =>
    (hb.accounted key sub hsub).ensureEnqueueCapacity_iff_enqueueEach⟩
  rcases commitPrepared_cases platform prepared now hb.accounted hb.index with
    ⟨e, -, herror⟩ | ⟨-, s', hok, hcommitted⟩
  · exact .inl ⟨e, herror⟩
  · refine .inr ⟨s', hok, fun key sub hsub hmem hfun => ?_, fun key hother => ?_⟩
    · obtain ⟨sub', hsub', henqueue⟩ := hcommitted.reached key ⟨hmem, hfun⟩ sub hsub
      refine ⟨sub', hsub', ?_⟩
      rcases (hb.accounted key sub hsub).enqueueEach_cases (prepared.publishTime now)
        (prepared.published.filter sub.admits) with ⟨-, sub₁, heq, happended⟩ | ⟨-, heq⟩
      · rw [henqueue, Option.some.injEq] at heq
        subst heq
        exact happended
      · rw [henqueue] at heq
        cases heq
    · refine hcommitted.other key (.inl fun hreach => ?_)
      exact hother.elim (fun h => h hreach.1) fun h => hreach.2 h

end Broker

namespace Command

/-- Whether a command seeks a subscription. -/
def Seeks : Command → Prop
  | .seekToTime .. | .seekToSnapshot .. => True
  | _ => False

/-- Apart from commits and seeks, commands leave the messages of a log alone, and only a pull of a
subscription pulls from it. -/
theorem operations_isQuiet (platform : Platform) (b : Broker) (sub : SubscriptionState)
    (hc : ∀ i now, c ≠ .commitPrepared i now) (hseek : ¬ c.Seeks) :
    ∀ op ∈ c.operations platform b key sub, op.IsQuiet ∧ ∀ max now authorized batching nextAckId admission,
        op = .pull max now authorized batching nextAckId admission →
        ∃ name authorized', c = .pull name max now batching authorized' admission ∧
          key = name.toFull ∧ authorized = (sub.config.deadLetterPolicy.isSome && authorized') := by
  intro op hop
  cases c with
  | commitPrepared i now => exact absurd rfl (hc i now)
  | seekToTime | seekToSnapshot => exact absurd trivial hseek
  | pull name max now batching authorized =>
    obtain ⟨hkey, hop⟩ := mem_ite_nil_right.1 hop
    rcases mem_cons.1 hop with rfl | hop
    · exact ⟨trivial, nofun⟩
    · obtain rfl := mem_singleton.1 hop
      refine ⟨trivial, ?_⟩
      rintro _ _ _ _ _ _ ⟨⟩
      exact ⟨name, authorized, rfl, hkey, rfl⟩
  | modifyAckDeadline =>
    obtain ⟨-, hop⟩ := mem_ite_nil_right.1 hop
    obtain ⟨id, -, rfl⟩ := mem_map.1 hop
    exact ⟨trivial, nofun⟩
  | expireAll =>
    obtain rfl := mem_singleton.1 hop
    exact ⟨trivial, nofun⟩
  | prepareDeadLetterPublication =>
    obtain ⟨-, hop⟩ := mem_ite_nil_left.1 hop
    obtain ⟨-, hop⟩ := mem_ite_nil_right.1 hop
    obtain rfl := mem_singleton.1 hop
    exact ⟨trivial, nofun⟩
  | acknowledge | retainOutstandingAckIds | completeDeadLetter | resumeDeadLetter =>
    obtain ⟨-, hop⟩ := mem_ite_nil_right.1 hop
    obtain rfl := mem_singleton.1 hop
    exact ⟨trivial, nofun⟩
  | _ => exact absurd hop not_mem_nil

end Command

namespace PubSubState

theorem foldl_updateSub_frame (f : SubscriptionState → SubscriptionState) (keys : List Str)
    (s : PubSubState) : ∃ subscriptions,
      keys.foldl (fun s key => s.updateSub key f) s = { s with subscriptions } := by
  induction keys generalizing s with
  | nil => exact ⟨_, rfl⟩
  | cons key keys ih => exact ih _

end PubSubState

end Fireemu.PubSub
