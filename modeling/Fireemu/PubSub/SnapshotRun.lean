import Fireemu.PubSub.AtLeastOnce
import Fireemu.PubSub.SnapshotAccounting

/-!
# Snapshot accounts over whole runs

The accounts of snapshots rest on messages being identified by their identifiers.  A run keeps that
whose commits publish only identifiers that the broker does not hold: identifiers are then unique in
every log and every snapshot, and one identifier is one message throughout the broker.  A commit that
is refused publishes nothing, and an identifier that the broker no longer holds may come again.
-/

namespace Fireemu.PubSub

open Library (GroupedIndex RefCounts SortedMap SortedSet)
open List Library.SortedMap Function PubSubState

variable {message : Str → StoredMessage}

/-! ### Logs -/

namespace SubscriptionState

variable {s s' : SubscriptionState}

/-- The identifiers of the log. -/
def ids (s : SubscriptionState) : List Str := s.retainedMessages.map StoredMessage.messageId

/-- The messages an operation can add to the log. -/
def brings (s : SubscriptionState) : Operation → List StoredMessage
  | .enqueue stored _ => [stored]
  | .seekToSnapshot captured retained _ _ _ => s.missingMessages captured retained
  | _ => []

theorem retainedMessages_restore {missing : List StoredMessage} (retainedIds unackedIds : SortedSet Str)
    {createdAt now : LogicalInstant} :
    (s.restore missing retainedIds unackedIds createdAt now).retainedMessages.Perm
      (s.retainedMessages ++ missing) := by
  obtain ⟨left, right, hs, he⟩ := s.restore_entries missing retainedIds unackedIds
    createdAt now
  rw [retainedMessages, he, retainedMessages, hs]
  simp only [map_map, comp_def, restored_stored, map_append, map_id', append_assoc]
  exact List.Perm.append_left _ perm_append_comm

/-- After an operation the log has some of the messages it had and some that the operation brings. -/
theorem retainedMessages_apply (s : SubscriptionState) (op : Operation) :
    ∃ kept new, (s.apply op).retainedMessages.Perm (kept ++ new) ∧
      kept.Sublist s.retainedMessages ∧ new.Sublist (s.brings op) := by
  have hsame : ∀ {s' : SubscriptionState}, s'.retainedMessages = s.retainedMessages →
      ∃ kept new, s'.retainedMessages.Perm (kept ++ new) ∧ kept.Sublist s.retainedMessages ∧
        new.Sublist (s.brings op) := by
    intro s' heq
    exact ⟨s.retainedMessages, [], by rw [heq, append_nil], .refl _, nil_sublist _⟩
  cases op with
  | enqueue stored now =>
    change ∃ kept new, ((s.enqueue stored now).2.entries.map Entry.stored).Perm (kept ++ new) ∧ _
    have hkept := (s.makeRoom_sublist (messageBytes stored)).map Entry.stored
    rcases s.enqueue_entries stored now with heq | heq <;> rw [heq]
    · exact ⟨_, [], by rw [append_nil], hkept, nil_sublist _⟩
    · exact ⟨_, [stored], by rw [map_append]; rfl, hkept, .refl _⟩
  | seekToTime time now =>
    refine hsame ?_
    change (s.seekToTime time now).2.retainedMessages = _
    unfold seekToTime
    split_ifs
    · rfl
    · have hmap : ∀ e : Entry, (if e.stored.publishTime < time then { e with state := .acked }
          else { e with state := .available now, deliveryAttempt := 0 } : Entry).stored = e.stored := by
        intro e
        split_ifs <;> rfl
      simp only [retainedMessages, rebuildIndexes, map_map, comp_def, hmap]
  | seekToSnapshot captured retained unacked createdAt now =>
    change ∃ kept new, (s.seekToSnapshot captured retained unacked createdAt now).2.retainedMessages.Perm
      (kept ++ new) ∧ _
    unfold seekToSnapshot
    dsimp only
    split_ifs
    · exact hsame rfl
    · exact ⟨_, _, retainedMessages_restore _ _, List.filter_sublist.map Entry.stored, .refl _⟩
    · exact ⟨_, _, retainedMessages_restore _ _, .refl _, .refl _⟩
  | replaceConfig => exact hsame rfl
  | _ => exact hsame (s.sameLog_apply (by exact trivial)).messages

variable {op : Operation} {m : StoredMessage}

theorem mem_retainedMessages_of_apply (h : m ∈ (s.apply op).retainedMessages) :
    m ∈ s.retainedMessages ∨ m ∈ s.brings op := by
  obtain ⟨kept, new, hperm, hkept, hnew⟩ := s.retainedMessages_apply op
  rcases mem_append.1 (hperm.mem_iff.1 h) with h | h
  · exact .inl (hkept.subset h)
  · exact .inr (hnew.subset h)

/-- Identifiers stay different when an operation brings new ones. -/
theorem ids_nodup_apply (h : s.ids.Nodup) (hn : ((s.brings op).map StoredMessage.messageId).Nodup)
    (hnew : ∀ m ∈ s.brings op, m.messageId ∉ s.ids) : (s.apply op).ids.Nodup := by
  obtain ⟨kept, new, hperm, hkept, hsub⟩ := s.retainedMessages_apply op
  rw [ids, (hperm.map _).nodup_iff, map_append, nodup_append']
  refine ⟨h.sublist (hkept.map _), hn.sublist (hsub.map _), ?_⟩
  intro id hid hid'
  obtain ⟨m, hm, rfl⟩ := mem_map.1 hid'
  exact hnew m (hsub.subset hm) ((hkept.map _).subset hid)

/-- What a seek restores is missing in the log. -/
theorem messageId_not_mem_of_missing {captured : List StoredMessage} {retained : SortedSet Str}
    (h : m ∈ s.missingMessages captured retained) : m.messageId ∉ s.ids := by
  have hm := (mem_filter.1 h).2
  simp only [Bool.and_eq_true, Bool.not_eq_true', any_eq_false, decide_eq_true_eq] at hm
  intro hid
  obtain ⟨m', hm', heq⟩ := mem_map.1 hid
  obtain ⟨e, he, rfl⟩ := mem_map.1 hm'
  exact hm.1.2 e he heq

/-- The messages of the log have different identifiers and a property. -/
structure Logs (P : StoredMessage → Prop) (s : SubscriptionState) : Prop where
  nodup : s.ids.Nodup
  all : ∀ m ∈ s.retainedMessages, P m

variable {P : StoredMessage → Prop}

theorem Logs.apply (h : s.Logs P) (op : Operation) (hn : ((s.brings op).map StoredMessage.messageId).Nodup)
    (hnew : ∀ m ∈ s.brings op, m.messageId ∉ s.ids ∧ P m) : (s.apply op).Logs P where
  nodup := ids_nodup_apply h.nodup hn fun m hm => (hnew m hm).1
  all m hm := (mem_retainedMessages_of_apply hm).elim (h.all m) fun hm => (hnew m hm).2

theorem Logs.run_quiet (h : s.Logs P) {ops : List Operation} (hops : ∀ op ∈ ops, op.IsQuiet) :
    (s.run ops).Logs P := by
  have hm := (s.sameLog_run hops).messages
  refine ⟨?_, hm ▸ h.all⟩
  rw [ids, hm]
  exact h.nodup

/-- Publishing different messages that the log does not have. -/
theorem Logs.run_enqueue (h : s.Logs P) {now : LogicalInstant} {messages : List StoredMessage}
    (hmsgs : ∀ m ∈ messages, P m) (hn : (messages.map StoredMessage.messageId).Nodup)
    (hnew : ∀ m ∈ messages, m.messageId ∉ s.ids) :
    (s.run (messages.map fun stored => .enqueue stored now)).Logs P := by
  induction messages generalizing s with
  | nil => exact h
  | cons stored messages ih =>
    rw [map_cons, nodup_cons] at hn
    obtain ⟨hs, hrest⟩ := forall_mem_cons.1 hmsgs
    obtain ⟨hs', hrest'⟩ := forall_mem_cons.1 hnew
    have hone : (s.apply (.enqueue stored now)).Logs P :=
      h.apply _ (nodup_singleton _) (forall_mem_singleton.2 ⟨hs', hs⟩)
    refine ih hone hrest hn.2 fun m hm hid => ?_
    obtain ⟨m', hm', heq⟩ := mem_map.1 hid
    rcases mem_retainedMessages_of_apply hm' with hold | hb
    · exact hrest' m hm (heq ▸ mem_map_of_mem hold)
    · obtain rfl := mem_singleton.1 hb
      exact hn.1 (heq ▸ mem_map_of_mem hm)

end SubscriptionState

/-! ### Snapshots -/

namespace PubSubState

variable {platform : Platform} {s s' s'' : PubSubState}

/-- The same snapshots with the same accounts. -/
structure SameShelf (s s' : PubSubState) : Prop where
  snapshots : s'.snapshots = s.snapshots
  refs : s'.snapshotMessageRefs = s.snapshotMessageRefs
  bytes : s'.snapshotRetainedBytes = s.snapshotRetainedBytes

theorem SameShelf.refl (s : PubSubState) : s.SameShelf s := ⟨rfl, rfl, rfl⟩

theorem SameShelf.trans (h : s.SameShelf s') (h' : s'.SameShelf s'') : s.SameShelf s'' :=
  ⟨h'.snapshots.trans h.snapshots, h'.refs.trans h.refs, h'.bytes.trans h.bytes⟩

theorem SameShelf.foldl {α : Type} {f : PubSubState → α → PubSubState}
    (hf : ∀ s a, SameShelf s (f s a)) (s : PubSubState) (l : List α) : s.SameShelf (l.foldl f s) :=
  l.foldlRecOn f (.refl s) fun s' h a _ => h.trans (hf s' a)

theorem SameShelf.foldl_releaseMessage (h : s.SameShelf s') (messages : List StoredMessage) :
    (messages.foldl (releaseMessage platform) s).SameShelf
      (messages.foldl (releaseMessage platform) s') := by
  induction messages generalizing s s' with
  | nil => exact h
  | cons m messages ih =>
    refine ih ?_
    rw [releaseMessage_eq, releaseMessage_eq, h.refs, h.bytes]
    exact ⟨h.snapshots, rfl, rfl⟩

theorem SameShelf.removeSnapshot (h : s.SameShelf s') (name : Str) :
    (s.removeSnapshot platform name).SameShelf (s'.removeSnapshot platform name) := by
  unfold PubSubState.removeSnapshot
  rw [h.snapshots]
  cases s.snapshots.get name with
  | none => exact h
  | some =>
    refine SameShelf.foldl_releaseMessage ?_ _
    exact ⟨rfl, h.refs, by dsimp only; rw [h.bytes]⟩

theorem SameShelf.foldl_removeSnapshot (h : s.SameShelf s') (names : List Str) :
    (names.foldl (PubSubState.removeSnapshot platform) s).SameShelf
      (names.foldl (PubSubState.removeSnapshot platform) s') := by
  induction names generalizing s s' with
  | nil => exact h
  | cons name names ih => exact ih (h.removeSnapshot name)

/-- Some snapshots are removed, and their accounts closed. -/
def Thins (platform : Platform) (s s' : PubSubState) : Prop :=
  ∃ names : List Str, (names.foldl (removeSnapshot platform) s).SameShelf s'

theorem SameShelf.thins (h : s.SameShelf s') : Thins platform s s' := ⟨[], h⟩

theorem Thins.refl (s : PubSubState) : Thins platform s s := (SameShelf.refl s).thins

theorem Thins.trans (h : Thins platform s s') (h' : Thins platform s' s'') : Thins platform s s'' := by
  obtain ⟨names, h⟩ := h
  obtain ⟨names', h'⟩ := h'
  refine ⟨names ++ names', ?_⟩
  rw [foldl_append]
  exact (h.foldl_removeSnapshot names').trans h'

theorem Thins.foldl {α : Type} {f : PubSubState → α → PubSubState} (hf : ∀ s a, Thins platform s (f s a))
    (s : PubSubState) (l : List α) : Thins platform s (l.foldl f s) :=
  l.foldlRecOn f (.refl s) fun s' h a _ => h.trans (hf s' a)

theorem Thins.get (h : Thins platform s s') {name : Str} {snapshot : Snapshot}
    (hget : s'.snapshots.get name = some snapshot) : s.snapshots.get name = some snapshot := by
  obtain ⟨names, hsame⟩ := h
  rw [hsame.snapshots] at hget
  exact (Pruned.foldl (pruned_removeSnapshot platform) s names).get name snapshot hget

theorem Accounts.thins (h : Accounts platform message s) (hcat : Catalogued message s)
    (ht : Thins platform s s') : Accounts platform message s' := by
  obtain ⟨names, hsame⟩ := ht
  exact (h.foldl_removeSnapshot hcat names).of_eq hsame.snapshots hsame.refs hsame.bytes

theorem sameShelf_updateSub {key : Str} {f : SubscriptionState → SubscriptionState} :
    s.SameShelf (s.updateSub key f) := ⟨rfl, rfl, rfl⟩

variable {name : SubscriptionName} {checked : Except PubSubError Unit}

theorem sameShelf_onSub {α : Type} {f : SubscriptionState → Except PubSubError α × SubscriptionState} :
    s.SameShelf (s.onSub name f).2 := by
  rw [onSub_snd]
  exact sameShelf_updateSub

theorem sameShelf_createTopic {name : TopicName} : s.SameShelf (s.createTopic name checked).2 := by
  unfold createTopic createResourcePolicy
  split
  · exact .refl s
  dsimp only
  split_ifs
  · exact .refl s
  · exact .refl s
  all_goals
    split
    · exact .refl s
  · exact ⟨rfl, rfl, rfl⟩
  · exact ⟨rfl, rfl, rfl⟩

theorem sameShelf_deleteTopic {name : TopicName} : s.SameShelf (s.deleteTopic name).2 := by
  unfold deleteTopic
  dsimp only
  split_ifs
  · obtain ⟨subscriptions, hf⟩ := foldl_updateSub_frame SubscriptionState.markTopicDeleted
      (((s.topicSubs.get name.toFull).getD SortedMap.empty).toList) { s with
        topics := s.topics.erase name.toFull
        topicSubs := s.topicSubs.erase name.toFull }
    rw [hf]
    exact ⟨rfl, rfl, rfl⟩
  · exact .refl s

theorem sameShelf_createSubscription {config : SubscriptionConfig} :
    s.SameShelf (s.createSubscription config checked).2 := by
  rcases s.createSubscription_frame config checked with heq | ⟨-, ⟨-, heq⟩ | ⟨-, heq⟩⟩ <;> rw [heq] <;>
    exact ⟨rfl, rfl, rfl⟩

theorem sameShelf_markFunctionSubscription : s.SameShelf (s.markFunctionSubscription name).2 := by
  unfold markFunctionSubscription
  dsimp only
  split_ifs <;> exact ⟨rfl, rfl, rfl⟩

theorem sameShelf_deleteSubscription : s.SameShelf (s.deleteSubscription name).2 := by
  unfold deleteSubscription
  dsimp only
  split <;> exact ⟨rfl, rfl, rfl⟩

variable {now : LogicalInstant}

theorem sameShelf_pull {max : ℕ} {batching : OrderedPullBatching} {authorized : Bool}
    {admission : List StoredMessage → Bool} :
    s.SameShelf (s.pullWithDeadLettersAdmitted name max now batching authorized admission).2 := by
  unfold pullWithDeadLettersAdmitted
  split <;> exact ⟨rfl, rfl, rfl⟩

variable (platform)

theorem thins_removeExpiredSnapshots (s : PubSubState) (now : LogicalInstant) :
    Thins platform s (s.removeExpiredSnapshots platform now) := ⟨_, .refl _⟩

theorem thins_getSnapshot (s : PubSubState) (name : Str) (now : LogicalInstant) :
    Thins platform s (s.getSnapshot platform name now).2 := by
  unfold getSnapshot
  split
  · exact .refl s
  · dsimp only
    split <;> exact thins_removeExpiredSnapshots platform s now

theorem thins_deleteSnapshot {name : Str} : Thins platform s (s.deleteSnapshot platform name now).2 := by
  have hget := thins_getSnapshot platform s name now
  unfold deleteSnapshot
  split
  · rename_i heq
    rwa [heq] at hget
  · rename_i heq
    rw [heq] at hget
    exact hget.trans ⟨[name], .refl _⟩

theorem thins_seekToSnapshot {subscription : SubscriptionName} {snapshotName : Str} :
    Thins platform s (s.seekToSnapshot platform subscription snapshotName now).2 := by
  have hget := thins_getSnapshot platform s snapshotName now
  unfold seekToSnapshot
  split
  · rename_i heq
    rwa [heq] at hget
  · rename_i snapshot s₀ heq
    rw [heq] at hget
    split
    · exact hget
    dsimp only
    split_ifs
    · exact hget
    · exact hget.trans sameShelf_onSub.thins

theorem thins_preparePublishNumbered {topic : TopicName} {messages : List (PubsubMessage × Option Str)} :
    Thins platform s (s.preparePublishNumbered platform topic messages now).2 := by
  have he := thins_removeExpiredSnapshots platform s now
  unfold preparePublishNumbered
  dsimp only
  split
  · exact .refl s
  split_ifs
  · exact .refl s
  split
  · exact .refl s
  split
  · exact he
  · split
    all_goals exact he.trans (SameShelf.thins ⟨rfl, rfl, rfl⟩)

theorem thins_clearProject (s : PubSubState) (project : Str) :
    Thins platform s (s.clearProject platform project) := by
  unfold clearProject
  dsimp only
  refine Thins.trans ?_ ⟨_, .refl _⟩
  refine Thins.trans ?_ (SameShelf.foldl (fun s name => sameShelf_deleteTopic) _ _).thins
  exact (SameShelf.foldl (fun s name => sameShelf_deleteSubscription) s _).thins

theorem thins_clearProjectsWhere {accepted : Str → Bool} :
    Thins platform s (s.clearProjectsWhere platform accepted) :=
  Thins.foldl (thins_clearProject platform) s _

variable {platform}

/-! ### What the broker holds -/

/-- Whether a log or a snapshot has a message. -/
def Holds (s : PubSubState) (m : StoredMessage) : Prop :=
  (∃ key sub, s.subscriptions.get key = some sub ∧ m ∈ sub.retainedMessages) ∨
    ∃ name snapshot, s.snapshots.get name = some snapshot ∧ m ∈ snapshot.capturedMessages

/-- The messages of all snapshots. -/
def capturedMessages (s : PubSubState) : List StoredMessage :=
  s.snapshots.entries.flatMap fun entry => entry.2.capturedMessages

/-- The messages of all logs and snapshots. -/
def heldMessages (s : PubSubState) : List StoredMessage :=
  (s.subscriptions.entries.flatMap fun entry => entry.2.retainedMessages) ++ s.capturedMessages

theorem mem_capturedMessages {m : StoredMessage} : m ∈ s.capturedMessages ↔
    ∃ name snapshot, s.snapshots.get name = some snapshot ∧ m ∈ snapshot.capturedMessages := by
  simp only [capturedMessages, mem_flatMap, Prod.exists, mem_entries]

theorem mem_heldMessages {m : StoredMessage} : m ∈ s.heldMessages ↔ s.Holds m := by
  rw [heldMessages, mem_append, mem_capturedMessages, Holds]
  simp only [mem_flatMap, Prod.exists, mem_entries]

/-- Identifiers are unique in every log and every snapshot, and one identifier is one message. -/
structure Identified (s : PubSubState) : Prop where
  log : ∀ key sub, s.subscriptions.get key = some sub → sub.ids.Nodup
  captured : ∀ name snapshot, s.snapshots.get name = some snapshot → snapshot.ids.Nodup
  message : ∀ m m', s.Holds m → s.Holds m' → m.messageId = m'.messageId → m = m'

theorem identified_new (seed : BitVec 64) : (new seed).Identified := by
  refine ⟨nofun, nofun, ?_⟩
  rintro m m' (⟨_, _, h, -⟩ | ⟨_, _, h, -⟩) <;> cases h

/-- Messages that have their own identifiers are the values of one function. -/
theorem exists_message {P : StoredMessage → Prop}
    (h : ∀ m m', P m → P m' → m.messageId = m'.messageId → m = m') :
    ∃ message : Str → StoredMessage, ∀ m, P m → message m.messageId = m := by
  classical
  refine ⟨fun id => if h : ∃ m, P m ∧ m.messageId = id then h.choose
    else ⟨0, [], 0, ⟨[], SortedMap.empty, []⟩⟩, fun m hm => ?_⟩
  have hex : ∃ m', P m' ∧ m'.messageId = m.messageId := ⟨m, hm, rfl⟩
  beta_reduce
  rw [dif_pos hex]
  exact h _ _ hex.choose_spec.1 hm hex.choose_spec.2

theorem Identified.catalogued (h : s.Identified) (hmsg : ∀ m, s.Holds m → message m.messageId = m) :
    Catalogued message s := fun name snapshot hget =>
  ⟨h.captured name snapshot hget, fun m hm => hmsg m (.inr ⟨name, snapshot, hget, hm⟩)⟩

/-- The messages that are counted are those of snapshots. -/
theorem holders_ne_zero {id : Str} : s.holders id ≠ 0 ↔
    ∃ name snapshot, s.snapshots.get name = some snapshot ∧ id ∈ snapshot.ids := by
  rw [holders, SortedMap.sum, Ne, sum_eq_zero_iff]
  simp only [forall_mem_map, Prod.forall, mem_entries]
  simp

/-- The accounts do not depend on how the messages are found. -/
theorem Accounts.congr {message' : Str → StoredMessage} (h : Accounts platform message s)
    (hcat : Catalogued message s) (hcat' : Catalogued message' s) : Accounts platform message' s := by
  refine ⟨h.refs, ?_, h.le⟩
  rw [h.bytes]
  congr 1
  refine sum_congr fun id n hget => ?_
  have hheld : s.holders id ≠ 0 := by
    intro hzero
    rw [h.refs id, if_pos hzero] at hget
    cases hget
  obtain ⟨name, snapshot, hs, hid⟩ := holders_ne_zero.1 hheld
  obtain ⟨m, hm, rfl⟩ := mem_map.1 hid
  rw [sharedBytes, sharedBytes, (hcat name snapshot hs).2 m hm, (hcat' name snapshot hs).2 m hm]

end PubSubState

/-! ### Commands -/

namespace Command

/-- The messages a command publishes; a commit that is refused publishes none. -/
def published (platform : Platform) (b : Broker) : Command → List StoredMessage
  | .commitPrepared i _ =>
      match b.pool[i]? with
      | none => []
      | some prepared =>
          match b.state.commitAdmission platform prepared with
          | .error _ => []
          | .ok () => prepared.published
  | _ => []

theorem published_commitPrepared {platform : Platform} {b : Broker} {i : ℕ} {prepared : PreparedPublication}
    (h : b.pool[i]? = some prepared) (ha : b.state.commitAdmission platform prepared = .ok ())
    (now : LogicalInstant) : (commitPrepared i now).published platform b = prepared.published := by
  simp [published, h, ha]

/-- A command publishes different identifiers, none of which the broker holds. -/
def Fresh (platform : Platform) (b : Broker) (c : Command) : Prop :=
  ((c.published platform b).map StoredMessage.messageId).Nodup ∧
    ∀ m ∈ c.published platform b, ∀ m' ∈ b.state.heldMessages, m.messageId ≠ m'.messageId

instance (platform : Platform) (b : Broker) (c : Command) : Decidable (c.Fresh platform b) :=
  inferInstanceAs (Decidable (_ ∧ _))

theorem Fresh.ne {platform : Platform} {b : Broker} {c : Command} (h : c.Fresh platform b)
    {m m' : StoredMessage} (hm : m ∈ c.published platform b) (hm' : b.state.Holds m') :
    m.messageId ≠ m'.messageId := h.2 m hm m' (mem_heldMessages.2 hm')

end Command

namespace Broker

variable {platform : Platform} {b b' : Broker} {c : Command}

theorem thins_prepared {outcome : Outcome PreparedPublication}
    (h : PubSubState.Thins platform b.state outcome.2) :
    PubSubState.Thins platform b.state (b.prepared outcome).state := by
  rwa [state_prepared]

/-- What a command can do to the snapshots. -/
theorem Sound.shelf_cases (hb : b.Sound) (hexec : b.exec platform c = some b') :
    PubSubState.Thins platform b.state b'.state ∨ (∃ requestedName subscription labels now,
      b'.state = (b.state.createSnapshot platform requestedName subscription labels now).2) ∨
    (∃ name labels now, b'.state = (b.state.updateSnapshot platform name labels now).2) ∨
    (∃ i now prepared, c = .commitPrepared i now ∧ b.pool[i]? = some prepared ∧
      b.state.commitAdmission platform prepared = .ok () ∧
      b.state.commitPrepared platform prepared now = some (.ok prepared.published, b'.state) ∧
      b.state.Committed b'.state prepared now) ∨ b'.state = b.state.clear := by
  cases c with
  | createSnapshot requestedName subscription labels now =>
    cases hexec
    exact .inr (.inl ⟨requestedName, subscription, labels, now, rfl⟩)
  | updateSnapshot name labels now =>
    cases hexec
    exact .inr (.inr (.inl ⟨name, labels, now, rfl⟩))
  | clear =>
    cases hexec
    exact .inr (.inr (.inr (.inr rfl)))
  | commitPrepared i now =>
    unfold Broker.exec at hexec
    dsimp only at hexec
    cases hpool : b.pool[i]? with
    | none =>
      rw [hpool] at hexec
      cases hexec
      exact .inl (.refl _)
    | some prepared =>
      rw [hpool] at hexec
      dsimp only at hexec
      rcases commitPrepared_cases platform prepared now hb.accounted hb.index with
        ⟨e, -, he⟩ | ⟨ha, s', hok, hc⟩
      · rw [he] at hexec
        cases hexec
        exact .inl (.refl _)
      · rw [hok] at hexec
        cases hexec
        exact .inr (.inr (.inr (.inl ⟨i, now, prepared, rfl, hpool, ha, hok, hc⟩)))
  | setPushMinimumRedeliveryInterval =>
    cases hexec
    exact .inl (PubSubState.SameShelf.thins ⟨rfl, rfl, rfl⟩)
  | createTopic =>
    cases hexec
    exact .inl sameShelf_createTopic.thins
  | deleteTopic =>
    cases hexec
    exact .inl sameShelf_deleteTopic.thins
  | createSubscription =>
    cases hexec
    exact .inl sameShelf_createSubscription.thins
  | markFunctionSubscription =>
    cases hexec
    exact .inl sameShelf_markFunctionSubscription.thins
  | deleteSubscription =>
    cases hexec
    exact .inl sameShelf_deleteSubscription.thins
  | updateAckDeadline | updatePushConfig | updateSubscriptionConfiguration | acknowledge
  | retainOutstandingAckIds | modifyAckDeadline | seekToTime | completeDeadLetter =>
    cases hexec
    exact .inl sameShelf_onSub.thins
  | getSnapshot name now =>
    cases hexec
    exact .inl (thins_getSnapshot platform b.state name now)
  | listSnapshots now =>
    cases hexec
    exact .inl (thins_removeExpiredSnapshots platform b.state now)
  | deleteSnapshot =>
    cases hexec
    exact .inl (thins_deleteSnapshot platform)
  | seekToSnapshot =>
    cases hexec
    exact .inl (thins_seekToSnapshot platform)
  | clearProject project =>
    cases hexec
    exact .inl (thins_clearProject platform b.state project)
  | clearProjectsWhere =>
    cases hexec
    exact .inl (thins_clearProjectsWhere platform)
  | preparePublish =>
    cases hexec
    exact .inl (thins_prepared
      (thins_preparePublishNumbered platform))
  | preparePublishWithMessageIds =>
    cases hexec
    refine .inl (thins_prepared ?_)
    unfold PubSubState.preparePublishWithMessageIds
    split_ifs
    · exact thins_preparePublishNumbered platform
    · exact .refl _
  | prepareDeadLetterPublication =>
    cases hexec
    refine .inl (thins_prepared ?_)
    unfold PubSubState.prepareDeadLetterPublication
    split_ifs
    · split
      · exact .refl _
      · exact thins_preparePublishNumbered platform
    · exact sameShelf_updateSub.thins
  | pull =>
    cases hexec
    exact .inl sameShelf_pull.thins
  | expireAll now =>
    cases hexec
    exact .inl ((thins_removeExpiredSnapshots platform b.state now).trans
      (PubSubState.SameShelf.thins ⟨rfl, rfl, rfl⟩))
  | resumeDeadLetter =>
    cases hexec
    exact .inl sameShelf_updateSub.thins

/-- A snapshot after a command is one that was there, with other labels maybe, a new one, or one
that learned what was published. -/
theorem Sound.captured_cases (hb : b.Sound) (hexec : b.exec platform c = some b') {name : Str}
    {snapshot : Snapshot} (hget : b'.state.snapshots.get name = some snapshot) :
    (∃ old labels, b.state.snapshots.get name = some old ∧ snapshot = { old with labels }) ∨
    (∃ key sub name project incarnation labels now lifetime, b.sub? key = some sub ∧
      snapshot = capture sub name project incarnation labels now lifetime) ∨
    ∃ old, b.state.snapshots.get name = some old ∧ snapshot = extendedSnapshot old (c.published platform b) := by
  rcases hb.shelf_cases hexec with ht | ⟨requestedName, subscription, labels, now, hstate⟩ |
    ⟨name', labels, now, hstate⟩ | ⟨i, now, prepared, hc, hpool, ha, -, hcommitted⟩ | hstate
  · exact .inl ⟨snapshot, _, ht.get hget, rfl⟩
  · rw [hstate] at hget
    have hp := pruned_removeExpiredSnapshots platform b.state now
    unfold PubSubState.createSnapshot at hget
    dsimp only at hget
    split at hget
    · exact .inl ⟨snapshot, _, hp.get name snapshot hget, rfl⟩
    · rename_i created bytes counter ha
      obtain ⟨sub, incarnation, name₀, project, lifetime, hsub, -, -, -, rfl⟩ :=
        snapshotAdmission_ok platform ha
      dsimp only at hget
      rw [get_insert] at hget
      split_ifs at hget
      · cases hget
        rw [hp.subscriptions] at hsub
        exact .inr (.inl ⟨_, sub, _, _, _, _, _, _, hsub, rfl⟩)
      · exact .inl ⟨snapshot, _, hp.get name snapshot hget, rfl⟩
  · rw [hstate] at hget
    have hp := pruned_getSnapshot platform b.state name' now
    unfold PubSubState.updateSnapshot at hget
    split at hget
    · rename_i heq
      rw [heq] at hp
      exact .inl ⟨snapshot, _, hp.get name snapshot hget, rfl⟩
    · rename_i old s₀ heq
      have hold := getSnapshot_ok platform heq
      rw [heq] at hp
      dsimp only at hget hp
      split at hget
      · exact .inl ⟨snapshot, _, hp.get name snapshot hget, rfl⟩
      · split_ifs at hget
        · exact .inl ⟨snapshot, _, hp.get name snapshot hget, rfl⟩
        · dsimp only at hget
          rw [get_insert] at hget
          split_ifs at hget with heq
          · cases hget
            subst heq
            exact .inl ⟨old, labels, hp.get _ old hold, rfl⟩
          · exact .inl ⟨snapshot, _, hp.get name snapshot hget, rfl⟩
  · rw [hcommitted.snapshots] at hget
    split_ifs at hget
    · obtain ⟨old, hold, rfl⟩ := Option.map_eq_some_iff.1 hget
      refine .inr (.inr ⟨old, hold, ?_⟩)
      rw [hc, Command.published_commitPrepared hpool ha]
    · exact .inl ⟨snapshot, _, hget, rfl⟩
  · rw [hstate] at hget
    cases hget

variable {key : Str}

/-- What a log holds after the operations of a command. -/
theorem logs_operations (platform : Platform) (hid : b.state.Identified) (hf : c.Fresh platform b)
    {sub : SubscriptionState} (hsub : b.sub? key = some sub) :
    (sub.run (c.operations platform b key sub)).Logs
      fun m => b.state.Holds m ∨ m ∈ c.published platform b := by
  have hheld : ∀ m ∈ sub.retainedMessages, b.state.Holds m := fun m hm => .inl ⟨key, sub, hsub, hm⟩
  have hlogs : sub.Logs fun m => b.state.Holds m ∨ m ∈ c.published platform b :=
    ⟨hid.log key sub hsub, fun m hm => .inl (hheld m hm)⟩
  cases c with
  | commitPrepared i now =>
    dsimp only [Command.operations]
    split
    · exact hlogs
    rename_i prepared hpool
    split
    · exact hlogs
    rename_i ha
    split_ifs
    · have hs : (prepared.published.filter sub.admits).Sublist
          ((Command.commitPrepared i now).published platform b) := by
        rw [Command.published_commitPrepared hpool ha]
        exact filter_sublist
      refine hlogs.run_enqueue (fun m hm => .inr (hs.subset hm))
        (hf.1.sublist (hs.map _)) fun m hm hmem => ?_
      obtain ⟨m', hm', heq⟩ := mem_map.1 hmem
      exact hf.ne (hs.subset hm) (hheld m' hm') heq.symm
    · exact hlogs
  | seekToTime name time now =>
    dsimp only [Command.operations]
    split_ifs
    · exact hlogs.apply (.seekToTime time now) nodup_nil nofun
    · exact hlogs
  | seekToSnapshot name snapshotName now =>
    dsimp only [Command.operations]
    split_ifs
    · split
      · exact hlogs
      rename_i snapshot s hget
      have hsnapshot : b.state.snapshots.get snapshotName = some snapshot := by
        have hp := pruned_getSnapshot platform b.state snapshotName now
        rw [hget] at hp
        exact hp.get _ _ (getSnapshot_ok platform hget)
      split_ifs
      · exact hlogs
      · -- the seek restores messages of the snapshot that the log misses
        have hmissing : (sub.missingMessages snapshot.capturedMessages
            snapshot.retainedMessageIds).Sublist snapshot.capturedMessages := filter_sublist
        refine hlogs.apply (.seekToSnapshot _ _ _ _ _)
          ((hid.captured snapshotName snapshot hsnapshot).sublist (hmissing.map _)) fun m hm => ?_
        exact ⟨SubscriptionState.messageId_not_mem_of_missing hm,
          .inl (.inr ⟨snapshotName, snapshot, hsnapshot, hmissing.subset hm⟩)⟩
    · exact hlogs
  | _ => exact hlogs.run_quiet fun op hop =>
      (Command.operations_isQuiet platform b sub (by nofun) id op hop).1

/-- What a log holds after a command. -/
theorem Step.logs (hstep : Step platform b c b') (hid : b.state.Identified) (hf : c.Fresh platform b)
    {sub' : SubscriptionState} (hsub' : b'.sub? key = some sub') :
    sub'.Logs fun m => b.state.Holds m ∨ m ∈ c.published platform b := by
  rcases hstep.subscription_before hsub' with ⟨sub, hsub, hadm⟩ | ⟨-, config, interval, rfl⟩
  · obtain ⟨hn, hall⟩ := logs_operations platform hid hf hsub
    have hlog : sub'.retainedMessages = (sub.run (c.operations platform b key sub)).retainedMessages := by
      rw [SubscriptionState.retainedMessages, hadm.entries]
      rfl
    refine ⟨?_, hlog ▸ hall⟩
    rw [SubscriptionState.ids, hlog]
    exact hn
  · exact ⟨nodup_nil, forall_mem_nil _⟩

/-- A command holds nothing new except what it publishes. -/
theorem Sound.holds_cases (hb : b.Sound) (hexec : b.exec platform c = some b')
    (hstep : Step platform b c b') (hid : b.state.Identified) (hf : c.Fresh platform b) {m : StoredMessage}
    (hm : b'.state.Holds m) : b.state.Holds m ∨ m ∈ c.published platform b := by
  rcases hm with ⟨key, sub', hsub', hm⟩ | ⟨name, snapshot, hget, hm⟩
  · exact (hstep.logs hid hf hsub').all m hm
  · rcases hb.captured_cases hexec hget with ⟨old, labels, hold, rfl⟩ |
      ⟨key, sub, _, _, _, _, _, _, hsub, rfl⟩ | ⟨old, hold, rfl⟩
    · exact .inl (.inr ⟨name, old, hold, hm⟩)
    · exact .inl (.inl ⟨key, sub, hsub, hm⟩)
    · exact (mem_append.1 hm).imp_left fun hm => .inr ⟨name, old, hold, hm⟩

/-- What is held and what is published have their own identifiers. -/
theorem eq_of_messageId (hid : b.state.Identified) (hf : c.Fresh platform b) {m m' : StoredMessage}
    (hm : b.state.Holds m ∨ m ∈ c.published platform b) (hm' : b.state.Holds m' ∨ m' ∈ c.published platform b)
    (heq : m.messageId = m'.messageId) : m = m' := by
  rcases hm with hm | hm <;> rcases hm' with hm' | hm'
  · exact hid.message m m' hm hm' heq
  · exact absurd heq.symm (hf.ne hm' hm)
  · exact absurd heq (hf.ne hm hm')
  · exact inj_on_of_nodup_map hf.1 hm hm' heq

theorem Sound.identified (hb : b.Sound) (hexec : b.exec platform c = some b') (hstep : Step platform b c b')
    (hid : b.state.Identified) (hf : c.Fresh platform b) : b'.state.Identified where
  log key sub' hsub' := (hstep.logs hid hf hsub').nodup
  captured name snapshot hget := by
    rcases hb.captured_cases hexec hget with ⟨old, labels, hold, rfl⟩ |
      ⟨key, sub, _, _, _, _, _, _, hsub, rfl⟩ | ⟨old, hold, rfl⟩
    · exact hid.captured name old hold
    · exact hid.log key sub hsub
    · rw [ids_extendedSnapshot, nodup_append']
      refine ⟨hid.captured name old hold, hf.1, ?_⟩
      intro id hmem hmem'
      obtain ⟨m, hm, rfl⟩ := mem_map.1 hmem'
      obtain ⟨m', hm', heq⟩ := mem_map.1 hmem
      exact hf.ne hm (.inr ⟨name, old, hold, hm'⟩) heq.symm
  message m m' hm hm' heq := eq_of_messageId hid hf
    (hb.holds_cases hexec hstep hid hf hm) (hb.holds_cases hexec hstep hid hf hm') heq

/-- The accounts of snapshots are kept. -/
theorem Sound.accounts (hb : b.Sound) (hexec : b.exec platform c = some b') (hid : b.state.Identified)
    (hf : c.Fresh platform b) (h : PubSubState.Accounts platform message b.state)
    (hmsg : ∀ m, b.state.Holds m ∨ m ∈ c.published platform b → message m.messageId = m) :
    PubSubState.Accounts platform message b'.state := by
  have hcat : PubSubState.Catalogued message b.state :=
    hid.catalogued fun m hm => hmsg m (.inl hm)
  rcases hb.shelf_cases hexec with ht | ⟨requestedName, subscription, labels, now, hstate⟩ |
    ⟨name', labels, now, hstate⟩ | ⟨i, now, prepared, hc, hpool, ha, hcom, hcommitted⟩ |
    hstate
  · exact h.thins hcat ht
  · rw [hstate]
    refine h.createSnapshot hcat requestedName subscription labels now fun sub hsub => ?_
    exact ⟨hid.log _ sub hsub, fun m hm => hmsg m (.inl (.inl ⟨_, sub, hsub, hm⟩))⟩
  · rw [hstate]
    exact h.updateSnapshot hcat name' labels now
  · have hp : c.published platform b = prepared.published := by
      rw [hc, Command.published_commitPrepared hpool ha]
    rw [hp] at hmsg
    refine h.commit hb.index (hp ▸ hf.1) (fun m hm => hmsg m (.inr hm))
      (fun name snapshot hget m hm hmem => ?_) ha hcom hcommitted
    obtain ⟨m', hm', heq⟩ := mem_map.1 hmem
    exact hf.ne (hp ▸ hm) (.inr ⟨name, snapshot, hget, hm'⟩) heq.symm
  · rw [hstate]
    exact accounts_empty rfl rfl rfl

/-! ### Runs -/

/-- Whether no command of a run publishes an identifier that the broker still holds. -/
def neverReuses (platform : Platform) (b : Broker) : List Command → Bool
  | [] => true
  | c :: commands => decide (c.Fresh platform b) &&
      (b.exec platform c).elim true fun b' => neverReuses platform b' commands

/-- What a run keeps that reuses no identifier. -/
structure Kept (platform : Platform) (b : Broker) : Prop where
  sound : b.Sound
  identified : b.state.Identified
  accounts : ∃ message, (∀ m, b.state.Holds m → message m.messageId = m) ∧
    PubSubState.Accounts platform message b.state

theorem kept_new (platform : Platform) (seed : BitVec 64) : Kept platform (new seed) := by
  have hid := identified_new seed
  obtain ⟨message, hm⟩ := exists_message hid.message
  exact ⟨sound_new seed, hid, message, hm, accounts_empty rfl rfl rfl⟩

theorem Kept.exec (h : Kept platform b) (hf : c.Fresh platform b) :
    ∃ b', b.exec platform c = some b' ∧ Kept platform b' := by
  obtain ⟨b', hexec, hstep⟩ := h.sound.exec platform c
  obtain ⟨message, hmsg, ha⟩ := h.accounts
  -- the identifiers of what is published have no message yet
  obtain ⟨message', hmsg'⟩ := exists_message
    (P := fun m => b.state.Holds m ∨ m ∈ c.published platform b)
    fun m m' => eq_of_messageId h.identified hf
  have ha' : PubSubState.Accounts platform message' b.state :=
    ha.congr (h.identified.catalogued hmsg)
      (h.identified.catalogued fun m hm => hmsg' m (.inl hm))
  exact ⟨b', hexec, h.sound.step hstep, h.sound.identified hexec hstep h.identified hf, message',
    fun m hm => hmsg' m (h.sound.holds_cases hexec hstep h.identified hf hm),
    h.sound.accounts hexec h.identified hf ha' hmsg'⟩

theorem Kept.run (h : Kept platform b) {commands : List Command}
    (hn : neverReuses platform b commands = true) :
    ∃ b', b.run platform commands = some b' ∧ Kept platform b' := by
  induction commands generalizing b with
  | nil => exact ⟨b, rfl, h⟩
  | cons c commands ih =>
    rw [neverReuses, Bool.and_eq_true, decide_eq_true_eq] at hn
    obtain ⟨b₁, hexec, hkept⟩ := h.exec hn.1
    rw [hexec] at hn
    obtain ⟨b', hrun, hb'⟩ := ih hkept hn.2
    refine ⟨b', ?_, hb'⟩
    rw [Broker.run, foldlM_cons, hexec]
    exact hrun

end Broker

/-! ### The accounts of snapshots -/

namespace PubSubState

variable {platform : Platform} {s : PubSubState}

/-- The messages of all snapshots, one for each identifier. -/
def distinctMessages (s : PubSubState) : List StoredMessage :=
  s.capturedMessages.pwFilter fun m m' => m.messageId ≠ m'.messageId

/-- The accounts of snapshots are exact. -/
structure Exact (platform : Platform) (s : PubSubState) : Prop where
  refs : ∀ id, s.snapshotMessageRefs.get id = if s.holders id = 0 then none else some (s.holders id)
  bytes : s.snapshotRetainedBytes =
    s.ownedBytes platform + (s.distinctMessages.map (snapshotSharedMessageBytes platform)).sum
  le : s.snapshotRetainedBytes ≤ maxSnapshotRetainedBytes
  index : s.SnapshotIndex

theorem nodup_distinctMessages (s : PubSubState) : (s.distinctMessages.map StoredMessage.messageId).Nodup :=
  pairwise_map.2 (pairwise_pwFilter _)

theorem mem_ids_distinctMessages {id : Str} :
    id ∈ s.distinctMessages.map StoredMessage.messageId ↔ s.holders id ≠ 0 := by
  have hcaptured : id ∈ s.capturedMessages.map StoredMessage.messageId ↔ s.holders id ≠ 0 := by
    rw [holders_ne_zero]
    simp only [mem_map, mem_capturedMessages, Snapshot.ids]
    constructor
    · rintro ⟨m, ⟨name, snapshot, hget, hm⟩, rfl⟩
      exact ⟨name, snapshot, hget, m, hm, rfl⟩
    · rintro ⟨name, snapshot, hget, m, hm, rfl⟩
      exact ⟨m, ⟨name, snapshot, hget, hm⟩, rfl⟩
  rw [← hcaptured]
  refine ⟨fun h => ((pwFilter_sublist _).map _).subset h, fun h => ?_⟩
  obtain ⟨m, hm, rfl⟩ := mem_map.1 h
  by_contra hnone
  -- a message with an identifier that none of the others has would have been kept
  have hall : ∀ m' ∈ s.distinctMessages, m.messageId ≠ m'.messageId := fun m' hm' heq =>
    hnone (mem_map.2 ⟨m', hm', heq.symm⟩)
  refine (forall_mem_pwFilter (R := fun m m' : StoredMessage => m.messageId ≠ m'.messageId)
    ?_ m s.capturedMessages).1 hall m hm rfl
  intro x y z hxz
  by_cases hxy : x.messageId = y.messageId
  · exact .inr fun hyz => hxz (hxy.trans hyz)
  · exact .inl hxy

theorem Accounts.exact (h : Accounts platform message s) (hcat : Catalogued message s)
    (hi : s.SnapshotIndex) : Exact platform s := by
  refine ⟨h.refs, ?_, h.le, hi⟩
  -- the keys with references are the identifiers of the distinct messages
  have hperm : (s.snapshotMessageRefs.keys).Perm
      (s.distinctMessages.map StoredMessage.messageId) := by
    refine (perm_ext_iff_of_nodup (keys_nodup _) s.nodup_distinctMessages).2 fun id => ?_
    rw [SortedMap.mem_keys, h.refs id, mem_ids_distinctMessages]
    split_ifs with hzero <;> simp [hzero]
  have hw : RefCounts.weight (sharedBytes platform message) s.snapshotMessageRefs =
      (s.snapshotMessageRefs.keys.map (sharedBytes platform message)).sum := by
    rw [RefCounts.weight, SortedMap.sum, SortedMap.keys, map_map]
    rfl
  rw [h.bytes, hw, (hperm.map _).sum_eq, map_map]
  congr 2
  refine map_congr_left fun m hm => ?_
  obtain ⟨name, snapshot, hget, hmem⟩ :=
    mem_capturedMessages.1 ((pwFilter_sublist _).subset hm)
  rw [comp_apply, sharedBytes, (hcat name snapshot hget).2 m hmem]

end PubSubState

namespace Broker

/-- In every state that a run reaches which publishes no identifier that the broker still holds, the
accounts of snapshots are exact. -/
theorem snapshot_accounting (platform : Platform) (seed : BitVec 64) (commands : List Command)
    (h : neverReuses platform (new seed) commands = true) :
    ∃ b, (new seed).run platform commands = some b ∧ PubSubState.Exact platform b.state := by
  obtain ⟨b, hrun, hkept⟩ := (kept_new platform seed).run h
  obtain ⟨message, hmessage, haccounts⟩ := hkept.accounts
  exact ⟨b, hrun, haccounts.exact (hkept.identified.catalogued hmessage) hkept.sound.index⟩

/-- A first message of a topic with a subscription. -/
def firstMessage : List Command :=
  [.createTopic sampleTopic (.ok ()),
    .createSubscription ⟨sampleSubscription, sampleTopic, 10, false, fun _ => true, none, none, []⟩
      (.ok ()), .preparePublish sampleTopic [⟨[0], SortedMap.empty, []⟩] 0, .commitPrepared 0 0]

/-- The identifier of the first message comes again after the broker is cleared.  The first of the
two later publications is prepared before the second snapshot, and is refused. -/
def snapshotCommands : List Command :=
  firstMessage ++ .clear :: firstMessage ++ [
    .createSnapshot "projects/project/snapshots/first".toList sampleSubscription SortedMap.empty 0,
    .preparePublish sampleTopic [⟨[1], SortedMap.empty, []⟩] 0,
    .createSnapshot "projects/project/snapshots/second".toList sampleSubscription SortedMap.empty 0,
    .commitPrepared 0 0, .preparePublish sampleTopic [⟨[2], SortedMap.empty, []⟩] 0, .commitPrepared 0 0]

theorem snapshot_accounting_of_snapshotCommands :
    ((new 0).run samplePlatform snapshotCommands).map
      (fun b => b.state.capturedMessages.map fun m => m.message.data) = some [[0], [2], [0], [2]] ∧
    ∃ b, (new 0).run samplePlatform snapshotCommands = some b ∧ PubSubState.Exact samplePlatform b.state :=
  ⟨by decide +kernel, snapshot_accounting samplePlatform 0 snapshotCommands (by decide +kernel)⟩

end Broker

end Fireemu.PubSub
