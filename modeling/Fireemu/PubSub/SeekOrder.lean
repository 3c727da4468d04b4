import Fireemu.PubSub.SnapshotRun

/-!
# The order of a log after a seek to a snapshot

A seek puts the messages a subscription has lost back into its log as one block, in front of the first
entry the snapshot does not know and that was published after it.  A snapshot also learns every message
that is published while it lives, so there is often no such entry and the block goes to the end.  Whether
the log is then still in the order of publication depends on where the lost messages stand in this order
(`seekToSnapshot_inOrder_iff`).
-/

namespace Fireemu.PubSub

open Library (SortedMap SortedSet)
open List PubSubState

/-- In an ordered list the elements in front of the first marked one are those that neither are marked
nor come after a marked one. -/
theorem forall_takeWhile_dropWhile_iff {α : Type} {R : α → α → Prop} {marked : α → Bool} {A B : α → Prop}
    {l : List α} (hl : l.Pairwise R) (hasymm : ∀ a b, R a b → ¬ R b a) :
    (∀ a ∈ l, ((∃ f ∈ l, marked f = true ∧ (f = a ∨ R f a)) ∧ B a) ∨
        ((∀ f ∈ l, marked f = true → ¬(f = a ∨ R f a)) ∧ A a)) ↔
      (∀ a ∈ l.takeWhile fun a => !marked a, A a) ∧ ∀ a ∈ l.dropWhile fun a => !marked a, B a := by
  have hsplit := takeWhile_append_dropWhile (p := fun a => !marked a) (l := l)
  have hmem : ∀ a, a ∈ l ↔ a ∈ l.takeWhile (fun a => !marked a) ∨ a ∈ l.dropWhile fun a => !marked a := by
    intro a
    rw [← mem_append, hsplit]
  rw [← hsplit, pairwise_append] at hl
  obtain ⟨-, hback, hcross⟩ := hl
  have hfront : ∀ a ∈ l.takeWhile (fun a => !marked a), ∀ f ∈ l, marked f = true → ¬(f = a ∨ R f a) := by
    intro a ha f hf hmarked
    have hnot : ∀ a ∈ l.takeWhile (fun a => !marked a), marked a = false :=
      fun a ha => by simpa using all_eq_true.1 all_takeWhile a ha
    rcases (hmem f).1 hf with hf | hf
    · rw [hnot f hf] at hmarked
      cases hmarked
    · rintro (rfl | hfa)
      · rw [hnot f ha] at hmarked
        cases hmarked
      · exact hasymm _ _ (hcross a ha f hf) hfa
  have hfirst : ∀ a ∈ l.dropWhile (fun a => !marked a), ∃ f ∈ l, marked f = true ∧ (f = a ∨ R f a) := by
    intro a ha
    cases hdrop : l.dropWhile fun a => !marked a with
    | nil =>
      rw [hdrop] at ha
      cases ha
    | cons f rest =>
      have hmarked : marked f = true := by
        have hne : l.dropWhile (fun a => !marked a) ≠ [] := by simp [hdrop]
        simpa [hdrop] using head_dropWhile_not (fun a => !marked a) hne
      rw [hdrop] at ha hback
      refine ⟨f, (hmem f).2 (.inr (hdrop ▸ mem_cons_self)), hmarked, ?_⟩
      exact (mem_cons.1 ha).imp Eq.symm (rel_of_pairwise_cons hback)
  constructor
  · intro h
    refine ⟨fun a ha => ?_, fun a ha => ?_⟩
    · rcases h a ((hmem a).2 (.inl ha)) with ⟨⟨f, hf, hmarked, hfa⟩, -⟩ | ⟨-, hA⟩
      · exact absurd hfa (hfront a ha f hf hmarked)
      · exact hA
    · rcases h a ((hmem a).2 (.inr ha)) with ⟨-, hB⟩ | ⟨hnone, -⟩
      · exact hB
      · obtain ⟨f, hf, hmarked, hfa⟩ := hfirst a ha
        exact absurd hfa (hnone f hf hmarked)
  · rintro ⟨hA, hB⟩ a ha
    rcases (hmem a).1 ha with ha | ha
    · exact .inr ⟨hfront a ha, hA a ha⟩
    · exact .inl ⟨hfirst a ha, hB a ha⟩

namespace SubscriptionState

/-- A log is in the order of publication. -/
def InOrder (before : StoredMessage → StoredMessage → Prop) (entries : List Entry) : Prop :=
  (entries.map Entry.stored).Pairwise before

/-- The messages of a snapshot that a subscription does not have and its filter admits. -/
def lost (s : SubscriptionState) (snapshot : Snapshot) : List StoredMessage :=
  snapshot.capturedMessages.filter fun message => decide (message.messageId ∉ s.ids) && s.admits message

/-- The entries that are there when a seek puts messages back: the acknowledged ones are reclaimed when
there is no room beside them. -/
def survivors (s : SubscriptionState) (missing : List StoredMessage) : List Entry :=
  if s.exceedsRetention missing.length (missing.map messageBytes).sum then
    s.entries.filter fun e => !e.isAcked
  else s.entries

/-- Whether an entry is unknown to a snapshot and was published after it. -/
def isLater (retainedMessageIds : SortedSet Str) (createdAt : LogicalInstant) (e : Entry) : Bool :=
  decide (e.stored.messageId ∉ retainedMessageIds ∧ createdAt ≤ e.stored.publishTime)

/-- Where the lost messages stand in the order of publication: in the order in which the snapshot has
them, and before exactly those remaining entries that are, or come after, a remaining entry that the
snapshot does not have and whose publish time is not before its creation. -/
def LossFits (before : StoredMessage → StoredMessage → Prop) (s : SubscriptionState) (snapshot : Snapshot) :
    Prop :=
  let lost := s.lost snapshot
  lost.Pairwise before ∧ ∀ message ∈ lost, ∀ e ∈ s.survivors lost,
    ((∃ later ∈ s.survivors lost, later.stored.messageId ∉ snapshot.ids ∧
      snapshot.createdAt ≤ later.stored.publishTime ∧ (later = e ∨ before later.stored e.stored)) ∧
      before message e.stored) ∨
    ((∀ later ∈ s.survivors lost, later.stored.messageId ∉ snapshot.ids →
      snapshot.createdAt ≤ later.stored.publishTime → ¬(later = e ∨ before later.stored e.stored)) ∧
      before e.stored message)

section

variable {s : SubscriptionState} {captured : List StoredMessage} {retainedIds unackedIds : SortedSet Str}
  {createdAt now : LogicalInstant} {before : StoredMessage → StoredMessage → Prop}

/-- The messages of a log after a seek: the missing ones stand in front of the first later entry. -/
theorem stored_seekToSnapshot
    (hok : (s.seekToSnapshot captured retainedIds unackedIds createdAt now).1 = .ok ()) :
    let missing := s.missingMessages captured retainedIds
    let known := fun e => !isLater retainedIds createdAt e
    (s.seekToSnapshot captured retainedIds unackedIds createdAt now).2.entries.map Entry.stored =
      ((s.survivors missing).takeWhile known).map Entry.stored ++ missing ++
        ((s.survivors missing).dropWhile known).map Entry.stored := by
  have hrestore : ∀ (s : SubscriptionState) (missing : List StoredMessage),
      (s.restore missing retainedIds unackedIds createdAt now).entries.map Entry.stored =
        (s.entries.takeWhile fun e => !isLater retainedIds createdAt e).map Entry.stored ++ missing ++
          (s.entries.dropWhile fun e => !isLater retainedIds createdAt e).map Entry.stored := by
    intro s missing
    change (List.map _ _).map _ = _
    simp only [map_map, map_append, Function.comp_def, restored_stored, map_id']
    rfl
  dsimp only
  unfold seekToSnapshot survivors at *
  dsimp only at hok ⊢
  split_ifs at hok ⊢ with he
  · exact hrestore _ _
  · exact hrestore _ _

theorem inOrder_survivors (h : InOrder before s.entries) (missing : List StoredMessage) :
    InOrder before (s.survivors missing) := by
  unfold survivors
  split_ifs
  · exact h.sublist (filter_sublist.map _)
  · exact h

end

end SubscriptionState

/-! ### The order of publication in a run -/

/-- A snapshot knows the messages it has by their ids. -/
def Snapshot.Knows (snapshot : Snapshot) : Prop :=
  ∀ id, id ∈ snapshot.retainedMessageIds ↔ id ∈ snapshot.ids

namespace Broker

variable {platform : Platform} {b b' : Broker} {c : Command} {commands : List Command} {l : List ℕ}

/-- The messages of a run in the order in which they are published. -/
def publications (platform : Platform) (b : Broker) : List Command → List StoredMessage
  | [] => []
  | c :: commands =>
      c.published platform b ++ (b.exec platform c).elim [] fun b' => publications platform b' commands

/-- One message is published before another one in a run. -/
def PublishedBefore (platform : Platform) (seed : BitVec 64) (commands : List Command)
    (m m' : StoredMessage) : Prop :=
  [m.address, m'.address].Sublist ((publications platform (new seed) commands).map StoredMessage.address)

theorem grows_published (platform : Platform) (b : Broker) (c : Command) (l : List ℕ) :
    Grows b c l (l ++ (c.published platform b).map StoredMessage.address) := by
  have hnone : c.published platform b = [] →
      Grows b c l (l ++ (c.published platform b).map StoredMessage.address) := by
    intro hnil
    rw [hnil, map_nil, append_nil]
    exact .inl (.refl l)
  cases c with
  | commitPrepared i now =>
    cases hpool : b.pool[i]? with
    | none => exact hnone (by simp [Command.published, hpool])
    | some prepared =>
      cases ha : b.state.commitAdmission platform prepared with
      | error => exact hnone (by simp [Command.published, hpool, ha])
      | ok =>
        rw [Command.published_commitPrepared hpool ha]
        exact .inr ⟨i, now, prepared, rfl, hpool, .refl _⟩
  | _ => exact hnone rfl

/-- Every snapshot knows its messages: those of the log it was taken from, and those published since. -/
theorem Sound.knows (hb : b.Sound) (hexec : b.exec platform c = some b')
    (h : ∀ name snapshot, b.state.snapshots.get name = some snapshot → snapshot.Knows) {name : Str}
    {snapshot : Snapshot} (hget : b'.state.snapshots.get name = some snapshot) : snapshot.Knows := by
  rcases hb.captured_cases hexec hget with ⟨old, labels, hold, rfl⟩ |
    ⟨key, sub, _, _, _, _, _, _, -, rfl⟩ | ⟨old, hold, rfl⟩ <;> intro id
  · exact h name old hold id
  · simp [capture, SubscriptionState.retainedMessageIds, SubscriptionState.retainedMessages, Snapshot.ids,
      SortedSet.mem_foldl_add]
  · rw [ids_extendedSnapshot, mem_append, ← h name old hold id, or_comm]
    exact SortedSet.mem_foldl_add

/-- What a run records: the messages it published are different ones, and snapshots know theirs. -/
structure Recorded (published : List ℕ) (b : Broker) : Prop extends Apart published b where
  sound : b.Sound
  known : ∀ name snapshot, b.state.snapshots.get name = some snapshot → snapshot.Knows

theorem Recorded.run (h : Recorded l b) (hrun : b.run platform commands = some b') :
    Recorded (l ++ (publications platform b commands).map StoredMessage.address) b' := by
  induction commands generalizing b l with
  | nil =>
    cases hrun
    rwa [publications, map_nil, append_nil]
  | cons c commands ih =>
    obtain ⟨b₁, hexec, hstep⟩ := h.sound.exec platform c
    rw [run_cons hexec] at hrun
    rw [publications, hexec, Option.elim_some, map_append, ← append_assoc]
    exact ih ⟨h.toApart.step hstep (grows_published platform b c l), h.sound.step hstep,
      fun name snapshot => h.sound.knows hexec h.known⟩ hrun

theorem recorded_of_run {seed : BitVec 64} (hrun : (new seed).run platform commands = some b) :
    Recorded ((publications platform (new seed) commands).map StoredMessage.address) b := by
  have hnew : Recorded [] (new seed) := ⟨⟨nodup_nil, nofun⟩, sound_new seed, nofun⟩
  simpa using hnew.run hrun

/-- Different messages are not published before each other. -/
theorem PublishedBefore.asymm {seed : BitVec 64} (hrun : (new seed).run platform commands = some b)
    {m m' : StoredMessage} (h : PublishedBefore platform seed commands m m') :
    ¬ PublishedBefore platform seed commands m' m := by
  have hn := (nodup_append'.1 (recorded_of_run hrun).distinct).1
  unfold PublishedBefore at h ⊢
  generalize (publications platform (new seed) commands).map StoredMessage.address = l at hn h ⊢
  generalize m.address = x at h ⊢
  generalize m'.address = y at h ⊢
  intro h'
  induction l with
  | nil => cases h
  | cons a l ih =>
    obtain ⟨ha, hl⟩ := nodup_cons.1 hn
    -- the first of the two that stands at the head would also stand behind it
    cases h with
    | cons _ h =>
      cases h' with
      | cons _ h' => exact ih hl h h'
      | cons_cons => exact ha (h.subset (mem_pair.2 (.inr rfl)))
    | cons_cons _ h =>
      cases h' with
      | cons _ h' => exact ha (h'.subset (mem_pair.2 (.inr rfl)))
      | cons_cons => exact ha (singleton_sublist.1 h)

end Broker

namespace SubscriptionState

variable {s : SubscriptionState} {snapshot : Snapshot} {now : LogicalInstant}
  {before : StoredMessage → StoredMessage → Prop}

theorem missingMessages_eq_lost (h : snapshot.Knows) :
    s.missingMessages snapshot.capturedMessages snapshot.retainedMessageIds = s.lost snapshot := by
  refine filter_congr fun m hm => ?_
  have hknown : m.messageId ∈ snapshot.retainedMessageIds := (h _).2 (mem_map_of_mem hm)
  have hids : (s.entries.any fun e => e.stored.messageId = m.messageId) = decide (m.messageId ∈ s.ids) := by
    rw [Bool.eq_iff_iff]
    simp [ids, retainedMessages]
  rw [hids]
  simp [hknown]

/-- Lost messages fit exactly when they fit between the remaining entries in front of the first later
one and those from it on. -/
theorem lossFits_iff (hknows : snapshot.Knows) (hasymm : ∀ m m', before m m' → ¬ before m' m)
    (horder : InOrder before (s.survivors (s.lost snapshot))) :
    s.LossFits before snapshot ↔
      (s.lost snapshot).Pairwise before ∧ ∀ message ∈ s.lost snapshot,
        (∀ e ∈ (s.survivors (s.lost snapshot)).takeWhile
          (fun e => !isLater snapshot.retainedMessageIds snapshot.createdAt e), before e.stored message) ∧
        ∀ e ∈ (s.survivors (s.lost snapshot)).dropWhile
          (fun e => !isLater snapshot.retainedMessageIds snapshot.createdAt e), before message e.stored := by
  refine and_congr_right fun _ => forall₂_congr fun message _ => ?_
  rw [← forall_takeWhile_dropWhile_iff (pairwise_map.1 horder) fun e e' => hasymm e.stored e'.stored]
  simp only [isLater, decide_eq_true_eq, hknows _, and_assoc, and_imp]

/-- The block that a seek puts back, between the remaining entries. -/
theorem inOrder_seekToSnapshot_iff (hknows : snapshot.Knows) (hasymm : ∀ m m', before m m' → ¬ before m' m)
    (horder : InOrder before s.entries) (hok : (s.seekToSnapshot snapshot.capturedMessages
      snapshot.retainedMessageIds snapshot.unacknowledgedMessageIds snapshot.createdAt now).1 = .ok ()) :
    InOrder before (s.seekToSnapshot snapshot.capturedMessages snapshot.retainedMessageIds
      snapshot.unacknowledgedMessageIds snapshot.createdAt now).2.entries ↔ s.LossFits before snapshot := by
  have hsurvivors := inOrder_survivors horder (s.lost snapshot)
  rw [lossFits_iff hknows hasymm hsurvivors]
  rw [InOrder, ← takeWhile_append_dropWhile
    (p := fun e => !isLater snapshot.retainedMessageIds snapshot.createdAt e) (l := s.survivors _),
    map_append, pairwise_append] at hsurvivors
  obtain ⟨hfront, hback, hcross⟩ := hsurvivors
  rw [InOrder, stored_seekToSnapshot hok, missingMessages_eq_lost hknows, pairwise_append, pairwise_append]
  constructor
  · rintro ⟨⟨-, hlost, hafter⟩, -, hbefore⟩
    exact ⟨hlost, fun message hmem => ⟨fun e he => hafter _ (mem_map_of_mem he) _ hmem,
      fun e he => hbefore _ (mem_append_right _ hmem) _ (mem_map_of_mem he)⟩⟩
  · rintro ⟨hlost, hblock⟩
    refine ⟨⟨hfront, hlost, ?_⟩, hback, ?_⟩
    · intro m hm message hmem
      obtain ⟨e, he, rfl⟩ := mem_map.1 hm
      exact (hblock message hmem).1 e he
    · intro m hm m' hm'
      rcases mem_append.1 hm with hm | hm
      · exact hcross m hm m' hm'
      · obtain ⟨e, he, rfl⟩ := mem_map.1 hm'
        exact (hblock m hm).2 e he

end SubscriptionState

namespace Broker

/-- After any run, a log in the order of publication is still in this order after a seek to a snapshot
exactly when the messages that the subscription has lost fit. -/
theorem seekToSnapshot_inOrder_iff (platform : Platform) (seed : BitVec 64) {commands : List Command}
    {b : Broker} {name : SubscriptionName} {snapshotName : Str} {now : LogicalInstant} {snapshot : Snapshot}
    {sub : SubscriptionState} {s s' : PubSubState} (hrun : (new seed).run platform commands = some b)
    (hsub : b.sub? name.toFull = some sub)
    (hsnapshot : b.state.getSnapshot platform snapshotName now = (.ok snapshot, s))
    (hseek : b.state.seekToSnapshot platform name snapshotName now = (.ok (), s'))
    (horder : SubscriptionState.InOrder (PublishedBefore platform seed commands) sub.entries) :
    ∃ sub', s'.subscriptions.get name.toFull = some sub' ∧
      (SubscriptionState.InOrder (PublishedBefore platform seed commands) sub'.entries ↔
        sub.LossFits (PublishedBefore platform seed commands) snapshot) := by
  have hp := pruned_getSnapshot platform b.state snapshotName now
  rw [hsnapshot] at hp
  have hknows : snapshot.Knows := (recorded_of_run hrun).known snapshotName snapshot
    (hp.get _ _ (getSnapshot_ok platform hsnapshot))
  have hsub' : s.subscriptions.get name.toFull = some sub := by
    rw [hp.subscriptions]
    exact hsub
  unfold PubSubState.seekToSnapshot at hseek
  rw [hsnapshot] at hseek
  dsimp only at hseek
  rw [hsub'] at hseek
  dsimp only at hseek
  split_ifs at hseek
  · cases hseek
  · unfold onSub at hseek
    rw [hsub'] at hseek
    obtain ⟨hok, rfl⟩ := Prod.mk.inj hseek
    exact ⟨_, SortedMap.get_insert_self _ _ _, SubscriptionState.inOrder_seekToSnapshot_iff hknows
      (fun m m' h => h.asymm hrun) horder hok⟩

def laterSubscription : SubscriptionName := ⟨"project".toList, "later".toList⟩

/-- A subscription with ordering and a filter. -/
def orderedConfig (name : SubscriptionName) (filter : SortedMap Str Str → Bool) : SubscriptionConfig :=
  ⟨name, sampleTopic, 10, true, filter, none, none, []⟩

/-- A message is published, a second subscription is created, and another message of the same key is
published; then a snapshot is taken of the first subscription. -/
def seekCommands (filter : SortedMap Str Str → Bool) (attributes : SortedMap Str Str) : List Command :=
  [.createTopic sampleTopic (.ok ()), .createSubscription (orderedConfig sampleSubscription filter) (.ok ()),
    .preparePublish sampleTopic [⟨[1], SortedMap.empty, ['k']⟩] 0, .commitPrepared 0 0,
    .createSubscription (orderedConfig laterSubscription fun _ => true) (.ok ()),
    .preparePublish sampleTopic [⟨[2], attributes, ['k']⟩] 2, .commitPrepared 0 2,
    .createSnapshot "projects/project/snapshots/point".toList sampleSubscription SortedMap.empty 2]

/-- The second subscription seeks to the snapshot. -/
def seekLater : Command :=
  .seekToSnapshot laterSubscription "projects/project/snapshots/point".toList 3

/-- The log of the second subscription after a run: data, publish times and attempts. -/
def laterLog (commands : List Command) : Option (List (List UInt8 × ℤ × UInt32)) :=
  ((new 0).run samplePlatform commands).bind fun b =>
    (b.sub? laterSubscription.toFull).map fun sub =>
      sub.entries.map fun e => (e.stored.message.data, e.stored.publishTime, e.deliveryAttempt)

/-- The first subscription does not admit the second message, which the snapshot so does not know. -/
def fittingCommands : List Command :=
  seekCommands (fun attributes => attributes.entries.isEmpty) (SortedMap.empty.insert ['a'] [])

/-- The first message is put back in front of the second one. -/
theorem seekToSnapshot_inOrder_iff_fitting :
    laterLog fittingCommands = some [([2], 2, 0)] ∧
    laterLog (fittingCommands ++ [seekLater]) = some [([1], 0, 0), ([2], 2, 0)] ∧
    ∃ b sub snapshot s', (new 0).run samplePlatform fittingCommands = some b ∧
      b.sub? laterSubscription.toFull = some sub ∧
      b.state.seekToSnapshot samplePlatform laterSubscription
        "projects/project/snapshots/point".toList 3 = (.ok (), s') ∧
      ∃ sub', s'.subscriptions.get laterSubscription.toFull = some sub' ∧
        (SubscriptionState.InOrder (PublishedBefore samplePlatform 0 fittingCommands) sub'.entries ↔
          sub.LossFits (PublishedBefore samplePlatform 0 fittingCommands) snapshot) := by
  refine ⟨by decide +kernel, by decide +kernel, ?_⟩
  obtain ⟨b, hrun, -⟩ := (sound_new 0).run samplePlatform fittingCommands
  have hsample : ((new 0).run samplePlatform fittingCommands).any fun b =>
      (b.sub? laterSubscription.toFull).any (fun sub => sub.entries.length = 1) &&
      (b.state.getSnapshot samplePlatform "projects/project/snapshots/point".toList 3).1.isOk &&
      (b.state.seekToSnapshot samplePlatform laterSubscription
        "projects/project/snapshots/point".toList 3).1.isOk := by decide +kernel
  rw [hrun, Option.any_some, Bool.and_eq_true, Bool.and_eq_true] at hsample
  obtain ⟨⟨hone, hget⟩, hok⟩ := hsample
  cases hsub : b.sub? laterSubscription.toFull with
  | none =>
    rw [hsub] at hone
    cases hone
  | some sub =>
    rw [hsub, Option.any_some, decide_eq_true_eq, length_eq_one_iff] at hone
    obtain ⟨e, he⟩ := hone
    cases hsnapshot : b.state.getSnapshot samplePlatform "projects/project/snapshots/point".toList 3 with
    | mk result s =>
      cases hseek : b.state.seekToSnapshot samplePlatform laterSubscription
          "projects/project/snapshots/point".toList 3 with
      | mk result' s' =>
        rw [hsnapshot] at hget
        rw [hseek] at hok
        cases result with
        | error => cases hget
        | ok snapshot =>
          cases result' with
          | error => cases hok
          | ok =>
            refine ⟨b, sub, snapshot, s', hrun, hsub, hseek, seekToSnapshot_inOrder_iff samplePlatform 0
              hrun hsub hsnapshot hseek ?_⟩
            rw [SubscriptionState.InOrder, he]
            exact pairwise_singleton _ _

/-- The second subscription holds the second message, before the seek; then it holds the first one
behind it, and hands out the second one first. -/
theorem seek_restores_behind_later :
    let commands := seekCommands (fun _ => true) SortedMap.empty
    laterLog commands = some [([2], 2, 0)] ∧
      laterLog (commands ++ [seekLater]) = some [([2], 2, 0), ([1], 0, 0)] ∧
      laterLog (commands ++ [seekLater, .pull laterSubscription 1 4 .mixed false fun _ => true]) =
        some [([2], 2, 1), ([1], 0, 0)] := by
  decide +kernel

end Broker

end Fireemu.PubSub
