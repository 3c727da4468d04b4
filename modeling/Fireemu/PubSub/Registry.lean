import Fireemu.Library.Fallible
import Fireemu.PubSub.Capacity
import Fireemu.PubSub.Publish

/-!
# What the registry leaves alone

An operation on topics, on snapshots or on the settings of subscriptions can drop subscriptions, but
it does not touch the messages of those it keeps.  `Administers` is all that such an operation can
do; it composes, so that the operations on whole projects have it too.
-/

namespace Fireemu.PubSub

open Library (GroupedIndex SortedMap SortedSet bind_eq_ok ite_throw_eq_ok)
open List Library.SortedMap

/-! ### Subscriptions -/

namespace SubscriptionState

/-- Only settings differ: the endpoint, the deadline, the policies, and the topic once it is
deleted. -/
structure Administered (s s' : SubscriptionState) : Prop where
  entries : s'.entries = s.entries
  firstUnacked : s'.firstUnacked = s.firstUnacked
  outstanding : s'.outstanding = s.outstanding
  retainedBytes : s'.retainedBytes = s.retainedBytes
  filter : s'.config.filter = s.config.filter
  name : s'.config.name = s.config.name
  ordering : s'.config.enableMessageOrdering = s.config.enableMessageOrdering

variable {s s' s'' : SubscriptionState}

theorem Administered.refl (s : SubscriptionState) : s.Administered s :=
  ⟨rfl, rfl, rfl, rfl, rfl, rfl, rfl⟩

theorem Administered.trans (h : s.Administered s') (h' : s'.Administered s'') : s.Administered s'' :=
  ⟨h'.entries.trans h.entries, h'.firstUnacked.trans h.firstUnacked,
    h'.outstanding.trans h.outstanding, h'.retainedBytes.trans h.retainedBytes,
    h'.filter.trans h.filter, h'.name.trans h.name, h'.ordering.trans h.ordering⟩

theorem Accounted.of_administered (h : s.Accounted) (h' : s.Administered s') : s'.Accounted := by
  refine ⟨?_, ?_, ?_⟩
  · rw [h'.retainedBytes, h'.entries, h.retainedBytes]
  · rw [h'.entries]
    exact h.count_le
  · rw [h'.retainedBytes]
    exact h.bytes_le

theorem Valid.of_administered (h : s.Valid) (h' : s.Administered s') : s'.Valid := by
  obtain ⟨he, hf, hout, hb, -, -, -⟩ := h'
  refine ⟨?_, ?_, ?_, ?_, ?_⟩
  · rw [hf, he, h.firstUnacked]
  · rw [he, hout]
    exact h.leases
  · rw [hb, he, h.retainedBytes]
  · rw [he]
    exact h.count_le
  · rw [hb]
    exact h.bytes_le

end SubscriptionState

namespace PubSubState

variable {s s' s'' : PubSubState} {discarded : Str → Prop} (platform : Platform) {snapshot : Snapshot}
  {now : LogicalInstant}

/-! ### Snapshots -/

/-- The topic of the snapshot of a name. -/
def snapshotTopic (s : PubSubState) (name : Str) : Str ×ₗ ℕ :=
  ((s.snapshots.get name).map Snapshot.topicKey).getD (toLex ([], 0))

/-- Snapshots are stored under their names, and indexed by their topics. -/
structure SnapshotIndex (s : PubSubState) : Prop where
  name : ∀ key snapshot, s.snapshots.get key = some snapshot → snapshot.name = key
  exact : GroupedIndex.Exact s.snapshotTopic
    (fun name => (s.snapshots.get name).isSome = true) s.topicSnapshots

variable {name topicKey : Str} {topicIncarnation : ℕ} {messages : List (PubsubMessage × Option Str)}
  {topic : TopicName} {prepared : PreparedPublication}

theorem SnapshotIndex.mem_snapshotsOf (h : s.SnapshotIndex) : name ∈ s.snapshotsOf topicKey topicIncarnation ↔
      ∃ snapshot, s.snapshots.get name = some snapshot ∧
        snapshot.topicKey = toLex (topicKey, topicIncarnation) := by
  rw [snapshotsOf, SortedSet.mem_toList, h.exact.mem_group, snapshotTopic]
  cases s.snapshots.get name <;> simp

theorem SnapshotIndex.isSome_of_mem (h : s.SnapshotIndex)
    (hmem : name ∈ s.snapshotsOf topicKey topicIncarnation) : (s.snapshots.get name).isSome = true := by
  obtain ⟨snapshot, hget, -⟩ := h.mem_snapshotsOf.1 hmem
  rw [hget]
  rfl

/-- The index only depends on the topics of the snapshots. -/
theorem SnapshotIndex.of_topics (h : s.SnapshotIndex)
    (hname : ∀ key snapshot, s'.snapshots.get key = some snapshot → snapshot.name = key)
    (ht : ∀ name, (s'.snapshots.get name).map Snapshot.topicKey =
      (s.snapshots.get name).map Snapshot.topicKey)
    (hi : s'.topicSnapshots = s.topicSnapshots) : s'.SnapshotIndex := by
  have hkey : s'.snapshotTopic = s.snapshotTopic := by
    funext name
    rw [snapshotTopic, ht, snapshotTopic]
  refine ⟨hname, ?_⟩
  rw [hkey, hi]
  refine h.exact.congr fun name => ?_
  rw [← Option.isSome_map, ← ht, Option.isSome_map]

theorem SnapshotIndex.of_eq (h : s.SnapshotIndex) (hs : s'.snapshots = s.snapshots)
    (hi : s'.topicSnapshots = s.topicSnapshots) : s'.SnapshotIndex := by
  refine h.of_topics (fun key => ?_) (fun name => ?_) hi <;> rw [hs]
  exact h.name key

theorem snapshotIndex_new (seed : BitVec 64) : (new seed).SnapshotIndex where
  name := nofun
  exact := GroupedIndex.Exact.empty fun _ => Bool.false_ne_true

theorem snapshotTopic_congr (h : s'.snapshots.get name = s.snapshots.get name) :
    s'.snapshotTopic name = s.snapshotTopic name := by
  rw [snapshotTopic, h, snapshotTopic]

/-- A new snapshot enters the index. -/
theorem SnapshotIndex.insert (h : s.SnapshotIndex) (hnew : s.snapshots.get snapshot.name = none)
    (hs : s'.snapshots = s.snapshots.insert snapshot.name snapshot)
    (hi : s'.topicSnapshots = GroupedIndex.addTo s.topicSnapshots snapshot.topicKey snapshot.name) :
    s'.SnapshotIndex := by
  have hget : ∀ name, s'.snapshots.get name =
      if name = snapshot.name then some snapshot else s.snapshots.get name := by
    intro name
    rw [hs, get_insert]
    split_ifs <;> rfl
  refine ⟨fun key snapshot' h' => ?_, ?_⟩
  · rw [hget] at h'
    split_ifs at h' with hkey
    · cases h'
      exact hkey.symm
    · exact h.name key snapshot' h'
  · have hkey : snapshot.topicKey = s'.snapshotTopic snapshot.name := by
      rw [snapshotTopic, hget, if_pos rfl]
      rfl
    rw [hi, hkey]
    refine (h.exact.congr_key fun name hsome => ?_).addTo snapshot.name fun name => ?_
    · refine snapshotTopic_congr ((hget name).trans (if_neg ?_))
      rintro rfl
      rw [hnew] at hsome
      cases hsome
    · rw [hget]
      split_ifs with hname <;> simp [hname]

/-- Only snapshots are removed. -/
structure Pruned (s s' : PubSubState) : Prop where
  frame : ∃ snapshots topicSnapshots snapshotMessageRefs snapshotRetainedBytes, s' = { s with
    snapshots, topicSnapshots, snapshotMessageRefs, snapshotRetainedBytes }
  get : ∀ name snapshot, s'.snapshots.get name = some snapshot →
    s.snapshots.get name = some snapshot
  index : s.SnapshotIndex → s'.SnapshotIndex

theorem Pruned.refl (s : PubSubState) : s.Pruned s := ⟨⟨_, _, _, _, rfl⟩, fun _ _ => id, id⟩

theorem Pruned.trans (h : s.Pruned s') (h' : s'.Pruned s'') : s.Pruned s'' := by
  refine ⟨?_, fun name snapshot => h.get name snapshot ∘ h'.get name snapshot, h'.index ∘ h.index⟩
  obtain ⟨_, _, _, _, rfl⟩ := h.frame
  obtain ⟨_, _, _, _, rfl⟩ := h'.frame
  exact ⟨_, _, _, _, rfl⟩

theorem Pruned.foldl {α : Type} {f : PubSubState → α → PubSubState}
    (hf : ∀ s a, Pruned s (f s a)) (s : PubSubState) (l : List α) : s.Pruned (l.foldl f s) :=
  l.foldlRecOn f (.refl s) fun s' h a _ => h.trans (hf s' a)

theorem pruned_releaseMessage (s : PubSubState) (message : StoredMessage) :
    s.Pruned (s.releaseMessage platform message) := by
  unfold releaseMessage
  split
  · exact .refl s
  · split_ifs
    · exact ⟨⟨_, _, _, _, rfl⟩, fun _ _ => id, fun h => h.of_eq rfl rfl⟩
    · exact ⟨⟨_, _, _, _, rfl⟩, fun _ _ => id, fun h => h.of_eq rfl rfl⟩

theorem pruned_removeSnapshot (s : PubSubState) (name : Str) : s.Pruned (s.removeSnapshot platform name) := by
  unfold removeSnapshot
  cases hget : s.snapshots.get name with
  | none => exact .refl s
  | some snapshot =>
    refine Pruned.trans ?_ (Pruned.foldl (pruned_releaseMessage platform) _ _)
    refine ⟨⟨_, _, _, _, rfl⟩, fun name' snapshot' h => ?_, fun h => ⟨fun key snapshot' h' => ?_, ?_⟩⟩
    · dsimp only at h
      rw [get_erase] at h
      split_ifs at h
      exact h
    · dsimp only at h'
      rw [get_erase] at h'
      split_ifs at h'
      exact h.name key snapshot' h'
    · have hkey : snapshot.topicKey = s.snapshotTopic name := by
        rw [snapshotTopic, hget]
        rfl
      dsimp only
      rw [hkey]
      refine (h.exact.removeFrom name fun name' => ?_).congr_key fun name' h' => ?_
      · rw [get_erase]
        split_ifs with hname <;> simp [hname]
      · refine snapshotTopic_congr (get_erase_of_ne _ ?_)
        rintro rfl
        simp at h'

theorem pruned_removeExpiredSnapshots (s : PubSubState) (now : LogicalInstant) :
    s.Pruned (s.removeExpiredSnapshots platform now) :=
  Pruned.foldl (pruned_removeSnapshot platform) s _

/-! ### Administration -/

/-- What an operation can do that is not addressed to the messages of subscriptions. -/
structure Administers (discarded : Str → Prop) (s s' : PubSubState) : Prop where
  subs : ∀ key, (s'.subscriptions.get key = none ∧
      (s.subscriptions.get key = none ∨ discarded key)) ∨
    ∃ sub sub', s.subscriptions.get key = some sub ∧
      s'.subscriptions.get key = some sub' ∧ sub.Administered sub'
  ackRng : s'.ackRng = s.ackRng ∨ ∀ key, discarded key
  nextAddress : s.nextAddress ≤ s'.nextAddress
  index : s.SnapshotIndex → s'.SnapshotIndex

theorem same_subs (h : s'.subscriptions = s.subscriptions) (key : Str) :
    (s'.subscriptions.get key = none ∧ (s.subscriptions.get key = none ∨ discarded key)) ∨
    ∃ sub sub', s.subscriptions.get key = some sub ∧
      s'.subscriptions.get key = some sub' ∧ sub.Administered sub' := by
  rw [h]
  cases hget : s.subscriptions.get key with
  | none => exact .inl ⟨rfl, .inl rfl⟩
  | some sub => exact .inr ⟨sub, sub, rfl, rfl, .refl sub⟩

theorem Administers.refl (s : PubSubState) : Administers discarded s s :=
  ⟨same_subs rfl, .inl rfl, le_rfl, id⟩

theorem Administers.trans (h : Administers discarded s s') (h' : Administers discarded s' s'') :
    Administers discarded s s'' where
  subs key := by
    rcases h'.subs key with ⟨hnone, hdrop⟩ | ⟨sub', sub'', hsub', hsub'', hadm'⟩
    · refine .inl ⟨hnone, ?_⟩
      rcases hdrop with hnone' | hdrop
      · rcases h.subs key with ⟨-, hdrop⟩ | ⟨_, _, -, hsome, -⟩
        · exact hdrop
        · rw [hnone'] at hsome
          cases hsome
      · exact .inr hdrop
    · rcases h.subs key with ⟨hnone, -⟩ | ⟨sub, sub₁, hsub, hsub₁, hadm⟩
      · rw [hnone] at hsub'
        cases hsub'
      · rw [hsub', Option.some.injEq] at hsub₁
        subst hsub₁
        exact .inr ⟨sub, sub'', hsub, hsub'', hadm.trans hadm'⟩
  ackRng := by
    rcases h.ackRng with heq | hall
    · rcases h'.ackRng with heq' | hall
      · exact .inl (heq'.trans heq)
      · exact .inr hall
    · exact .inr hall
  nextAddress := h.nextAddress.trans h'.nextAddress
  index := h'.index ∘ h.index

theorem Administers.mono {discarded' : Str → Prop} (h : Administers discarded s s')
    (hle : ∀ key, discarded key → discarded' key) : Administers discarded' s s' where
  subs key := (h.subs key).imp_left (And.imp_right (Or.imp_right (hle key)))
  ackRng := h.ackRng.imp_right fun hall key => hle key (hall key)
  nextAddress := h.nextAddress
  index := h.index

theorem Administers.foldl {α : Type} {f : PubSubState → α → PubSubState} {l : List α}
    (hf : ∀ s, ∀ a ∈ l, Administers discarded s (f s a)) (s : PubSubState) :
    Administers discarded s (l.foldl f s) :=
  l.foldlRecOn f (.refl s) fun s' h a ha => h.trans (hf s' a ha)

/-- Subscriptions, ack ids, allocations and snapshots stay. -/
theorem Administers.of_eq (hsubs : s'.subscriptions = s.subscriptions) (hrng : s'.ackRng = s.ackRng)
    (ha : s'.nextAddress = s.nextAddress) (hs : s'.snapshots = s.snapshots)
    (hi : s'.topicSnapshots = s.topicSnapshots) : Administers discarded s s' :=
  ⟨same_subs hsubs, .inl hrng, ha.ge, fun h => h.of_eq hs hi⟩

theorem Pruned.administers (h : s.Pruned s') : Administers discarded s s' := by
  refine ⟨?_, ?_, ?_, h.index⟩ <;> obtain ⟨_, _, _, _, rfl⟩ := h.frame
  · exact same_subs rfl
  · exact .inl rfl
  · exact le_rfl

theorem administers_setPushMinimumRedeliveryInterval (s : PubSubState) {interval : LogicalDuration} :
    Administers discarded s (s.setPushMinimumRedeliveryInterval interval) where
  subs key := by
    unfold setPushMinimumRedeliveryInterval
    rw [get_mapValues]
    cases hget : s.subscriptions.get key with
    | none => exact .inl ⟨rfl, .inl rfl⟩
    | some sub => exact .inr ⟨sub, _, rfl, rfl, ⟨rfl, rfl, rfl, rfl, rfl, rfl, rfl⟩⟩
  ackRng := .inl rfl
  nextAddress := le_rfl
  index h := h.of_eq rfl rfl

theorem administers_createTopic (s : PubSubState) {name : TopicName} {checked : Except PubSubError Unit} :
    Administers discarded s (s.createTopic name checked).2 := by
  unfold createTopic createResourcePolicy
  split
  · exact .refl s
  · dsimp only
    split_ifs
    · exact .refl s
    · exact .refl s
    · split
      · exact .refl s
      · exact .of_eq rfl rfl rfl rfl rfl
    · split
      · exact .refl s
      · exact .of_eq rfl rfl rfl rfl rfl

theorem administers_updateSub {key : Str} {f : SubscriptionState → SubscriptionState}
    (hf : ∀ sub : SubscriptionState, sub.Administered (f sub)) :
    Administers discarded s (s.updateSub key f) where
  subs key' := by
    unfold updateSub
    rw [get_modify]
    split_ifs with hkey
    · subst hkey
      cases hget : s.subscriptions.get key' with
      | none => exact .inl ⟨rfl, .inl rfl⟩
      | some sub => exact .inr ⟨sub, f sub, rfl, rfl, hf sub⟩
    · exact same_subs rfl key'
  ackRng := .inl rfl
  nextAddress := le_rfl
  index h := h.of_eq rfl rfl

theorem administers_deleteTopic (s : PubSubState) {name : TopicName} :
    Administers discarded s (s.deleteTopic name).2 := by
  unfold deleteTopic
  dsimp only
  split_ifs
  · have hd : Administers discarded s { s with
        topics := s.topics.erase name.toFull
        topicSubs := s.topicSubs.erase name.toFull } := .of_eq rfl rfl rfl rfl rfl
    refine hd.trans ?_
    refine .foldl (fun s key _ => administers_updateSub fun sub => ?_) _
    exact ⟨rfl, rfl, rfl, rfl, rfl, rfl, rfl⟩
  · exact .refl s

theorem administers_markFunctionSubscription (s : PubSubState) {name : SubscriptionName} :
    Administers discarded s (s.markFunctionSubscription name).2 := by
  unfold markFunctionSubscription
  dsimp only
  split_ifs
  · exact .of_eq rfl rfl rfl rfl rfl
  · exact .refl s

theorem administers_deleteSubscription (s : PubSubState) {name : SubscriptionName} :
    Administers (fun key => key = name.toFull) s (s.deleteSubscription name).2 := by
  unfold deleteSubscription
  dsimp only
  split
  · exact .refl s
  · refine ⟨fun key => ?_, .inl rfl, le_rfl, fun h => h.of_eq rfl rfl⟩
    dsimp only
    rw [get_erase]
    split_ifs with hkey
    · exact .inl ⟨rfl, .inr hkey⟩
    · have hrefl : Administers (fun key => key = name.toFull) s s := .refl s
      exact hrefl.subs key

/-- An operation on a subscription is a change of it. -/
theorem onSub_snd {α : Type} {name : SubscriptionName}
    {f : SubscriptionState → Except PubSubError α × SubscriptionState} :
    (s.onSub name f).2 = s.updateSub name.toFull fun sub => (f sub).2 := by
  unfold onSub updateSub SortedMap.modify
  cases s.subscriptions.get name.toFull <;> rfl

theorem administered_replaceConfig {sub : SubscriptionState} {config : SubscriptionConfig}
    (hf : config.filter = sub.config.filter) (hname : config.name = sub.config.name)
    (ho : config.enableMessageOrdering = sub.config.enableMessageOrdering) :
    sub.Administered (sub.replaceConfig config) :=
  ⟨rfl, rfl, rfl, rfl, hf, hname, ho⟩

theorem administers_updateAckDeadline (s : PubSubState) {name : SubscriptionName} {seconds : ℕ} :
    Administers discarded s (s.updateAckDeadline name seconds).2 := by
  rw [updateAckDeadline, onSub_snd]
  refine administers_updateSub fun sub => ?_
  split_ifs
  · exact administered_replaceConfig rfl rfl rfl
  · exact .refl sub

theorem administers_updatePushConfig (s : PubSubState) {name : SubscriptionName}
    {pushEndpoint : Str} : Administers discarded s (s.updatePushConfig name pushEndpoint).2 := by
  rw [updatePushConfig, onSub_snd]
  exact administers_updateSub fun sub => administered_replaceConfig rfl rfl rfl

theorem administers_updateSubscriptionConfiguration (s : PubSubState) {name : SubscriptionName}
    {update : SubscriptionUpdate} {check : SubscriptionConfig → Except PubSubError Unit} :
    Administers discarded s (s.updateSubscriptionConfiguration name update check).2 := by
  rw [updateSubscriptionConfiguration, onSub_snd]
  refine administers_updateSub fun sub => ?_
  dsimp only
  split
  · exact .refl sub
  · exact administered_replaceConfig rfl rfl rfl

/-! ### Operations on snapshots -/

variable {requestedName : Str} {subscription : SubscriptionName}

/-- A snapshot that is created captures its subscription under a new name. -/
theorem snapshotAdmission_ok {labels : SortedMap Str Str} {bytes : ℕ} {counter : Option ℕ}
    (h : s.snapshotAdmission platform requestedName subscription labels now = .ok (snapshot, bytes, counter)) :
    ∃ sub incarnation name project lifetime, s.subscriptions.get subscription.toFull = some sub ∧
      s.snapshots.get name = none ∧
      s.additionalSnapshotBytes platform snapshot = .ok bytes ∧
      s.snapshotRetainedBytes + bytes ≤ maxSnapshotRetainedBytes ∧
      snapshot = capture sub name project incarnation labels now lifetime := by
  unfold snapshotAdmission at h
  split at h
  · cases h
  rename_i sub hsub
  dsimp only at h
  split at h
  · cases h
  rename_i entry _
  obtain ⟨⟨name, counter'⟩, -, h⟩ := bind_eq_ok.1 h
  obtain ⟨⟨project, _⟩, -, h⟩ := bind_eq_ok.1 h
  dsimp only at h
  rw [ite_throw_eq_ok, ite_throw_eq_ok, ite_throw_eq_ok] at h
  obtain ⟨-, he, -, h⟩ := h
  obtain ⟨lifetime, -, h⟩ := bind_eq_ok.1 h
  obtain ⟨bytes', hb, h⟩ := bind_eq_ok.1 h
  split at h
  · cases h
  rename_i total ht
  obtain ⟨hmax, h⟩ := ite_throw_eq_ok.1 h
  cases h
  refine ⟨sub, entry.incarnation, name, project, lifetime, hsub, ?_, hb, ?_, rfl⟩
  · simpa [SortedMap.contains] using he
  · rw [(checkedAdd_eq_some.1 ht).2]
    exact not_lt.1 hmax

theorem administers_createSnapshot (labels : SortedMap Str Str) :
    Administers discarded s (s.createSnapshot platform requestedName subscription labels now).2 := by
  unfold createSnapshot
  dsimp only
  refine (pruned_removeExpiredSnapshots platform s now).administers.trans ?_
  obtain ⟨s₀, hs₀⟩ : ∃ s₀, s.removeExpiredSnapshots platform now = s₀ := ⟨_, rfl⟩
  rw [hs₀]
  split
  · exact .refl s₀
  · rename_i snapshot bytes counter ha
    obtain ⟨sub, _, name, project, lifetime, -, hnew, -, -, rfl⟩ := snapshotAdmission_ok platform ha
    exact ⟨same_subs rfl, .inl rfl, le_rfl, fun h => h.insert hnew rfl rfl⟩

theorem pruned_getSnapshot (s : PubSubState) (name : Str) (now : LogicalInstant) :
    s.Pruned (s.getSnapshot platform name now).2 := by
  unfold getSnapshot
  split
  · exact .refl s
  · dsimp only
    split <;> exact pruned_removeExpiredSnapshots platform s now

/-- A snapshot that is found is stored under its name. -/
theorem getSnapshot_ok (h : s.getSnapshot platform name now = (.ok snapshot, s')) :
    s'.snapshots.get name = some snapshot := by
  unfold getSnapshot at h
  split at h
  · cases h
  · dsimp only at h
    split at h
    · cases h
    · rename_i hget
      cases h
      exact hget

theorem administers_updateSnapshot (labels : SortedMap Str Str) :
    Administers discarded s (s.updateSnapshot platform name labels now).2 := by
  have hget := pruned_getSnapshot platform s name now
  unfold updateSnapshot
  split
  · rename_i heq
    rw [heq] at hget
    exact hget.administers
  · rename_i snapshot s₀ heq
    rw [heq] at hget
    refine hget.administers.trans ?_
    dsimp only
    split
    · exact .refl s₀
    split_ifs
    · exact .refl s₀
    refine ⟨same_subs rfl, .inl rfl, le_rfl, fun h => h.of_topics (fun key updated hkey => ?_)
      (fun name' => ?_) rfl⟩ <;> dsimp only at *
    · rw [get_insert] at hkey
      split_ifs at hkey with hname
      · cases hkey
        rw [hname]
        exact h.name name snapshot (getSnapshot_ok platform heq)
      · exact h.name key updated hkey
    · rw [get_insert]
      split_ifs with hname
      · rw [hname, getSnapshot_ok platform heq]
        rfl
      · rfl

theorem pruned_deleteSnapshot : s.Pruned (s.deleteSnapshot platform name now).2 := by
  have hget := pruned_getSnapshot platform s name now
  unfold deleteSnapshot
  split
  · rename_i heq
    rwa [heq] at hget
  · rename_i heq
    rw [heq] at hget
    exact hget.trans (pruned_removeSnapshot platform _ name)

/-! ### Projects -/

theorem administers_clear (s : PubSubState) : Administers (fun _ => True) s s.clear where
  subs _ := .inl ⟨rfl, .inr trivial⟩
  ackRng := .inr fun _ => trivial
  nextAddress := le_rfl
  index _ := (snapshotIndex_new s.seed).of_eq rfl rfl

/-- A subscription of a project. -/
def InProject (accepted : Str → Prop) (key : Str) : Prop :=
  ∃ name : SubscriptionName, name.toFull = key ∧ accepted name.project

theorem administers_clearProject {project : Str} :
    Administers (InProject (· = project)) s (s.clearProject platform project) := by
  unfold clearProject
  dsimp only
  refine Administers.trans ?_ (Pruned.foldl (pruned_removeSnapshot platform) _ _).administers
  refine Administers.trans ?_ (.foldl (fun s name _ => administers_deleteTopic s) _)
  refine .foldl (fun s name hname => ?_) s
  refine (administers_deleteSubscription s).mono fun key hkey => ⟨name, hkey.symm, ?_⟩
  simpa using (mem_filter.1 hname).2

theorem administers_clearProjectsWhere {accepted : Str → Bool} :
    Administers (InProject (accepted · = true)) s (s.clearProjectsWhere platform accepted) := by
  unfold clearProjectsWhere
  dsimp only
  refine .foldl (fun s project hp => ?_) s
  refine (administers_clearProject platform).mono fun key ⟨name, hkey, hname⟩ => ?_
  exact ⟨name, hkey, hname ▸ (mem_filter.1 hp).2⟩

/-! ### Preparation -/

/-- Messages get consecutive allocations and keep their content. -/
theorem number_ok {address : ℕ} {counter next : ℕ} {published : List StoredMessage}
    (h : number now address messages counter = .ok (published, next)) :
    published.map StoredMessage.address = List.range' address messages.length ∧
      published.map StoredMessage.message = messages.map Prod.fst := by
  induction messages generalizing address counter next published with
  | nil =>
    cases h
    exact ⟨rfl, rfl⟩
  | cons message messages ih =>
    obtain ⟨message, messageId⟩ := message
    cases messageId with
    | some =>
      obtain ⟨⟨rest, next'⟩, hrest, h⟩ := bind_eq_ok.1 h
      cases h
      rw [map_cons, map_cons, (ih hrest).1, (ih hrest).2]
      exact ⟨rfl, rfl⟩
    | none =>
      obtain ⟨-, h⟩ := ite_throw_eq_ok.1 h
      obtain ⟨⟨rest, next'⟩, hrest, h⟩ := bind_eq_ok.1 h
      cases h
      rw [map_cons, map_cons, (ih hrest).1, (ih hrest).2]
      exact ⟨rfl, rfl⟩

/-- A preparation prunes snapshots and allocates the messages. -/
theorem administers_preparePublishNumbered (s : PubSubState) (topic : TopicName)
    (messages : List (PubsubMessage × Option Str)) (now : LogicalInstant) :
    Administers discarded s (s.preparePublishNumbered platform topic messages now).2 := by
  have hp : Administers discarded s _ :=
    (pruned_removeExpiredSnapshots platform s now).administers
  unfold preparePublishNumbered
  dsimp only
  split
  · exact .refl s
  split_ifs
  · exact .refl s
  split
  · exact .refl s
  split
  · exact hp
  · split
    all_goals
      exact hp.trans ⟨same_subs rfl, .inl rfl, Nat.le_add_right _ _, fun h => h.of_eq rfl rfl⟩

/-- The allocations of a prepared publication. -/
def Allocates (s s' : PubSubState) (prepared : PreparedPublication) : Prop :=
  prepared.published.map StoredMessage.address = List.range' s.nextAddress prepared.published.length ∧
    s.nextAddress + prepared.published.length ≤ s'.nextAddress

/-- A prepared publication allocates the messages and carries them to the topic. -/
theorem preparePublishNumbered_ok
    (h : s.preparePublishNumbered platform topic messages now = (.ok prepared, s')) :
    s.Allocates s' prepared ∧ prepared.topicKey = topic.toFull ∧
      prepared.published.map StoredMessage.message = messages.map Prod.fst := by
  obtain ⟨_, _, _, _, heq⟩ := (pruned_removeExpiredSnapshots platform s now).frame
  unfold preparePublishNumbered at h
  rw [heq] at h
  dsimp only at h
  split at h
  · cases h
  split_ifs at h
  · cases h
  split at h
  · cases h
  split at h
  · cases h
  rename_i published next hn
  split at h
  · cases h
  cases h
  obtain ⟨ha, hm⟩ := number_ok hn
  have hl : published.length = messages.length := by
    rw [← published.length_map StoredMessage.address, ha, length_range']
  exact ⟨⟨hl ▸ ha, by rw [hl]⟩, rfl, hm⟩

theorem administers_preparePublishWithMessageIds {messages : List (PubsubMessage × Str)} :
    Administers discarded s (s.preparePublishWithMessageIds platform topic messages now).2 := by
  unfold preparePublishWithMessageIds
  split_ifs
  · exact administers_preparePublishNumbered platform s topic _ now
  · exact .refl s

theorem preparePublishWithMessageIds_allocates {messages : List (PubsubMessage × Str)}
    (h : s.preparePublishWithMessageIds platform topic messages now = (.ok prepared, s')) :
    s.Allocates s' prepared := by
  unfold preparePublishWithMessageIds at h
  split_ifs at h
  · exact (preparePublishNumbered_ok platform h).1
  · cases h

end PubSubState

end Fireemu.PubSub
