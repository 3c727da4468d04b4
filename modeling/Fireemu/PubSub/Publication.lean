import Fireemu.PubSub.Registry

/-!
# Committing a publication

A commit that passes its checks appends to every attached subscription the messages its filter
admits, extends every snapshot of the topic, and cannot fail any more: the check of a whole batch
promises room for each of its messages, and the snapshots of a topic exist.
-/

namespace Fireemu.PubSub

open Library (SortedMap SortedSet bind_eq_ok forM_eq_ok)
open List Option Library.SortedMap SubscriptionState

namespace PubSubState

variable {s s' : PubSubState}

/-! ### Delivery -/

variable {now publishTime : LogicalInstant} {topicKey : Str}

/-- Appending what a filter admits is appending each of the admitted messages. -/
theorem enqueueAll_eq {published : List StoredMessage} (sub : SubscriptionState) :
    enqueueAll publishTime published sub =
      SubscriptionState.enqueueEach publishTime (published.filter sub.admits) sub := by
  induction published generalizing sub with
  | nil => rfl
  | cons stored published ih =>
    rw [enqueueAll, foldlM_cons]
    by_cases ha : sub.admits stored = true
    · rw [filter_cons_of_pos ha, if_pos ha]
      cases he : sub.enqueue stored publishTime with
      | mk result sub' =>
        cases result with
        | error =>
          rw [enqueueEach_cons_of_error he]
          rfl
        | ok =>
          have hc : sub'.config = sub.config := by
            rw [← sub.enqueue_config, he]
          have hsame : sub'.admits = sub.admits := by
            funext m
            rw [SubscriptionState.admits, hc, SubscriptionState.admits]
          rw [enqueueEach_cons_of_ok he, ← hsame, ← ih]
          rfl
    · rw [filter_cons_of_neg ha, if_neg ha, ← ih]
      rfl

/-- Whether a publication to some subscriptions reaches a subscription. -/
def Reaches (s : PubSubState) (keys : List Str) (key : Str) : Prop :=
  key ∈ keys ∧ key ∉ s.functionSubscriptions

instance (s : PubSubState) (keys : List Str) (key : Str) : Decidable (s.Reaches keys key) :=
  inferInstanceAs (Decidable (_ ∧ _))

variable {published : List StoredMessage} {prepared : PreparedPublication}

/-- Delivery changes each subscription it reaches once, and nothing else. -/
theorem foldlM_deliverTo {keys : List Str} (hn : keys.Nodup)
    (hroom : ∀ key, s.Reaches keys key → ∀ sub, s.subscriptions.get key = some sub →
      (enqueueAll publishTime published sub).isSome = true) :
    ∃ subscriptions, keys.foldlM (deliverTo publishTime published) s = some { s with subscriptions } ∧
      ∀ key, subscriptions.get key = if s.Reaches keys key then
          (s.subscriptions.get key).bind (enqueueAll publishTime published)
        else s.subscriptions.get key := by
  induction keys generalizing s with
  | nil => exact ⟨s.subscriptions, rfl, fun key => by simp [Reaches]⟩
  | cons key keys ih =>
    obtain ⟨hnot, hn⟩ := nodup_cons.1 hn
    -- the first subscription, which the rest does not reach
    obtain ⟨subscriptions, hf, hget⟩ : ∃ subscriptions,
        deliverTo publishTime published s key = some { s with subscriptions } ∧
        ∀ key', subscriptions.get key' = if key' = key ∧ key ∉ s.functionSubscriptions then
            (s.subscriptions.get key).bind (enqueueAll publishTime published)
          else s.subscriptions.get key' := by
      unfold deliverTo
      by_cases hfun : key ∈ s.functionSubscriptions
      · rw [if_pos hfun]
        exact ⟨s.subscriptions, rfl, fun key' => by simp [hfun]⟩
      rw [if_neg hfun]
      cases hsub : s.subscriptions.get key with
      | none =>
        refine ⟨s.subscriptions, rfl, fun key' => ?_⟩
        by_cases hkey : key' = key
        · simp [hkey, hsub]
        · simp [hkey]
      | some sub =>
        obtain ⟨sub', hsub'⟩ := isSome_iff_exists.1
          (hroom key ⟨mem_cons_self, hfun⟩ sub hsub)
        dsimp only
        rw [hsub']
        refine ⟨s.subscriptions.insert key sub', rfl, fun key' => ?_⟩
        rw [get_insert]
        by_cases hkey : key' = key
        · simp [hkey, hfun, hsub']
        · simp [hkey]
    have hkeep : ∀ key', key' ∈ keys → subscriptions.get key' = s.subscriptions.get key' := by
      intro key' hmem
      rw [hget, if_neg]
      rintro ⟨rfl, -⟩
      exact hnot hmem
    obtain ⟨subscriptions', hrest, hget'⟩ := ih (s := { s with subscriptions }) hn
      fun key' hreach sub hsub => hroom key' ⟨mem_cons_of_mem _ hreach.1, hreach.2⟩ sub
        ((hkeep key' hreach.1).symm.trans hsub)
    refine ⟨subscriptions', ?_, fun key' => ?_⟩
    · rw [foldlM_cons, hf]
      exact hrest
    · rw [hget']
      by_cases hmem : key' ∈ keys
      · simp only [Reaches, hmem, hkeep key' hmem, mem_cons, or_true]
      · rw [if_neg fun h => hmem h.1]
        refine (hget key').trans ?_
        by_cases hkey : key' = key
        · subst hkey
          simp [Reaches]
        · simp [Reaches, hkey, hmem]

/-- Extending snapshots that exist. -/
theorem foldlM_extendSnapshot (published : List StoredMessage) {names : List Str}
    (hn : names.Nodup) (hmem : ∀ name ∈ names, (s.snapshots.get name).isSome = true) :
    ∃ snapshots, names.foldlM (extendSnapshot published) s = some { s with snapshots } ∧
      ∀ name, snapshots.get name = if name ∈ names then
          (s.snapshots.get name).map fun snapshot => extendedSnapshot snapshot published
        else s.snapshots.get name := by
  induction names generalizing s with
  | nil => exact ⟨s.snapshots, rfl, fun name => by simp⟩
  | cons name names ih =>
    obtain ⟨hnot, hn⟩ := nodup_cons.1 hn
    obtain ⟨snapshot, hs⟩ := isSome_iff_exists.1 (hmem name mem_cons_self)
    have hf : extendSnapshot published s name = some { s with
        snapshots := s.snapshots.insert name (extendedSnapshot snapshot published) } := by
      rw [extendSnapshot, hs]
      rfl
    have hkeep : ∀ name' ∈ names, SortedMap.get
        (s.snapshots.insert name (extendedSnapshot snapshot published)) name' = s.snapshots.get name' := by
      intro name' hmem'
      exact get_insert_of_ne _ _ fun h => hnot (h ▸ hmem')
    obtain ⟨snapshots, hrest, hget⟩ := ih (s := { s with
      snapshots := s.snapshots.insert name (extendedSnapshot snapshot published) }) hn
      fun name' hmem' => by
        change ((SortedMap.insert _ _ _).get _).isSome = true
        rw [hkeep name' hmem']
        exact hmem name' (mem_cons_of_mem _ hmem')
    refine ⟨snapshots, ?_, fun name' => ?_⟩
    · rw [foldlM_cons, hf]
      exact hrest
    · rw [hget]
      by_cases hmem' : name' ∈ names
      · simp [hmem', hkeep name' hmem']
      · by_cases hname : name' = name
        · subst hname
          simp [hmem', hs]
        · simp [hmem', hname, get_insert_of_ne _ _ hname]

/-! ### Checks -/

variable {platform : Platform}

theorem topicSubscriptions_nodup (s : PubSubState) : (s.topicSubscriptions topicKey).Nodup := by
  unfold topicSubscriptions
  cases s.topicSubs.get topicKey with
  | none => exact nodup_nil
  | some attached => exact keys_nodup attached

variable {topicIncarnation : ℕ}

theorem snapshotsOf_nodup (s : PubSubState) : (s.snapshotsOf topicKey topicIncarnation).Nodup :=
  keys_nodup _

theorem publishAdmission_ok {admission : List Str × List Str × ℕ}
    (h : s.publishAdmission platform topicKey topicIncarnation published = .ok admission) :
    admission.1 = s.topicSubscriptions topicKey ∧ admission.2.1 = s.snapshotsOf topicKey topicIncarnation ∧
      s.snapshotPublishBytes platform (s.snapshotsOf topicKey topicIncarnation) published =
        .ok admission.2.2 ∧
      ∀ key ∈ s.topicSubscriptions topicKey, s.subscriptionAdmission published key = .ok () := by
  unfold publishAdmission snapshotPublishAdmission at h
  obtain ⟨⟨⟩, hsubs, h⟩ := bind_eq_ok.1 h
  obtain ⟨_, hnames, h⟩ := bind_eq_ok.1 h
  obtain ⟨total, ht, hnames⟩ := bind_eq_ok.1 hnames
  cases hnames
  cases h
  exact ⟨rfl, rfl, ht, forM_eq_ok.1 hsubs⟩

/-- A commit that passes its checks finds the publication as it was prepared. -/
theorem commitAdmission_ok (h : s.commitAdmission platform prepared = .ok ()) :
    prepared.subscriptionKeys = s.topicSubscriptions prepared.topicKey ∧
      prepared.snapshotNames = s.snapshotsOf prepared.topicKey prepared.topicIncarnation ∧
      (∀ key ∈ s.topicSubscriptions prepared.topicKey,
        s.subscriptionAdmission prepared.published key = .ok ()) ∧
      s.snapshotPublishBytes platform prepared.snapshotNames prepared.published =
        .ok prepared.snapshotTotalBytes ∧ s.messageCounter = prepared.initialMessageCounter ∧
      ∃ entry, s.topics.get prepared.topicKey = some entry ∧
        entry.incarnation = prepared.topicIncarnation := by
  unfold commitAdmission at h
  split at h
  · cases h
  · rename_i entry hentry
    dsimp only at h
    split_ifs at h with hc
    · cases h
    · obtain ⟨admission, ha, h⟩ := bind_eq_ok.1 h
      split_ifs at h with hsame
      obtain ⟨hkeys, hnames, hb, hall⟩ := publishAdmission_ok ha
      rw [not_or, not_not, not_not] at hc
      rw [not_not] at hsame
      rw [hsame] at hkeys hnames hb
      rw [← hnames] at hb
      exact ⟨hkeys, hnames, hall, hb, hc.2, entry, hentry, hc.1⟩

/-! ### Commits -/

/-- What a commit leaves of the broker: the subscriptions it reaches have the messages their filters
admit, and the snapshots of the topic hold the publication. -/
structure Committed (s s' : PubSubState) (prepared : PreparedPublication)
    (now : LogicalInstant) : Prop where
  reached : ∀ key, s.Reaches (s.topicSubscriptions prepared.topicKey) key → ∀ sub,
    s.subscriptions.get key = some sub → ∃ sub', s'.subscriptions.get key = some sub' ∧
      SubscriptionState.enqueueEach (prepared.publishTime now)
        (prepared.published.filter sub.admits) sub = some sub'
  other : ∀ key, ¬ s.Reaches (s.topicSubscriptions prepared.topicKey) key ∨
    s.subscriptions.get key = none →
      s'.subscriptions.get key = s.subscriptions.get key
  snapshots : ∀ name, s'.snapshots.get name =
    if name ∈ s.snapshotsOf prepared.topicKey prepared.topicIncarnation then
      (s.snapshots.get name).map fun snapshot =>
        extendedSnapshot snapshot prepared.published
    else s.snapshots.get name
  rest : ∃ subscriptions snapshots snapshotMessageRefs, s' = { s with
    subscriptions, snapshots, snapshotMessageRefs
    snapshotRetainedBytes := prepared.snapshotTotalBytes
    messageCounter := prepared.nextMessageCounter }

theorem Committed.index (h : s.Committed s' prepared now) (hi : s.SnapshotIndex) : s'.SnapshotIndex := by
  refine hi.of_topics (fun key snapshot hs => ?_) (fun name => ?_) ?_
  · rw [h.snapshots] at hs
    split_ifs at hs
    · obtain ⟨snapshot', hget, rfl⟩ := map_eq_some_iff.1 hs
      exact hi.name key snapshot' hget
    · exact hi.name key snapshot hs
  · rw [h.snapshots]
    split_ifs
    · rw [Option.map_map]
      rfl
    · rfl
  · obtain ⟨_, _, _, rfl⟩ := h.rest
    rfl

/-- A commit that passes its checks does not panic. -/
theorem committed_of_admission (ha : ∀ key sub, s.subscriptions.get key = some sub → sub.Accounted)
    (hi : s.SnapshotIndex) (h : s.commitAdmission platform prepared = .ok ()) :
    ∃ s', s.commitPrepared platform prepared now = some (.ok prepared.published, s') ∧
      s.Committed s' prepared now := by
  obtain ⟨hkeys, hnames, hall, -, -⟩ := commitAdmission_ok h
  have hroom : ∀ key, s.Reaches (s.topicSubscriptions prepared.topicKey) key → ∀ sub,
      s.subscriptions.get key = some sub →
      (enqueueAll (prepared.publishTime now) prepared.published sub).isSome = true := by
    intro key hreach sub hsub
    have := hall key hreach.1
    rw [subscriptionAdmission, if_neg hreach.2, hsub] at this
    rw [enqueueAll_eq, ← (ha key sub hsub).ensureEnqueueCapacity_iff_enqueueEach]
    exact this
  obtain ⟨subscriptions, hd, hget⟩ :=
    foldlM_deliverTo (s.topicSubscriptions_nodup) hroom
  obtain ⟨snapshots, he, hs⟩ := foldlM_extendSnapshot (s := { s with subscriptions })
    prepared.published (s.snapshotsOf_nodup)
    fun name hname => hi.isSome_of_mem hname
  obtain ⟨refs, hretain⟩ : ∃ refs, retainSnapshotPublication { s with subscriptions }
      (s.snapshotsOf prepared.topicKey prepared.topicIncarnation) prepared.published =
        some { s with subscriptions, snapshots, snapshotMessageRefs := refs } := by
    unfold retainSnapshotPublication
    rw [he]
    dsimp only [bind_eq_bind, bind_some, Option.pure_def]
    split_ifs
    · exact ⟨s.snapshotMessageRefs, rfl⟩
    · exact ⟨_, rfl⟩
  refine ⟨{ s with
    subscriptions, snapshots, snapshotMessageRefs := refs
    snapshotRetainedBytes := prepared.snapshotTotalBytes
    messageCounter := prepared.nextMessageCounter }, ?_, ?_⟩
  · unfold commitPrepared publishPrepared
    rw [h, hkeys, hd, hnames]
    dsimp only [bind_eq_bind, bind_some]
    rw [hretain]
    rfl
  · refine ⟨fun key hreach sub hsub => ?_, fun key ho => ?_, hs, _, _, _, rfl⟩
    · obtain ⟨sub', hsub'⟩ := isSome_iff_exists.1 (hroom key hreach sub hsub)
      refine ⟨sub', ?_, ?_⟩
      · change subscriptions.get key = _
        rw [hget, if_pos hreach, hsub]
        exact hsub'
      · rw [← enqueueAll_eq]
        exact hsub'
    · change subscriptions.get key = _
      rw [hget]
      split_ifs with hreach
      · rw [ho.resolve_left (not_not_intro hreach)]
        rfl
      · rfl

/-- A commit either fails and changes nothing, or leaves what its publication asks for. -/
theorem commitPrepared_cases (platform : Platform) (prepared : PreparedPublication) (now : LogicalInstant)
    (ha : ∀ key sub, s.subscriptions.get key = some sub → sub.Accounted) (hi : s.SnapshotIndex) :
    (∃ e, s.commitAdmission platform prepared = .error e ∧
        s.commitPrepared platform prepared now = some (.error e, s)) ∨
      s.commitAdmission platform prepared = .ok () ∧
        ∃ s', s.commitPrepared platform prepared now = some (.ok prepared.published, s') ∧
          s.Committed s' prepared now := by
  cases h : s.commitAdmission platform prepared with
  | error e =>
    refine .inl ⟨e, rfl, ?_⟩
    rw [commitPrepared, h]
  | ok => exact .inr ⟨rfl, committed_of_admission ha hi h⟩

end PubSubState

end Fireemu.PubSub
