import Fireemu.Library.RefCount
import Fireemu.PubSub.BrokerRun

/-!
# The byte accounting of snapshots

Snapshots are charged for what they own, and a message they share is charged once.  The charge is
made by one formula when a snapshot is created, by another one when a publication extends the
snapshots of its topic, and released by a third one.  `Accounts` says what all three keep: the
references of a message are counted by the snapshots that hold it, and the bytes are the charges of
the snapshots and of the messages that have references.

This takes that messages with one identifier are one message, which a function from identifiers to
messages says.
-/

namespace Fireemu.PubSub

open Library (GroupedIndex RefCounts SortedMap SortedSet bind_eq_ok ite_throw_eq_ok)
open List Library.SortedMap Library.RefCounts

/-- The identifiers of the messages a snapshot holds. -/
def Snapshot.ids (snapshot : Snapshot) : List Str :=
  snapshot.capturedMessages.map StoredMessage.messageId

/-- A snapshot holds no message twice, and every message is the one of its identifier. -/
def Snapshot.Catalogued (message : Str → StoredMessage) (snapshot : Snapshot) : Prop :=
  snapshot.ids.Nodup ∧ ∀ m ∈ snapshot.capturedMessages, message m.messageId = m

namespace PubSubState

variable {platform : Platform} {s s' : PubSubState} {message : Str → StoredMessage} {snapshot : Snapshot}
  {published messages : List StoredMessage}

/-! ### Charges -/

theorem foldl_saturatingAdd_cons (a b : ℕ) {l : List ℕ} :
    (b :: l).foldl saturatingAdd a = min (a + b + l.sum) u64Max := by
  induction l generalizing a b with
  | nil => rfl
  | cons c l ih =>
    rw [foldl_cons, ih, saturatingAdd, sum_cons]
    omega

/-- The charge of a snapshot for its references. -/
def referenceBytes (platform : Platform) (snapshot : Snapshot) : ℕ :=
  (snapshot.capturedMessages.map fun message =>
    snapshotReferenceBytes platform message.messageId
      (decide (message.messageId ∈ snapshot.unacknowledgedMessageIds))).sum

/-- The charge of every snapshot for a publication it is extended by. -/
def publicationBytes (platform : Platform) (published : List StoredMessage) : ℕ :=
  (published.map fun stored => snapshotReferenceBytes platform stored.messageId true).sum

theorem referenceBytes_extendedSnapshot (platform : Platform)
    (hf : ∀ m ∈ published, m.messageId ∉ snapshot.ids) :
    referenceBytes platform (extendedSnapshot snapshot published) =
      referenceBytes platform snapshot + publicationBytes platform published := by
  unfold referenceBytes publicationBytes extendedSnapshot
  rw [map_append, sum_append]
  congr 2
  · refine map_congr_left fun m hm => ?_
    -- a message that was there keeps its acknowledgement state
    have hmem : m.messageId ∉ published.map StoredMessage.messageId := by
      rintro h
      obtain ⟨m', hm', heq⟩ := mem_map.1 h
      exact hf m' hm' (heq ▸ mem_map_of_mem hm)
    simp only [SortedSet.mem_foldl_add, hmem, false_or]
  · refine map_congr_left fun m hm => ?_
    simp only [SortedSet.mem_foldl_add, mem_map_of_mem hm, true_or, decide_true]

/-- Extending a snapshot adds the charge of the publication, as long as nothing saturates. -/
theorem snapshotOwnedBytes_extendedSnapshot (hf : ∀ m ∈ published, m.messageId ∉ snapshot.ids)
    (hmax : snapshotOwnedBytes platform snapshot + publicationBytes platform published < u64Max) :
    snapshotOwnedBytes platform (extendedSnapshot snapshot published) =
      snapshotOwnedBytes platform snapshot + publicationBytes platform published := by
  have hreference := referenceBytes_extendedSnapshot platform hf
  unfold referenceBytes at hreference
  unfold snapshotOwnedBytes at hmax ⊢
  dsimp only at hmax ⊢
  rw [foldl_saturatingAdd_cons] at hmax ⊢
  rw [foldl_saturatingAdd_cons, hreference]
  simp only [sum_cons, sum_nil, extendedSnapshot] at hmax ⊢
  omega

theorem snapshotOwnedBytes_pos (platform : Platform) (snapshot : Snapshot) :
    1 ≤ snapshotOwnedBytes platform snapshot := by
  unfold snapshotOwnedBytes
  rw [foldl_saturatingAdd_cons]
  have : 1 ≤ u64Max := by decide
  omega

variable {n total total' : ℕ} {prepared : PreparedPublication} {now : LogicalInstant}

/-- The messages that no snapshot holds yet are charged. -/
theorem newSharedBytes_eq_ok (h : s.newSharedBytes platform messages total = .ok total') :
    total' = total + ((messages.filter fun m =>
      !s.snapshotMessageRefs.contains m.messageId).map
        (snapshotSharedMessageBytes platform)).sum := by
  unfold newSharedBytes at h
  induction messages generalizing total with
  | nil =>
    cases h
    rfl
  | cons m messages ih =>
    rw [foldlM_cons, bind_eq_ok] at h
    obtain ⟨total₁, h₁, h⟩ := h
    have := ih h
    rw [filter_cons]
    split_ifs at h₁ with hc
    · cases h₁
      simpa [hc] using this
    · split at h₁
      · cases h₁
      · rename_i hadd
        cases h₁
        rw [(checkedAdd_eq_some.1 hadd).2.symm] at this
        simp [hc, this]
        omega

theorem foldlM_checkedAdd {α : Type} {f : α → ℕ} {e : PubSubError} {l : List α}
    (h : l.foldlM (fun total a => match checkedAdd total (f a) with
      | none => Except.error e
      | some total => .ok total) total = .ok total') : total' = total + (l.map f).sum := by
  induction l generalizing total with
  | nil =>
    cases h
    rfl
  | cons a l ih =>
    rw [foldlM_cons, bind_eq_ok] at h
    obtain ⟨total₁, h₁, h⟩ := h
    split at h₁
    · cases h₁
    · rename_i hadd
      cases h₁
      rw [ih h, ← (checkedAdd_eq_some.1 hadd).2, map_cons, sum_cons, Nat.add_assoc]

/-- What a publication is charged: the references of every snapshot it extends, and its new
messages once. -/
theorem snapshotPublishBytes_eq_ok {names : List Str}
    (h : s.snapshotPublishBytes platform names published = .ok total) :
    total ≤ maxSnapshotRetainedBytes ∧
      total = s.snapshotRetainedBytes + publicationBytes platform published * names.length +
        if names.isEmpty then 0 else ((published.filter fun m =>
          !s.snapshotMessageRefs.contains m.messageId).map
            (snapshotSharedMessageBytes platform)).sum := by
  unfold snapshotPublishBytes at h
  obtain ⟨per, hper, h⟩ := bind_eq_ok.1 h
  have hp := foldlM_checkedAdd hper
  rw [Nat.zero_add] at hp
  subst hp
  obtain ⟨-, h⟩ := ite_throw_eq_ok.1 h
  dsimp only at h
  split_ifs at h with he
  all_goals
    obtain ⟨shared, hs, h⟩ := bind_eq_ok.1 h
    split at h
    · cases h
    rename_i total' ht
    obtain ⟨hmax, h⟩ := ite_throw_eq_ok.1 h
    cases h
    obtain ⟨reference, hreference, hsum⟩ := Option.bind_eq_some_iff.1 ht
    have hreference := (checkedAdd_eq_some.1 hreference).2
    have hsum := (checkedAdd_eq_some.1 hsum).2
    refine ⟨not_lt.1 hmax, ?_⟩
    unfold publicationBytes
  · cases hs
    rw [if_pos he]
    omega
  · rw [if_neg he]
    have := newSharedBytes_eq_ok hs
    omega

/-! ### The accounts -/

/-- How many snapshots hold a message. -/
def holders (s : PubSubState) (id : Str) : ℕ :=
  SortedMap.sum s.snapshots fun _ snapshot => if id ∈ snapshot.ids then 1 else 0

/-- The charges of the snapshots. -/
def ownedBytes (platform : Platform) (s : PubSubState) : ℕ :=
  SortedMap.sum s.snapshots fun _ snapshot => snapshotOwnedBytes platform snapshot

/-- The charge of the message of an identifier. -/
def sharedBytes (platform : Platform) (message : Str → StoredMessage) (id : Str) : ℕ :=
  snapshotSharedMessageBytes platform (message id)

/-- References are counted, and the bytes are the charges of snapshots and messages. -/
structure Accounts (platform : Platform) (message : Str → StoredMessage) (s : PubSubState) : Prop where
  refs : RefCounts.Exact s.snapshotMessageRefs s.holders
  bytes : s.snapshotRetainedBytes =
    s.ownedBytes platform + RefCounts.weight (sharedBytes platform message) s.snapshotMessageRefs
  le : s.snapshotRetainedBytes ≤ maxSnapshotRetainedBytes

/-- All snapshots are catalogued. -/
def Catalogued (message : Str → StoredMessage) (s : PubSubState) : Prop :=
  ∀ name snapshot, s.snapshots.get name = some snapshot → snapshot.Catalogued message

theorem Accounts.of_eq (h : Accounts platform message s) (hs : s'.snapshots = s.snapshots)
    (hrefs : s'.snapshotMessageRefs = s.snapshotMessageRefs)
    (hb : s'.snapshotRetainedBytes = s.snapshotRetainedBytes) : Accounts platform message s' := by
  refine ⟨?_, ?_, hb ▸ h.le⟩
  · rw [hrefs]
    refine h.refs.congr fun id => ?_
    rw [holders, hs, holders]
  · rw [hb, hrefs, h.bytes, ownedBytes, ← hs, ownedBytes]

theorem accounts_empty (hs : s.snapshots = SortedMap.empty) (hrefs : s.snapshotMessageRefs = SortedMap.empty)
    (hb : s.snapshotRetainedBytes = 0) : Accounts platform message s := by
  refine ⟨?_, ?_, by rw [hb]; exact Nat.zero_le _⟩
  · rw [hrefs]
    refine RefCounts.Exact.empty.congr fun id => ?_
    rw [holders, hs, sum_empty]
  · rw [hb, hrefs, ownedBytes, hs, sum_empty, weight_empty]

theorem Catalogued.pruned (h : Catalogued message s) (hp : s.Pruned s') :
    Catalogued message s' := fun name snapshot hget => h name snapshot (hp.get name snapshot hget)

theorem Accounts.ownedBytes_le (h : Accounts platform message s) :
    s.ownedBytes platform ≤ s.snapshotRetainedBytes := by
  rw [h.bytes]
  exact Nat.le_add_right _ _

/-- Every snapshot costs something, so that there are not too many of them to count. -/
theorem Accounts.holders_le (h : Accounts platform message s) (id : Str) :
    s.holders id ≤ maxSnapshotRetainedBytes := by
  refine le_trans (sum_le_sum fun name snapshot _ => ?_) (h.ownedBytes_le.trans h.le)
  have := snapshotOwnedBytes_pos platform snapshot
  split_ifs <;> omega

theorem Accounts.size_le (h : Accounts platform message s) :
    s.snapshots.sum (fun _ _ => 1) ≤ maxSnapshotRetainedBytes :=
  le_trans (sum_le_sum fun _ snapshot _ => snapshotOwnedBytes_pos platform snapshot)
    (h.ownedBytes_le.trans h.le)

theorem Accounts.snapshotOwnedBytes_le (h : Accounts platform message s) {name : Str}
    (hget : s.snapshots.get name = some snapshot) :
    snapshotOwnedBytes platform snapshot ≤ s.snapshotRetainedBytes := by
  have hsum := sum_erase s.snapshots
    (fun _ snapshot => snapshotOwnedBytes platform snapshot) name
  rw [term_of_get hget] at hsum
  have := h.ownedBytes_le
  unfold ownedBytes at this
  omega

/-! ### Removal -/

theorem releaseMessage_eq {m : StoredMessage} :
    s.releaseMessage platform m = { s with
      snapshotMessageRefs := RefCounts.release s.snapshotMessageRefs m.messageId
      snapshotRetainedBytes := s.snapshotRetainedBytes -
        if RefCounts.isLast s.snapshotMessageRefs m.messageId then
          snapshotSharedMessageBytes platform m else 0 } := by
  unfold releaseMessage RefCounts.release RefCounts.isLast
  cases s.snapshotMessageRefs.get m.messageId with
  | none => rfl
  | some refs =>
    by_cases hlast : refs - 1 = 0
    · simp [hlast]
    · simp [hlast]

/-- Releasing messages takes away the charge of those that have no reference left. -/
theorem foldl_releaseMessage {base : ℕ} (hm : ∀ m ∈ messages, message m.messageId = m)
    (hb : s.snapshotRetainedBytes =
      base + RefCounts.weight (sharedBytes platform message) s.snapshotMessageRefs) :
    ∃ refs, refs = (messages.map StoredMessage.messageId).foldl RefCounts.release
        s.snapshotMessageRefs ∧ messages.foldl (releaseMessage platform) s = { s with
        snapshotMessageRefs := refs
        snapshotRetainedBytes := base + RefCounts.weight (sharedBytes platform message) refs } := by
  induction messages generalizing s with
  | nil =>
    refine ⟨s.snapshotMessageRefs, rfl, ?_⟩
    rw [← hb]
    rfl
  | cons m messages ih =>
    have hw := weight_release (sharedBytes platform message) s.snapshotMessageRefs
      m.messageId
    have hs : sharedBytes platform message m.messageId = snapshotSharedMessageBytes platform m := by
      rw [sharedBytes, hm m mem_cons_self]
    obtain ⟨refs, hrefs, heq⟩ := ih (s := s.releaseMessage platform m)
      (fun m' hm' => hm m' (mem_cons_of_mem m hm')) (by
        rw [releaseMessage_eq]
        dsimp only
        rw [hb, hw, hs]
        omega)
    refine ⟨refs, ?_, ?_⟩
    · rw [hrefs, releaseMessage_eq, map_cons, foldl_cons]
    · rw [foldl_cons, heq, releaseMessage_eq]

theorem Accounts.removeSnapshot (h : Accounts platform message s) (hcat : Catalogued message s)
    (name : Str) : Accounts platform message (s.removeSnapshot platform name) := by
  unfold PubSubState.removeSnapshot
  cases hget : s.snapshots.get name with
  | none => exact h
  | some snapshot =>
    obtain ⟨hn, hm⟩ := hcat name snapshot hget
    have ho : s.ownedBytes platform = snapshotOwnedBytes platform snapshot + (s.snapshots.erase name).sum
          fun _ snapshot => snapshotOwnedBytes platform snapshot := by
      have hsum := sum_erase s.snapshots
        (fun _ snapshot => snapshotOwnedBytes platform snapshot) name
      rwa [term_of_get hget] at hsum
    have hb : s.snapshotRetainedBytes - snapshotOwnedBytes platform snapshot = ((s.snapshots.erase name).sum
          fun _ snapshot => snapshotOwnedBytes platform snapshot) +
          RefCounts.weight (sharedBytes platform message) s.snapshotMessageRefs := by
      rw [h.bytes, ho]
      omega
    obtain ⟨refs, hrefs, heq⟩ := foldl_releaseMessage (s := { s with
      snapshots := s.snapshots.erase name
      topicSnapshots := GroupedIndex.removeFrom s.topicSnapshots snapshot.topicKey name
      snapshotRetainedBytes := s.snapshotRetainedBytes - snapshotOwnedBytes platform snapshot })
      hm hb
    have he := h.refs.foldl_release hn
    dsimp only
    rw [heq]
    refine ⟨?_, rfl, ?_⟩
    · dsimp only
      rw [hrefs]
      refine he.congr fun id => ?_
      have hsum := sum_erase s.snapshots
        (fun _ snapshot => if id ∈ snapshot.ids then 1 else 0) name
      rw [term_of_get hget] at hsum
      unfold holders
      dsimp only
      rw [hsum]
      split_ifs <;> omega
    · dsimp only
      have := h.le
      have hw := weight_foldl_release_le (sharedBytes platform message)
        s.snapshotMessageRefs snapshot.ids
      rw [hrefs]
      rw [h.bytes, ho] at this
      change _ + RefCounts.weight _ (snapshot.ids.foldl _ s.snapshotMessageRefs) ≤ _
      omega

theorem Accounts.foldl_removeSnapshot (h : Accounts platform message s) (hcat : Catalogued message s)
    (names : List Str) : Accounts platform message (names.foldl (PubSubState.removeSnapshot platform) s) := by
  induction names generalizing s with
  | nil => exact h
  | cons name names ih =>
    exact ih (h.removeSnapshot hcat name) (hcat.pruned (pruned_removeSnapshot platform s name))

theorem Accounts.removeExpiredSnapshots (h : Accounts platform message s) (hcat : Catalogued message s)
    (now : LogicalInstant) : Accounts platform message (s.removeExpiredSnapshots platform now) :=
  h.foldl_removeSnapshot hcat _

theorem Accounts.getSnapshot (h : Accounts platform message s) (hcat : Catalogued message s) (name : Str)
    (now : LogicalInstant) : Accounts platform message (s.getSnapshot platform name now).2 := by
  unfold PubSubState.getSnapshot
  split
  · exact h
  · dsimp only
    split <;> exact h.removeExpiredSnapshots hcat now

/-! ### New references -/

/-- Counts are too small to saturate. -/
theorem foldl_addRefs (hn : n ≠ 0) {refs : SortedMap Str ℕ} {count : Str → ℕ}
    (hrefs : RefCounts.Exact refs count) (hc : ∀ m ∈ messages, count m.messageId + n ≤ u64Max)
    (hnd : (messages.map StoredMessage.messageId).Nodup) :
    messages.foldl (addRefs n) refs =
      (messages.map StoredMessage.messageId).foldl (RefCounts.acquire n) refs := by
  induction messages generalizing refs count with
  | nil => rfl
  | cons m messages ih =>
    obtain ⟨hm, hnd⟩ := nodup_cons.1 hnd
    have hone : addRefs n refs m = RefCounts.acquire n refs m.messageId := by
      have := hc m mem_cons_self
      rw [addRefs, hrefs.getD, RefCounts.acquire, hrefs.getD, saturatingAdd, min_eq_left this]
    rw [foldl_cons, hone, map_cons, foldl_cons]
    refine ih (hrefs.acquire hn m.messageId) (fun m' hm' => ?_) hnd
    have hne : m'.messageId ≠ m.messageId := fun heq => hm (heq ▸ mem_map_of_mem hm')
    rw [if_neg hne]
    exact hc m' (mem_cons_of_mem m hm')

/-- The weight that new references bring in is the charge of the messages that had none. -/
theorem weight_foldl_acquire_messages (hmsgs : ∀ m ∈ messages, message m.messageId = m)
    (hn : (messages.map StoredMessage.messageId).Nodup) (refs : SortedMap Str ℕ) :
    RefCounts.weight (sharedBytes platform message)
        ((messages.map StoredMessage.messageId).foldl (RefCounts.acquire n) refs) =
      RefCounts.weight (sharedBytes platform message) refs + ((messages.filter fun m =>
        !refs.contains m.messageId).map (snapshotSharedMessageBytes platform)).sum := by
  rw [weight_foldl_acquire _ hn, filter_map, map_map]
  congr 2
  refine map_congr_left fun m hm => ?_
  rw [Function.comp_apply, sharedBytes, hmsgs m (mem_filter.1 hm).1]

theorem Accounts.insert (h : Accounts platform message s) {bytes : ℕ}
    (hcat : snapshot.Catalogued message) (hnew : s.snapshots.get snapshot.name = none)
    (hb : s.additionalSnapshotBytes platform snapshot = .ok bytes)
    (hmax : s.snapshotRetainedBytes + bytes ≤ maxSnapshotRetainedBytes)
    (hs : s'.snapshots = s.snapshots.insert snapshot.name snapshot)
    (hrefs : s'.snapshotMessageRefs = snapshot.capturedMessages.foldl (addRefs 1) s.snapshotMessageRefs)
    (ht : s'.snapshotRetainedBytes = s.snapshotRetainedBytes + bytes) : Accounts platform message s' := by
  obtain ⟨hn, hm⟩ := hcat
  rw [foldl_addRefs one_ne_zero h.refs (fun m _ => by
    have := h.holders_le m.messageId
    have : maxSnapshotRetainedBytes + 1 ≤ u64Max := by decide
    omega) hn] at hrefs
  refine ⟨?_, ?_, ht ▸ hmax⟩
  · rw [hrefs]
    refine (h.refs.foldl_acquire one_ne_zero hn).congr fun id => ?_
    rw [holders, hs, sum_insert_of_get_none _ _ hnew]
    rw [holders]
    by_cases hid : id ∈ snapshot.ids
    · simp only [hid, if_true]
      omega
    · simp only [hid, if_false]
      omega
  · rw [ht, hrefs, weight_foldl_acquire_messages hm hn, ownedBytes, hs,
      sum_insert_of_get_none _ _ hnew, h.bytes, newSharedBytes_eq_ok hb, ownedBytes]
    omega

theorem Accounts.createSnapshot (h : Accounts platform message s) (hcat : Catalogued message s)
    (requestedName : Str) (subscription : SubscriptionName) (labels : SortedMap Str Str)
    (now : LogicalInstant) (hsub : ∀ sub, s.subscriptions.get subscription.toFull = some sub →
      (sub.retainedMessages.map StoredMessage.messageId).Nodup ∧
        ∀ m ∈ sub.retainedMessages, message m.messageId = m) :
    Accounts platform message (s.createSnapshot platform requestedName subscription labels now).2 := by
  have he := h.removeExpiredSnapshots hcat now
  unfold PubSubState.createSnapshot
  dsimp only
  split
  · exact he
  · rename_i snapshot bytes counter ha
    obtain ⟨sub, incarnation, name, project, lifetime, hget, hnew, hb, hmax, rfl⟩ :=
      snapshotAdmission_ok platform ha
    rw [(pruned_removeExpiredSnapshots platform s now).subscriptions] at hget
    have hc : (capture sub name project incarnation labels now lifetime).Catalogued message :=
      hsub sub hget
    exact he.insert hc hnew hb hmax rfl rfl rfl

/-! ### Changes of snapshots -/

theorem Accounts.updateSnapshot (h : Accounts platform message s) (hcat : Catalogued message s)
    (name : Str) (labels : SortedMap Str Str) (now : LogicalInstant) :
    Accounts platform message (s.updateSnapshot platform name labels now).2 := by
  have hget := h.getSnapshot hcat name now
  unfold PubSubState.updateSnapshot
  split
  · rename_i heq
    rwa [heq] at hget
  · rename_i snapshot s₀ heq
    rw [heq] at hget
    dsimp only at hget
    have hs := getSnapshot_ok platform heq
    dsimp only
    split
    · exact hget
    rename_i total ht
    split_ifs with hmax
    · exact hget
    have ht := (checkedAdd_eq_some.1 ht).2
    have hsum : ∀ f : Snapshot → ℕ, f snapshot + SortedMap.sum
        (s₀.snapshots.insert name { snapshot with labels }) (fun _ => f) =
          f { snapshot with labels } + s₀.snapshots.sum fun _ => f := by
      intro f
      have := sum_insert s₀.snapshots (fun _ => f) name { snapshot with labels }
      rwa [term_of_get hs] at this
    refine ⟨?_, ?_, not_lt.1 hmax⟩
    · refine hget.refs.congr fun id => ?_
      have := hsum fun snapshot => if id ∈ snapshot.ids then 1 else 0
      exact Nat.add_left_cancel this
    · have hb := hget.bytes
      have ho := hsum fun snapshot => snapshotOwnedBytes platform snapshot
      have hle := hget.snapshotOwnedBytes_le hs
      unfold ownedBytes at hb ⊢
      dsimp only
      omega

/-- What a commit that succeeds leaves of the references. -/
theorem commitPrepared_refs (h : s.commitPrepared platform prepared now = some (.ok published, s')) :
    s'.snapshotMessageRefs = if prepared.snapshotNames.isEmpty then s.snapshotMessageRefs
      else prepared.published.foldl (addRefs prepared.snapshotNames.length) s.snapshotMessageRefs := by
  have hd : ∀ {keys : List Str} {s s' : PubSubState}, keys.foldlM
      (deliverTo (prepared.publishTime now) prepared.published) s = some s' →
      s'.snapshotMessageRefs = s.snapshotMessageRefs := by
    intro keys
    induction keys with
    | nil =>
      rintro s s' ⟨⟩
      rfl
    | cons key keys ih =>
      intro s s' h
      obtain ⟨s₁, h₁, h⟩ := Option.bind_eq_some_iff.1 h
      rw [ih h]
      unfold deliverTo at h₁
      split_ifs at h₁
      · cases h₁
        rfl
      · split at h₁
        · cases h₁
          rfl
        · obtain ⟨sub, -, rfl⟩ := Option.map_eq_some_iff.1 h₁
          rfl
  have he : ∀ {names : List Str} {s s' : PubSubState}, names.foldlM
      (extendSnapshot prepared.published) s = some s' → s'.snapshotMessageRefs = s.snapshotMessageRefs := by
    intro names
    induction names with
    | nil =>
      rintro s s' ⟨⟩
      rfl
    | cons name names ih =>
      intro s s' h
      obtain ⟨s₁, h₁, h⟩ := Option.bind_eq_some_iff.1 h
      rw [ih h]
      obtain ⟨snapshot, -, rfl⟩ := Option.map_eq_some_iff.1 h₁
      rfl
  unfold commitPrepared at h
  split at h
  · cases h
  · obtain ⟨s₁, h₁, heq⟩ := Option.map_eq_some_iff.1 h
    cases heq
    obtain ⟨s₂, h₂, h₁⟩ := Option.bind_eq_some_iff.1 h₁
    obtain ⟨s₃, h₃, h₁⟩ := Option.bind_eq_some_iff.1 h₁
    cases h₁
    obtain ⟨s₄, h₄, h₃⟩ := Option.bind_eq_some_iff.1 h₃
    cases h₃
    dsimp only
    split_ifs
    · rw [he h₄, hd h₂]
    · dsimp only
      rw [he h₄, hd h₂]

theorem ids_extendedSnapshot :
    (extendedSnapshot snapshot published).ids =
      snapshot.ids ++ published.map StoredMessage.messageId := map_append

/-- A commit extends the snapshots of its topic by messages that no snapshot holds. -/
theorem Accounts.commit (h : Accounts platform message s) (hi : s.SnapshotIndex)
    (hnd : (prepared.published.map StoredMessage.messageId).Nodup)
    (hmsgs : ∀ m ∈ prepared.published, message m.messageId = m)
    (hf : ∀ name snapshot, s.snapshots.get name = some snapshot →
      ∀ m ∈ prepared.published, m.messageId ∉ snapshot.ids)
    (ha : s.commitAdmission platform prepared = .ok ())
    (hcom : s.commitPrepared platform prepared now = some (.ok prepared.published, s'))
    (hc : s.Committed s' prepared now) : Accounts platform message s' := by
  obtain ⟨-, hnames, -, hb, -⟩ := commitAdmission_ok ha
  obtain ⟨hmax, ht⟩ := snapshotPublishBytes_eq_ok hb
  have hrefs := commitPrepared_refs hcom
  have hn : prepared.snapshotNames.Nodup := by
    rw [hnames]
    exact s.snapshotsOf_nodup
  have hp : ∀ name ∈ prepared.snapshotNames, ∃ snapshot, s.snapshots.get name = some snapshot := by
    intro name hname
    rw [hnames] at hname
    exact Option.isSome_iff_exists.1 (hi.isSome_of_mem hname)
  have hin : ∀ name ∈ prepared.snapshotNames, s'.snapshots.get name =
      (s.snapshots.get name).map fun snapshot =>
        extendedSnapshot snapshot prepared.published := by
    intro name hname
    rw [hnames] at hname
    rw [hc.snapshots, if_pos hname]
  have hout : ∀ name ∉ prepared.snapshotNames, s'.snapshots.get name = s.snapshots.get name := by
    intro name hname
    rw [hnames] at hname
    rw [hc.snapshots, if_neg hname]
  have hret : s'.snapshotRetainedBytes = prepared.snapshotTotalBytes := by
    obtain ⟨_, _, _, rfl⟩ := hc.rest
    rfl
  have ho : s'.ownedBytes platform = s.ownedBytes platform +
      prepared.snapshotNames.length • publicationBytes platform prepared.published := by
    refine sum_update hn hin hout fun name hname => ?_
    obtain ⟨snapshot, hget⟩ := hp name hname
    refine ⟨snapshot, hget, snapshotOwnedBytes_extendedSnapshot (hf name snapshot hget) ?_⟩
    have hle := h.snapshotOwnedBytes_le hget
    have hpos : 1 ≤ prepared.snapshotNames.length := length_pos_of_mem hname
    have hmul := Nat.le_mul_of_pos_right (publicationBytes platform prepared.published) hpos
    have : maxSnapshotRetainedBytes < u64Max := by decide
    omega
  have hh : ∀ id, s'.holders id = s.holders id + prepared.snapshotNames.length •
      if id ∈ prepared.published.map StoredMessage.messageId then 1 else 0 := by
    intro id
    refine sum_update hn hin hout fun name hname => ?_
    obtain ⟨snapshot, hget⟩ := hp name hname
    refine ⟨snapshot, hget, ?_⟩
    rw [ids_extendedSnapshot]
    by_cases hid : id ∈ prepared.published.map StoredMessage.messageId
    · obtain ⟨m, hm, rfl⟩ := mem_map.1 hid
      simp [hid, hf name snapshot hget m hm]
    · simp [hid]
  -- no more snapshots are extended than are paid for
  have hl : prepared.snapshotNames.length ≤ maxSnapshotRetainedBytes := by
    refine le_trans ?_ h.size_le
    have hsub : prepared.snapshotNames ⊆ s.snapshots.keys := by
      intro name hname
      obtain ⟨snapshot, hget⟩ := hp name hname
      exact mem_keys_iff_exists.2 ⟨snapshot, hget⟩
    have := (hn.subperm hsub).length_le
    simpa [SortedMap.sum, SortedMap.keys] using this
  refine ⟨?_, ?_, hret ▸ hmax⟩
  · by_cases he : prepared.snapshotNames.isEmpty
    · rw [hrefs, if_pos he]
      refine h.refs.congr fun id => ?_
      rw [hh, isEmpty_iff.1 he, length_nil, zero_smul, Nat.add_zero]
    · have hne : prepared.snapshotNames.length ≠ 0 := by simpa using he
      rw [hrefs, if_neg he, foldl_addRefs hne h.refs (fun m _ => by
        have := h.holders_le m.messageId
        have : maxSnapshotRetainedBytes + maxSnapshotRetainedBytes ≤ u64Max := by decide
        omega) hnd]
      refine (h.refs.foldl_acquire hne hnd).congr fun id => ?_
      rw [hh]
      by_cases hid : id ∈ prepared.published.map StoredMessage.messageId
      · simp [hid]
      · simp [hid]
  · rw [hret, ht, ho, h.bytes, hrefs]
    by_cases he : prepared.snapshotNames.isEmpty
    · simp [isEmpty_iff.1 he]
    · have hne : prepared.snapshotNames.length ≠ 0 := by simpa using he
      rw [if_neg he, if_neg he, foldl_addRefs hne h.refs (fun m _ => by
        have := h.holders_le m.messageId
        have : maxSnapshotRetainedBytes + maxSnapshotRetainedBytes ≤ u64Max := by decide
        omega) hnd, weight_foldl_acquire_messages hmsgs hnd, smul_eq_mul]
      ring

end PubSubState

end Fireemu.PubSub
