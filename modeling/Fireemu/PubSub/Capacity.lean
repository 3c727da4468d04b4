import Fireemu.PubSub.SubscriptionRun

/-!
# The bounds of a subscription

A publication is checked as a whole against two bounds, and then appended message by message, where
acknowledged entries may be reclaimed in the middle of the batch.  Both decide the same question
(`ensureEnqueueCapacity_iff`).  All this needs of a subscription is that its bytes are accounted for,
which no operation breaks, whatever its ack ids are.
-/

namespace Fireemu.PubSub

open Library (SortedMap SortedSet)
open List

/-- Whether an operation changes neither the messages nor the configuration. -/
def Operation.IsQuiet : Operation → Prop
  | .enqueue .. | .seekToTime .. | .seekToSnapshot .. | .replaceConfig .. => False
  | _ => True

namespace SubscriptionState

variable {stored : StoredMessage} {now : LogicalInstant}

/-- The same messages are retained, with the same charge, under the same configuration. -/
structure SameLog (s s' : SubscriptionState) : Prop where
  messages : s'.retainedMessages = s.retainedMessages
  bytes : s'.retainedBytes = s.retainedBytes
  config : s'.config = s.config

variable {s s' : SubscriptionState}

/-! ### Accounting -/

theorem logBytes_eq {entries : List Entry} :
    logBytes entries = ((entries.map Entry.stored).map messageBytes).sum := by
  rw [logBytes, map_map]
  rfl

theorem SameLog.refl (s : SubscriptionState) : s.SameLog s := ⟨rfl, rfl, rfl⟩

theorem SameLog.trans {s'' : SubscriptionState} (h : s.SameLog s') (h' : s'.SameLog s'') : s.SameLog s'' :=
  ⟨h'.messages.trans h.messages, h'.bytes.trans h.bytes, h'.config.trans h.config⟩

theorem Accounted.of_sameLog (h : s.Accounted) (hsame : s.SameLog s') : s'.Accounted where
  retainedBytes := by
    rw [hsame.bytes, h.retainedBytes, logBytes_eq, logBytes_eq]
    exact congrArg (fun messages => (messages.map messageBytes).sum) hsame.messages.symm
  count_le := by
    have := congrArg List.length hsame.messages
    simp only [retainedMessages, length_map] at this
    exact this.trans_le h.count_le
  bytes_le := hsame.bytes.trans_le h.bytes_le

variable {f : Entry → Entry} {bytes : ℕ} {messages : List StoredMessage} {s₁ : SubscriptionState}

/-- Changing entries without their messages. -/
theorem sameLog_of_map (he : s'.entries = s.entries.map f) (hb : s'.retainedBytes = s.retainedBytes)
    (hc : s'.config = s.config) (hf : ∀ e, (f e).stored = e.stored) : s.SameLog s' := by
  refine ⟨?_, hb, hc⟩
  rw [retainedMessages, he, map_map]
  exact map_congr_left fun e _ => hf e

variable {i : ℕ} {nextAckId : ℕ → AckId}

theorem sameLog_of_modify (he : s'.entries = s.entries.modify i f) (hb : s'.retainedBytes = s.retainedBytes)
    (hc : s'.config = s.config) (hf : ∀ e, (f e).stored = e.stored) : s.SameLog s' := by
  refine ⟨?_, hb, hc⟩
  rw [retainedMessages, retainedMessages, he]
  refine ext_getElem? fun j => ?_
  rw [getElem?_map, getElem?_map, getElem?_modify]
  cases s.entries[j]? with
  | none => rfl
  | some =>
    by_cases hij : i = j
    · simp [hij, hf]
    · simp [hij]

theorem sameLog_setState {state : Delivery} : s.SameLog (s.setState i state) :=
  sameLog_of_modify rfl rfl rfl fun _ => rfl

theorem sameLog_foldl {α : Type} {f : SubscriptionState → α → SubscriptionState}
    (hf : ∀ (s : SubscriptionState) a, s.SameLog (f s a)) (s : SubscriptionState) {l : List α} :
    s.SameLog (l.foldl f s) :=
  l.foldlRecOn f (.refl s) fun s' h a _ => h.trans (hf s' a)

theorem sameLog_release (s : SubscriptionState) {id : AckId} : s.SameLog (s.release now id) := by
  unfold release
  split
  · exact .refl s
  · exact sameLog_of_modify rfl rfl rfl fun _ => rfl

theorem sameLog_lease {deadline : LogicalInstant} {acc : List ReceivedMessage × SubscriptionState} :
    acc.2.SameLog (lease deadline nextAckId acc i).2 := by
  cases hget : acc.2.entries[i]? with
  | none =>
    rw [lease, hget]
    exact .refl _
  | some =>
    rw [lease_of_getElem? hget]
    refine sameLog_of_modify (i := i) (f := leased deadline nextAckId acc.1.length) ?_ rfl rfl
      fun _ => rfl
    rw [modify_eq_set hget]

theorem sameLog_foldl_lease (deadline : LogicalInstant) (nextAckId : ℕ → AckId)
    (acc : List ReceivedMessage × SubscriptionState) (selected : List ℕ) :
    acc.2.SameLog (selected.foldl (lease deadline nextAckId) acc).2 :=
  selected.foldlRecOn (motive := fun acc' : _ × _ => acc.2.SameLog acc'.2) _ (.refl _) fun _ h _ _ =>
    h.trans sameLog_lease

theorem sameLog_pull (s : SubscriptionState) {max : ℕ} {authorized : Bool} {batching : OrderedPullBatching}
    {admission : List StoredMessage → Bool} :
    s.SameLog (s.pullWithAdmission max now authorized batching nextAckId admission).2 := by
  obtain ⟨s₀, hs₀⟩ : ∃ s₀, s.beforePull now authorized = s₀ := ⟨_, rfl⟩
  have hb : s.SameLog s₀ := by
    rw [← hs₀, beforePull]
    split_ifs
    · exact .refl s
    · refine sameLog_of_map rfl rfl rfl fun e => ?_
      split_ifs <;> rfl
  refine hb.trans ?_
  rcases s.pull_eq max batching nextAckId admission hs₀ with heq | heq <;> rw [heq]
  · exact .refl s₀
  · generalize s₀.scan (s₀.pullRules max now authorized batching) = scan
    have hmark : s₀.SameLog (s₀.markForwards scan.forwarded) :=
      sameLog_foldl (fun s i => sameLog_setState) _
    have hl := sameLog_foldl_lease (s₀.pullDeadline now) nextAckId
      ([], s₀.markForwards scan.forwarded) scan.selected
    exact hmark.trans ⟨hl.messages, hl.bytes, hl.config⟩

theorem sameLog_acknowledge (s : SubscriptionState) {ids : List AckId} : s.SameLog (s.acknowledge ids).2 := by
  have hfold : ∀ acc : ℕ × SubscriptionState, acc.2.SameLog (ids.foldl acknowledgeOne acc).2 := by
    induction ids with
    | nil => exact fun acc => .refl _
    | cons id ids ih =>
      intro acc
      refine SameLog.trans ?_ (ih _)
      unfold acknowledgeOne
      split
      · exact .refl _
      · exact sameLog_of_modify rfl rfl rfl fun _ => rfl
  exact ⟨(hfold (0, s)).messages, (hfold (0, s)).bytes, (hfold (0, s)).config⟩

variable {op : Operation}

theorem sameLog_apply (s : SubscriptionState) (hop : op.IsQuiet) : s.SameLog (s.apply op) := by
  cases op with
  | enqueue => cases hop
  | seekToTime => cases hop
  | seekToSnapshot => cases hop
  | replaceConfig => cases hop
  | pull => exact s.sameLog_pull
  | acknowledge => exact s.sameLog_acknowledge
  | modifyAckDeadline id seconds now =>
    change s.SameLog (s.modifyAckDeadline id seconds now)
    unfold modifyAckDeadline
    split
    · exact .refl s
    · split_ifs
      · exact s.sameLog_release
      · refine sameLog_of_modify rfl rfl rfl fun e => ?_
        split <;> rfl
  | expireDeadlines => exact sameLog_foldl (fun s id => s.sameLog_release) s
  | completeForward messageId =>
    change s.SameLog (s.completeForward messageId).2
    unfold completeForward
    split
    · exact .refl s
    · exact sameLog_of_modify rfl rfl rfl fun _ => rfl
  | resumeForward =>
    refine sameLog_of_map rfl rfl rfl fun e => ?_
    split_ifs <;> rfl
  | setPushMinimumRedeliveryInterval => exact ⟨rfl, rfl, rfl⟩

theorem sameLog_run (s : SubscriptionState) {ops : List Operation} (hops : ∀ op ∈ ops, op.IsQuiet) :
    s.SameLog (s.run ops) := by
  induction ops generalizing s with
  | nil => exact .refl s
  | cons op ops ih =>
    exact (s.sameLog_apply (hops op mem_cons_self)).trans
      (ih _ fun op' hop' => hops op' (mem_cons_of_mem op hop'))

/-- Only a replacement changes the configuration. -/
theorem apply_config (s : SubscriptionState) (hop : ∀ config, op ≠ .replaceConfig config) :
    (s.apply op).config = s.config := by
  cases op with
  | enqueue => exact s.enqueue_config
  | seekToTime time now =>
    change (s.seekToTime time now).2.config = s.config
    unfold SubscriptionState.seekToTime
    split_ifs <;> rfl
  | seekToSnapshot captured retained unacknowledged createdAt now =>
    change (s.seekToSnapshot captured retained unacknowledged createdAt now).2.config = s.config
    unfold SubscriptionState.seekToSnapshot
    dsimp only
    split_ifs <;> rfl
  | replaceConfig config => exact absurd rfl (hop config)
  | _ => exact (s.sameLog_apply (by exact trivial)).config

theorem Accounted.reclaimAckedEntries (h : s.Accounted) : s.reclaimAckedEntries.Accounted where
  retainedBytes := rfl
  count_le := List.filter_sublist.length_le.trans h.count_le
  bytes_le := logBytes_filter_le.trans (h.retainedBytes ▸ h.bytes_le)

theorem Accounted.appended {stored : StoredMessage} (h : s.Accounted) (hroom : s.HasRoom stored)
    (now : LogicalInstant) : (s.appended stored now).Accounted where
  retainedBytes := by
    change s.retainedBytes + _ = _
    rw [h.retainedBytes]
    simp [logBytes, SubscriptionState.appended]
  count_le := by simpa [SubscriptionState.appended] using hroom.1
  bytes_le := hroom.2

theorem Accounted.enqueue (h : s.Accounted) (stored : StoredMessage) (now : LogicalInstant) :
    (s.enqueue stored now).2.Accounted :=
  enqueue_induction stored now h h.reclaimAckedEntries fun _ h hroom => h.appended hroom now

/-- No operation breaks the accounting. -/
theorem Accounted.apply (h : s.Accounted) (op : Operation) : (s.apply op).Accounted := by
  cases op with
  | enqueue stored now => exact h.enqueue stored now
  | seekToTime time now =>
    rw [SubscriptionState.apply]
    rcases h.seekToTime_cases time now with heq | ⟨s₀, heq, h₀⟩ <;> rw [heq]
    · exact h
    · exact h₀.rebuildIndexes.accounted
  | seekToSnapshot captured retained unacknowledged createdAt now =>
    rw [SubscriptionState.apply]
    rcases h.seekToSnapshot_cases captured retained unacknowledged createdAt now with
      heq | ⟨s₀, heq, h₀⟩ <;> rw [heq]
    · exact h
    · exact h₀.rebuildIndexes.accounted
  | replaceConfig => exact ⟨h.retainedBytes, h.count_le, h.bytes_le⟩
  | _ => exact h.of_sameLog (s.sameLog_apply (by exact trivial))

theorem Accounted.run (h : s.Accounted) (ops : List Operation) : (s.run ops).Accounted := by
  induction ops generalizing s with
  | nil => exact h
  | cons op ops ih => exact ih (h.apply op)

/-! ### A batch as a whole -/

/-- The bytes of messages. -/
def batchBytes (messages : List StoredMessage) : ℕ := (messages.map messageBytes).sum

/-- The entries that a reclaim drops. -/
abbrev acked (s : SubscriptionState) : List Entry := s.entries.filter Entry.isAcked

/-- A batch fits beside all entries, or beside those that are not acknowledged. -/
def Fits (s : SubscriptionState) (messages : List StoredMessage) : Prop :=
  s.entries.length + messages.length ≤ maxRetainedPerSub ∧
      s.retainedBytes + batchBytes messages ≤ maxRetainedBytesPerSub ∨
    s.entries.length - s.acked.length + messages.length ≤ maxRetainedPerSub ∧
      s.retainedBytes - logBytes s.acked + batchBytes messages ≤ maxRetainedBytesPerSub

theorem fits_iff {count additionalCount additionalBytes : ℕ} :
    fits additionalCount additionalBytes count bytes = true ↔ count + additionalCount ≤ maxRetainedPerSub ∧
        bytes + additionalBytes ≤ maxRetainedBytesPerSub := by
  have hone : ∀ {a b bound : ℕ}, bound < u64Max →
      ((checkedAdd a b).any (fun total => decide (total ≤ bound)) = true ↔ a + b ≤ bound) := by
    intro a b bound hb
    unfold checkedAdd
    split_ifs with hle
    · simp
    · simp
      omega
  rw [fits, Bool.and_eq_true, hone maxRetainedPerSub_lt, hone maxRetainedBytesPerSub_lt]

theorem addToBatch_cases (count bytes : ℕ) (message : StoredMessage) :
    addToBatch (count, bytes) message = .ok (count + 1, bytes + messageBytes message) ∨
      (∃ e, addToBatch (count, bytes) message = .error e) ∧
        (u64Max < count + 1 ∨ u64Max < bytes + messageBytes message) := by
  unfold addToBatch checkedAdd
  dsimp only
  by_cases hc : count + 1 ≤ u64Max
  · by_cases hb : bytes + messageBytes message ≤ u64Max
    · simp [hc, hb]
    · simp only [hc, hb, if_true, if_false]
      exact .inr ⟨⟨_, rfl⟩, .inr (not_le.1 hb)⟩
  · simp only [hc, if_false]
    exact .inr ⟨⟨_, rfl⟩, .inl (not_le.1 hc)⟩

/-- The size of a batch, or an overflow. -/
theorem foldlM_addToBatch_cases (messages : List StoredMessage) (count bytes : ℕ) :
    messages.foldlM addToBatch (count, bytes) = .ok (count + messages.length, bytes + batchBytes messages) ∨
      (∃ e, messages.foldlM addToBatch (count, bytes) = .error e) ∧
        (u64Max < count + messages.length ∨ u64Max < bytes + batchBytes messages) := by
  induction messages generalizing count bytes with
  | nil => exact .inl rfl
  | cons message messages ih =>
    have hb : batchBytes (message :: messages) = messageBytes message + batchBytes messages := rfl
    rw [foldlM_cons, length_cons, hb]
    rcases addToBatch_cases count bytes message with heq | ⟨⟨e, heq⟩, hover⟩ <;> rw [heq]
    · have := ih (count + 1) (bytes + messageBytes message)
      rwa [Nat.add_assoc, Nat.add_comm 1, Nat.add_assoc] at this
    · exact .inr ⟨⟨e, rfl⟩, by omega⟩

theorem foldl_saturatingAdd {l : List ℕ} {a : ℕ} (h : a + l.sum ≤ u64Max) :
    l.foldl saturatingAdd a = a + l.sum := by
  induction l generalizing a with
  | nil => rfl
  | cons b l ih =>
    rw [sum_cons] at h ⊢
    have hone : saturatingAdd a b = a + b := min_eq_left (by omega)
    rw [foldl_cons, hone, ih (by omega), Nat.add_assoc]

theorem logBytes_acked_le (h : s.Accounted) : logBytes s.acked ≤ s.retainedBytes := by
  rw [h.retainedBytes]
  exact logBytes_filter_le

/-- The check of a batch decides whether it fits. -/
theorem Accounted.ensureEnqueueCapacity_iff (h : s.Accounted) :
    s.ensureEnqueueCapacity messages = .ok () ↔ s.Fits messages := by
  have ha : (s.acked.map fun e => messageBytes e.stored).foldl saturatingAdd 0 = logBytes s.acked := by
    rw [foldl_saturatingAdd, Nat.zero_add]
    · rfl
    · rw [Nat.zero_add]
      exact ((logBytes_acked_le h).trans h.bytes_le).trans maxRetainedBytesPerSub_lt.le
  unfold ensureEnqueueCapacity Fits
  have hc := maxRetainedPerSub_lt
  have hb := maxRetainedBytesPerSub_lt
  rcases foldlM_addToBatch_cases messages 0 0 with heq | ⟨⟨e, heq⟩, hover⟩ <;>
    rw [batchSize, heq]
  · simp only [Nat.zero_add, ha]
    split_ifs with hall hrest
    · exact iff_of_true rfl (.inl (fits_iff.1 hall))
    · exact iff_of_true rfl (.inr (fits_iff.1 hrest))
    · refine iff_of_false nofun ?_
      rintro (hfit | hfit)
      · exact hall (fits_iff.2 hfit)
      · exact hrest (fits_iff.2 hfit)
  · refine iff_of_false nofun ?_
    omega

/-! ### Message by message -/

/-- Appends messages one by one; `none` when one is refused. -/
def enqueueEach (now : LogicalInstant) (messages : List StoredMessage) (s : SubscriptionState) :
    Option SubscriptionState :=
  messages.foldlM
    (fun s stored =>
      match s.enqueue stored now with
      | (.ok (), s) => some s
      | (.error _, _) => none)
    s

theorem enqueue_of_hasRoom (h : (s.makeRoom (messageBytes stored)).HasRoom stored) (now : LogicalInstant) :
    s.enqueue stored now = (.ok (), (s.makeRoom (messageBytes stored)).appended stored now) := by
  unfold enqueue
  dsimp only
  rw [if_neg (not_le.2 h.1), if_neg]
  · rfl
  · rw [exceedsBytes_eq_true, not_lt]
    exact h.2

theorem enqueue_of_not_hasRoom (h : ¬ (s.makeRoom (messageBytes stored)).HasRoom stored)
    (now : LogicalInstant) : ∃ e, s.enqueue stored now = (.error e, s.makeRoom (messageBytes stored)) := by
  unfold enqueue
  dsimp only
  split_ifs with hc hb
  · exact ⟨_, rfl⟩
  · exact ⟨_, rfl⟩
  · rw [exceedsBytes_eq_true, not_lt] at hb
    exact absurd ⟨not_le.1 hc, hb⟩ h

theorem makeRoom_of_hasRoom (h : s.HasRoom stored) : s.makeRoom (messageBytes stored) = s := by
  unfold makeRoom
  rw [if_neg]
  rw [Bool.and_eq_true, Bool.or_eq_true, decide_eq_true_iff, exceedsBytes_eq_true]
  rintro ⟨hc | hb, -⟩
  · exact absurd h.1 (not_lt.2 hc)
  · exact absurd h.2 (not_le.2 hb)

theorem makeRoom_of_not_hasRoom (h : ¬ s.HasRoom stored) :
    s.makeRoom (messageBytes stored) = if s.entries.any Entry.isAcked then s.reclaimAckedEntries else s := by
  have hfull : (decide (maxRetainedPerSub ≤ s.entries.length) ||
      s.exceedsBytes (messageBytes stored)) = true := by
    rw [Bool.or_eq_true, decide_eq_true_iff, exceedsBytes_eq_true]
    by_contra hcon
    rw [not_or, not_le, not_lt] at hcon
    exact h hcon
  unfold makeRoom
  rw [hfull, Bool.true_and]

theorem acked_appended : (s.appended stored now).acked = s.acked := by
  simp [acked, appended, filter_append, Entry.isAcked]

theorem length_appended : (s.appended stored now).entries.length = s.entries.length + 1 := by
  simp [appended]

theorem acked_reclaimAckedEntries : s.reclaimAckedEntries.acked = [] := by
  refine filter_eq_nil_iff.2 fun e he => ?_
  have := (mem_filter.1 he).2
  simpa using this

theorem length_reclaimAckedEntries (s : SubscriptionState) :
    s.reclaimAckedEntries.entries.length + s.acked.length = s.entries.length :=
  length_filter_not_acked s.entries

theorem Accounted.retainedBytes_reclaimAckedEntries (h : s.Accounted) :
    s.reclaimAckedEntries.retainedBytes + logBytes s.acked = s.retainedBytes := by
  rw [h.retainedBytes]
  exact logBytes_filter_not_acked s.entries

theorem batchBytes_cons :
    batchBytes (stored :: messages) = messageBytes stored + batchBytes messages := rfl

/-- The rest of a batch has to fit after its first message. -/
theorem Accounted.fits_cons (h : s.Accounted) :
    s.Fits (stored :: messages) ↔ (s.appended stored now).Fits messages := by
  have hle : s.acked.length ≤ s.entries.length := length_filter_le _ _
  have hb := logBytes_acked_le h
  unfold Fits
  rw [acked_appended, length_appended, length_cons, batchBytes_cons]
  simp only [SubscriptionState.appended]
  omega

/-- A batch fits where it fits after a reclaim. -/
theorem Accounted.fits_cons_of_reclaim (h : s.Accounted) (now : LogicalInstant)
    (messages : List StoredMessage) :
    s.Fits (stored :: messages) ↔ s.reclaimAckedEntries.HasRoom stored ∧
      (s.reclaimAckedEntries.appended stored now).Fits messages := by
  have hl := s.length_reclaimAckedEntries
  have hb := h.retainedBytes_reclaimAckedEntries
  unfold Fits HasRoom
  rw [acked_appended, acked_reclaimAckedEntries, length_appended, length_cons, batchBytes_cons]
  simp only [SubscriptionState.appended, length_nil, logBytes, map_nil, sum_nil, Nat.sub_zero, or_self]
  change _ + (s.acked.map fun e => messageBytes e.stored).sum = _ at hb
  omega

theorem acked_eq_nil (h : s.entries.any Entry.isAcked = false) : s.acked = [] := by
  refine filter_eq_nil_iff.2 fun e he ha => ?_
  rw [any_eq_false] at h
  exact h e he ha

/-- What appending a batch leaves: some entries that were there before, without acknowledged ones
where they were reclaimed, and the batch in order. -/
structure Appended (s s' : SubscriptionState) (now : LogicalInstant)
    (messages : List StoredMessage) : Prop where
  config : s'.config = s.config
  entries : ∃ kept, (kept = s.entries ∨ kept = s.entries.filter fun e => !e.isAcked) ∧
    s'.entries = kept ++ messages.map fun stored => ⟨stored, .available now, 0⟩

theorem Appended.cons {s₀ : SubscriptionState} (hc : s₀.config = s.config)
    (he : s₀.entries = s.entries ∨ s₀.entries = s.entries.filter fun e => !e.isAcked)
    (h : (s₀.appended stored now).Appended s' now messages) : s.Appended s' now (stored :: messages) := by
  refine ⟨h.config.trans hc, ?_⟩
  have hf : (s₀.appended stored now).entries.filter (fun e => !e.isAcked) =
      s₀.entries.filter (fun e => !e.isAcked) ++ [⟨stored, .available now, 0⟩] := by
    simp [SubscriptionState.appended, filter_append, Entry.isAcked]
  obtain ⟨kept, rfl | rfl, heq⟩ := h.entries
  · refine ⟨s₀.entries, he, ?_⟩
    rw [heq]
    simp [SubscriptionState.appended]
  · rw [hf] at heq
    refine ⟨s₀.entries.filter fun e => !e.isAcked, .inr ?_, by rw [heq]; simp⟩
    rcases he with he | he <;> rw [he]
    rw [filter_filter]
    simp

theorem enqueueEach_cons_of_ok (h : s.enqueue stored now = (.ok (), s₁)) (messages : List StoredMessage) :
    enqueueEach now (stored :: messages) s = enqueueEach now messages s₁ := by
  rw [enqueueEach, foldlM_cons, h]
  rfl

theorem enqueueEach_cons_of_error {e : PubSubError} (h : s.enqueue stored now = (.error e, s₁))
    (messages : List StoredMessage) : enqueueEach now (stored :: messages) s = none := by
  rw [enqueueEach, foldlM_cons, h]
  rfl

/-- Appending message by message succeeds exactly when the batch fits. -/
theorem Accounted.enqueueEach_cases (h : s.Accounted) (now : LogicalInstant) (messages : List StoredMessage) :
    (s.Fits messages ∧ ∃ s', enqueueEach now messages s = some s' ∧ s.Appended s' now messages) ∨
      ¬ s.Fits messages ∧ enqueueEach now messages s = none := by
  induction messages generalizing s with
  | nil =>
    refine .inl ⟨.inl ⟨h.count_le, h.bytes_le⟩, s, rfl, rfl, s.entries, .inl rfl, ?_⟩
    simp
  | cons stored messages ih =>
    -- one message is appended to the log or to what a reclaim leaves of it
    have hstep : ∀ s₀ : SubscriptionState, s.makeRoom (messageBytes stored) = s₀ → s₀.Accounted →
        s₀.HasRoom stored → s₀.config = s.config →
        (s₀.entries = s.entries ∨ s₀.entries = s.entries.filter fun e => !e.isAcked) →
        (s.Fits (stored :: messages) ↔ (s₀.appended stored now).Fits messages) →
        (s.Fits (stored :: messages) ∧ ∃ s', enqueueEach now (stored :: messages) s = some s' ∧
          s.Appended s' now (stored :: messages)) ∨
        ¬ s.Fits (stored :: messages) ∧ enqueueEach now (stored :: messages) s = none := by
      intro s₀ hs₀ h₀ hroom hc he hfits
      have hmade : (s.makeRoom (messageBytes stored)).HasRoom stored := by rwa [hs₀]
      have hok := enqueue_of_hasRoom hmade now
      rw [enqueueEach_cons_of_ok hok, hfits, hs₀]
      refine (ih (h₀.appended hroom now)).imp (And.imp_right ?_) id
      rintro ⟨s', heq, ha⟩
      exact ⟨s', heq, ha.cons hc he⟩
    have hrefused : ¬ (s.makeRoom (messageBytes stored)).HasRoom stored → ¬ s.Fits (stored :: messages) →
        ¬ s.Fits (stored :: messages) ∧ enqueueEach now (stored :: messages) s = none := by
      intro hroom hfits
      obtain ⟨e, herror⟩ := enqueue_of_not_hasRoom hroom now
      exact ⟨hfits, enqueueEach_cons_of_error herror messages⟩
    by_cases hroom : s.HasRoom stored
    · exact hstep s (makeRoom_of_hasRoom hroom) h hroom rfl (.inl rfl) (h.fits_cons)
    have hmake := makeRoom_of_not_hasRoom hroom
    by_cases hany : s.entries.any Entry.isAcked = true
    · rw [if_pos hany] at hmake
      by_cases hroom' : s.reclaimAckedEntries.HasRoom stored
      · refine hstep _ hmake h.reclaimAckedEntries hroom' rfl (.inr rfl) ?_
        rw [h.fits_cons_of_reclaim now, and_iff_right hroom']
      · refine .inr (hrefused (by rwa [hmake]) fun hfits => hroom' ?_)
        exact ((h.fits_cons_of_reclaim now messages).1 hfits).1
    · rw [if_neg hany] at hmake
      refine .inr (hrefused (by rwa [hmake]) fun hfits => hroom ?_)
      have hnil := acked_eq_nil (Bool.eq_false_iff.2 hany)
      unfold Fits at hfits
      rw [hnil, length_cons, batchBytes_cons, length_nil, logBytes, map_nil, sum_nil] at hfits
      exact ⟨by omega, by omega⟩

/-- A batch is accepted as a whole exactly when each of its messages is accepted in turn. -/
theorem Accounted.ensureEnqueueCapacity_iff_enqueueEach (h : s.Accounted) :
    s.ensureEnqueueCapacity messages = .ok () ↔ (enqueueEach now messages s).isSome = true := by
  rw [h.ensureEnqueueCapacity_iff]
  rcases h.enqueueEach_cases now messages with ⟨hfits, s', heq, -⟩ | ⟨hfits, heq⟩ <;>
    simp [hfits, heq]

/-- Appending message by message is a run. -/
theorem run_of_enqueueEach (h : enqueueEach now messages s = some s') :
    s.run (messages.map fun stored => .enqueue stored now) = s' := by
  induction messages generalizing s with
  | nil => exact Option.some.inj h
  | cons stored messages ih =>
    cases heq : s.enqueue stored now with
    | mk result s₁ =>
      cases result with
      | error =>
        rw [enqueueEach_cons_of_error heq] at h
        cases h
      | ok =>
        rw [enqueueEach_cons_of_ok heq] at h
        rw [map_cons, run, foldl_cons]
        have : s.apply (.enqueue stored now) = s₁ := congrArg Prod.snd heq
        rw [this]
        exact ih h

end SubscriptionState

end Fireemu.PubSub
