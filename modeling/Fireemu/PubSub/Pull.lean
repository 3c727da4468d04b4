import Fireemu.PubSub.Scan

/-!
# What a pull does

A pull changes the entries it takes and the entries it transfers, and no other ones
(`pull_cases`); it keeps the representation when its ack ids are new.
-/

namespace Fireemu.PubSub

open Library (SortedMap SortedSet)
open List

variable {e : Entry} {now : LogicalInstant}

theorem Entry.isDeliverable_iff : e.isDeliverable now = true ↔ ∃ t, e.state = .available t ∧ t ≤ now := by
  unfold Entry.isDeliverable
  cases e.state <;> simp

/-- A deliverable message has no lease and is not acknowledged. -/
theorem Entry.free_of_isDeliverable (h : e.isDeliverable now = true) :
    e.isAcked = false ∧ e.state.ackId? = none := by
  obtain ⟨t, ht, -⟩ := Entry.isDeliverable_iff.1 h
  simp [Entry.isAcked, Delivery.ackId?, ht]

namespace SubscriptionState

variable {s : SubscriptionState}

/-! ### Transfers -/

/-- Marks entries for their transfer. -/
def markForwards (s : SubscriptionState) (forwarded : List ℕ) : SubscriptionState :=
  forwarded.foldl (fun s i => s.setState i .forwardPending) s

theorem markForwards_eq (s : SubscriptionState) (forwarded : List ℕ) :
    s.markForwards forwarded = { s with
      entries := s.entries.mapIdx fun i e =>
        if i ∈ forwarded then { e with state := .forwardPending } else e } := by
  induction forwarded generalizing s with
  | nil => simp [markForwards, mapIdx_eq_zipIdx_map]
  | cons i forwarded ih =>
    change markForwards (s.setState i .forwardPending) forwarded = _
    rw [ih]
    simp only [setState, SubscriptionState.mk.injEq, true_and, and_true]
    refine ext_getElem? fun j => ?_
    rw [getElem?_mapIdx, getElem?_mapIdx, getElem?_modify]
    cases s.entries[j]? with
    | none => simp
    | some =>
      by_cases hj : i = j
      · simp [hj]
      · simp [hj, Ne.symm hj]

theorem Valid.markForwards (h : s.Valid) {forwarded : List ℕ}
    (hfree : ∀ i ∈ forwarded, ∀ e, s.entries[i]? = some e → e.isAcked = false ∧ e.state.ackId? = none) :
    (s.markForwards forwarded).Valid := by
  induction forwarded generalizing s with
  | nil => exact h
  | cons i forwarded ih =>
    change Valid (SubscriptionState.markForwards (s.setState i .forwardPending) forwarded)
    cases hget : s.entries[i]? with
    | none =>
      have hsame : s.setState i .forwardPending = s := by
        rw [setState, modify_eq_self (by simpa using hget)]
      rw [hsame]
      exact ih h fun j hj => hfree j (mem_cons_of_mem _ hj)
    | some e =>
      obtain ⟨hne, hid⟩ := hfree i mem_cons_self e hget
      refine ih ?_ fun j hj e' hget' => ?_
      · rw [setState, modify_eq_set hget]
        refine h.set hget hne ?_ ?_ (fun id => ?_) fun id hid => ?_
        · rfl
        · rfl
        · exact get_of_no_lease hid rfl s.outstanding
        · cases hid
      · rw [setState, modify_eq_set hget] at hget'
        by_cases hij : i = j
        · subst hij
          rw [List.getElem?_set_self (List.getElem?_eq_some_iff.1 hget).1, Option.some.injEq] at hget'
          subst hget'
          exact ⟨rfl, rfl⟩
        · rw [getElem?_set_ne hij] at hget'
          exact hfree j (mem_cons_of_mem _ hj) e' hget'

/-! ### Leases -/

section Lease

variable {deadline : LogicalInstant} {nextAckId : ℕ → AckId}

/-- The ack ids given to a number of entries, from a position on. -/
abbrev ackIds (nextAckId : ℕ → AckId) (first count : ℕ) : List AckId :=
  (List.range' first count).map nextAckId

/-- The entry handed out as the `k`-th. -/
def leased (deadline : LogicalInstant) (nextAckId : ℕ → AckId) (k : ℕ) (e : Entry) : Entry :=
  { e with deliveryAttempt := e.deliveryAttempt + 1, state := .outstanding (nextAckId k) deadline }

variable {acc : List ReceivedMessage × SubscriptionState} {i : ℕ}

theorem lease_of_getElem? (hget : acc.2.entries[i]? = some e) :
    lease deadline nextAckId acc i = (acc.1 ++ [⟨nextAckId acc.1.length, e.stored, e.deliveryAttempt + 1⟩],
        { acc.2 with
          entries := acc.2.entries.set i (leased deadline nextAckId acc.1.length e)
          outstanding := acc.2.outstanding.insert (nextAckId acc.1.length) i }) := by
  unfold lease
  rw [hget]
  rfl

/-- Handing out an entry without a lease under a new ack id. -/
theorem Lagging.lease (h : acc.2.Lagging) (hget : acc.2.entries[i]? = some e) (hne : e.isAcked = false)
    (hid : e.state.ackId? = none) (hf : acc.2.outstanding.get (nextAckId acc.1.length) = none) :
    (SubscriptionState.lease deadline nextAckId acc i).2.Lagging := by
  rw [lease_of_getElem? hget]
  refine h.set hget hne ?_ (fun id => ?_) fun id hnew => .inl ?_
  · rfl
  · rw [SortedMap.get_insert, hid]
    simp [leased, Delivery.ackId?, eq_comm]
  · rw [leased, Delivery.ackId?, Option.some.injEq] at hnew
    rw [← hnew, hf]

variable (deadline nextAckId) in
/-- What handing out entries does to a subscription: the entries change where they are handed out,
the lease map only grows by the new ack ids, and the responses are in the order of the entries. -/
structure LeaseEffect (selected : List ℕ) (acc acc' : List ReceivedMessage × SubscriptionState) :
    Prop where
  entries : acc'.2.entries = acc.2.entries.mapIdx fun i e =>
    if i ∈ selected then leased deadline nextAckId (acc.1.length + selected.idxOf i) e else e
  outstanding : ∀ id, acc.2.outstanding.get id = none →
    id ∉ ackIds nextAckId acc.1.length selected.length → acc'.2.outstanding.get id = none
  ids : acc'.1.map ReceivedMessage.ackId =
    acc.1.map ReceivedMessage.ackId ++ ackIds nextAckId acc.1.length selected.length
  messages : acc'.1.map ReceivedMessage.message = acc.1.map ReceivedMessage.message ++
    selected.filterMap fun i => acc.2.entries[i]?.map Entry.stored

theorem leaseEffect_foldl {selected : List ℕ} (acc : List ReceivedMessage × SubscriptionState)
    (hn : selected.Nodup) (hlt : ∀ i ∈ selected, i < acc.2.entries.length) :
    LeaseEffect deadline nextAckId selected acc (selected.foldl (lease deadline nextAckId) acc) := by
  induction selected generalizing acc with
  | nil => exact ⟨by simp [mapIdx_eq_zipIdx_map], fun _ h _ => h, by simp, by simp⟩
  | cons i selected ih =>
    obtain ⟨hnot, hn⟩ := nodup_cons.1 hn
    obtain ⟨e, hget⟩ : ∃ e, acc.2.entries[i]? = some e :=
      ⟨_, getElem?_eq_getElem (hlt i mem_cons_self)⟩
    rw [foldl_cons, lease_of_getElem? hget]
    have heff := ih (acc.1 ++ [⟨nextAckId acc.1.length, e.stored, e.deliveryAttempt + 1⟩], { acc.2 with
        entries := acc.2.entries.set i (leased deadline nextAckId acc.1.length e)
        outstanding := acc.2.outstanding.insert (nextAckId acc.1.length) i }) hn
      fun j hj => by simpa using hlt j (mem_cons_of_mem _ hj)
    have hl : (acc.1 ++ [(⟨nextAckId acc.1.length, e.stored, e.deliveryAttempt + 1⟩ :
        ReceivedMessage)]).length = acc.1.length + 1 := by simp
    have hids : ackIds nextAckId acc.1.length (i :: selected).length =
        nextAckId acc.1.length :: ackIds nextAckId (acc.1.length + 1) selected.length := by
      simp [ackIds, range'_succ]
    refine ⟨?_, fun id hnone hid => ?_, ?_, ?_⟩
    · rw [heff.entries]
      refine ext_getElem? fun j => ?_
      rw [getElem?_mapIdx, getElem?_mapIdx]
      dsimp only
      rw [hl]
      by_cases hj : i = j
      · subst hj
        rw [getElem?_set_self (hlt i mem_cons_self), hget]
        simp [hnot]
      · rw [getElem?_set_ne hj]
        cases acc.2.entries[j]? with
        | none => rfl
        | some =>
          have hidx : (i :: selected).idxOf j = selected.idxOf j + 1 := idxOf_cons_ne _ hj
          simp only [Option.map_some, mem_cons, Ne.symm hj, false_or, hidx]
          rw [Nat.add_right_comm, Nat.add_assoc]
    · rw [hids, mem_cons, not_or] at hid
      refine heff.outstanding id ?_ ?_
      · rw [SortedMap.get_insert, if_neg hid.1, hnone]
      · rw [hl]
        exact hid.2
    · rw [heff.ids, hids, hl]
      simp
    · rw [heff.messages, filterMap_cons, hget]
      simp only [map_append, map_cons, map_nil, append_assoc, singleton_append, Option.map_some]
      congr 2
      refine filterMap_congr fun j hj => ?_
      have hij : i ≠ j := fun hij => hnot (hij ▸ hj)
      rw [getElem?_set_ne hij]

theorem Lagging.foldl_lease (acc : List ReceivedMessage × SubscriptionState) {selected : List ℕ}
    (h : acc.2.Lagging) (hn : selected.Nodup)
    (hfree : ∀ i ∈ selected, ∃ e, acc.2.entries[i]? = some e ∧ e.isAcked = false ∧ e.state.ackId? = none)
    (hids : (ackIds nextAckId acc.1.length selected.length).Nodup)
    (hf : ∀ id ∈ ackIds nextAckId acc.1.length selected.length, acc.2.outstanding.get id = none) :
    (selected.foldl (SubscriptionState.lease deadline nextAckId) acc).2.Lagging := by
  induction selected generalizing acc with
  | nil => exact h
  | cons i selected ih =>
    obtain ⟨hnot, hn⟩ := nodup_cons.1 hn
    obtain ⟨e, hget, hne, hid⟩ := hfree i mem_cons_self
    have hcons : ackIds nextAckId acc.1.length (i :: selected).length =
        nextAckId acc.1.length :: ackIds nextAckId (acc.1.length + 1) selected.length := by
      simp [ackIds, range'_succ]
    rw [hcons] at hids hf
    obtain ⟨hnew, hids⟩ := nodup_cons.1 hids
    rw [foldl_cons]
    have hlag : (SubscriptionState.lease deadline nextAckId acc i).2.Lagging :=
      h.lease hget hne hid (hf _ mem_cons_self)
    rw [lease_of_getElem? hget] at hlag ⊢
    refine ih _ hlag hn (fun j hj => ?_) ?_ fun id hid => ?_
    · obtain ⟨e', hget', hrest⟩ := hfree j (mem_cons_of_mem _ hj)
      refine ⟨e', ?_, hrest⟩
      have hij : i ≠ j := fun hij => hnot (hij ▸ hj)
      rw [getElem?_set_ne hij, hget']
    · simpa using hids
    · have hid : id ∈ ackIds nextAckId (acc.1.length + 1) selected.length := by simpa using hid
      have hne : id ≠ nextAckId acc.1.length := fun heq => hnew (heq ▸ hid)
      rw [SortedMap.get_insert, if_neg hne]
      exact hf id (mem_cons_of_mem _ hid)

end Lease

/-! ### The whole pull -/

section Pull

variable {max : ℕ} {now : LogicalInstant} {forwardingAuthorized : Bool} {batching : OrderedPullBatching}
  {nextAckId : ℕ → AckId} {admission : List StoredMessage → Bool}

/-- A subscription as the pull sees it: transfers that lost their authorization are given back. -/
def beforePull (s : SubscriptionState) (now : LogicalInstant) (forwardingAuthorized : Bool) :
    SubscriptionState :=
  if forwardingAuthorized then s else s.withdrawForwards now

theorem Valid.beforePull (h : s.Valid) (now : LogicalInstant) (forwardingAuthorized : Bool) :
    (s.beforePull now forwardingAuthorized).Valid := by
  unfold SubscriptionState.beforePull
  split_ifs
  · exact h
  · exact h.withdrawForwards now

/-- The ack deadline of the messages a pull hands out. -/
def pullDeadline (s : SubscriptionState) (now : LogicalInstant) : LogicalInstant :=
  (LogicalInstant.checkedAdd now s.config.ackDeadline).getD LogicalInstant.max

/-- What a pull makes of the entry at an index. -/
def PullScan.deliver (scan : PullScan) (deadline : LogicalInstant) (nextAckId : ℕ → AckId) (i : ℕ)
    (e : Entry) : Entry :=
  if i ∈ scan.selected then leased deadline nextAckId (scan.selected.idxOf i) e
  else if i ∈ scan.forwarded then { e with state := .forwardPending } else e

/-- The messages at indices of a log. -/
abbrev storedAt (entries : List Entry) (indices : List ℕ) : List StoredMessage :=
  indices.filterMap fun i => entries[i]?.map Entry.stored

/-- What a pull that takes and transfers given entries does. -/
structure PullEffect (s : SubscriptionState) (scan : PullScan) (deadline : LogicalInstant)
    (nextAckId : ℕ → AckId) (r : PullOutcome × SubscriptionState) : Prop where
  entries : r.2.entries = s.entries.mapIdx (scan.deliver deadline nextAckId)
  outstanding : ∀ id, s.outstanding.get id = none →
    id ∉ r.1.received.map ReceivedMessage.ackId → r.2.outstanding.get id = none
  ids : r.1.received.map ReceivedMessage.ackId = ackIds nextAckId 0 scan.selected.length
  messages : r.1.received.map ReceivedMessage.message = storedAt s.entries scan.selected
  deadLettered : r.1.deadLettered = storedAt s.entries scan.forwarded

/-- A pull that is refused does nothing. -/
theorem pullEffect_empty (s : SubscriptionState) (deadline : LogicalInstant)
    (nextAckId : ℕ → AckId) : PullEffect s .empty deadline nextAckId (⟨[], []⟩, s) where
  entries := by
    have hid : PullScan.deliver .empty deadline nextAckId = fun _ e => e := by
      funext i e
      simp [PullScan.deliver, PullScan.empty]
    simp [hid, mapIdx_eq_zipIdx_map]
  outstanding _ h _ := h
  ids := rfl
  messages := rfl
  deadLettered := rfl

/-- A pull that is admitted marks transfers, hands out entries and advances. -/
def delivered (s : SubscriptionState) (scan : PullScan) (deadline : LogicalInstant)
    (nextAckId : ℕ → AckId) : PullOutcome × SubscriptionState :=
  let leases := scan.selected.foldl (lease deadline nextAckId) ([], s.markForwards scan.forwarded)
  (⟨leases.1, storedAt s.entries scan.forwarded⟩, leases.2.advanceFirstUnacked)

theorem pullEffect_delivered {s : SubscriptionState} {scan : PullScan} (deadline : LogicalInstant)
    (nextAckId : ℕ → AckId) (hn : scan.selected.Nodup) (hlt : ∀ i ∈ scan.selected, i < s.entries.length) :
    PullEffect s scan deadline nextAckId (s.delivered scan deadline nextAckId) := by
  have hmark := markForwards_eq s scan.forwarded
  have heff : LeaseEffect deadline nextAckId scan.selected ([], s.markForwards scan.forwarded) _ :=
    leaseEffect_foldl _ hn (by simpa [hmark] using hlt)
  unfold delivered
  generalize scan.selected.foldl (lease deadline nextAckId) ([], s.markForwards scan.forwarded) = acc at heff
  rw [hmark] at heff
  refine ⟨?_, fun id hnone hid => ?_, heff.ids, ?_, rfl⟩
  · change acc.2.entries = _
    rw [heff.entries]
    refine ext_getElem? fun i => ?_
    simp only [getElem?_mapIdx, Option.map_map]
    refine congrArg (fun f => Option.map f s.entries[i]?) (funext fun e => ?_)
    simp only [Function.comp_apply, PullScan.deliver, length_nil, zero_add]
    by_cases hsel : i ∈ scan.selected
    · rw [if_pos hsel, if_pos hsel]
      split_ifs <;> rfl
    · rw [if_neg hsel, if_neg hsel]
  · refine heff.outstanding id hnone ?_
    rw [heff.ids] at hid
    exact hid
  · refine heff.messages.trans ?_
    rw [map_nil, nil_append]
    refine filterMap_congr fun i _ => ?_
    simp only [getElem?_mapIdx, Option.map_map]
    refine congrArg (fun f => Option.map f s.entries[i]?) (funext fun e => ?_)
    simp only [Function.comp_apply]
    split_ifs <;> rfl

variable {rules : PullRules} {n : ℕ} {scan : PullScan}

/-- What a scan selects is free, also after it has marked what it forwards. -/
theorem free_of_selected (hs : PullScan.Sound rules s.entries n scan) {i : ℕ} (hi : i ∈ scan.selected) :
    ∃ e, (s.markForwards scan.forwarded).entries[i]? = some e ∧ e.isAcked = false ∧
      e.state.ackId? = none := by
  obtain ⟨-, e, hget, hd, -⟩ := hs.selected i hi
  refine ⟨e, ?_, Entry.free_of_isDeliverable hd⟩
  rw [markForwards_eq, getElem?_mapIdx, hget]
  simp [hs.notMem_forwarded hi]

/-- Handing out what a scan found, under new ack ids. -/
theorem Valid.delivered (h : s.Valid) {deadline : LogicalInstant} (hs : PullScan.Sound rules s.entries n scan)
    (hids : (ackIds nextAckId 0 scan.selected.length).Nodup)
    (hf : ∀ id ∈ ackIds nextAckId 0 scan.selected.length, s.outstanding.get id = none) :
    (s.delivered scan deadline nextAckId).2.Valid := by
  have hm : (s.markForwards scan.forwarded).Valid := by
    refine h.markForwards fun i hi e hget => ?_
    obtain ⟨-, e', hget', hd, -⟩ := hs.forwarded i hi
    rw [hget, Option.some.injEq] at hget'
    exact Entry.free_of_isDeliverable (hget' ▸ hd)
  refine Lagging.advanceFirstUnacked 
    (Lagging.foldl_lease ([], s.markForwards scan.forwarded) hm.lagging ?_ ?_ hids ?_)
  · exact hs.selected_sorted.imp ne_of_lt
  · exact fun i hi => free_of_selected hs hi
  · rw [markForwards_eq]
    exact hf

/-- A pull is refused, or hands out what its scan found. -/
theorem pull_eq (s : SubscriptionState) (max : ℕ) {now : LogicalInstant} {forwardingAuthorized : Bool}
    (batching : OrderedPullBatching) (nextAckId : ℕ → AckId) (admission : List StoredMessage → Bool)
    {s₀ : SubscriptionState} (hs₀ : s.beforePull now forwardingAuthorized = s₀) :
    s.pullWithAdmission max now forwardingAuthorized batching nextAckId admission = (⟨[], []⟩, s₀) ∨
      s.pullWithAdmission max now forwardingAuthorized batching nextAckId admission =
        s₀.delivered (s₀.scan (s₀.pullRules max now forwardingAuthorized batching))
          (s₀.pullDeadline now) nextAckId := by
  unfold pullWithAdmission
  rw [← beforePull.eq_1, hs₀]
  dsimp only
  by_cases hmax : max = 0
  · rw [if_pos hmax]
    exact .inl rfl
  rw [if_neg hmax]
  split_ifs
  · exact .inl rfl
  · exact .inr rfl

/-- Everything a pull can do. -/
theorem pull_cases (h : ∀ i < s.firstUnacked, ∃ e, s.entries[i]? = some e ∧ e.isAcked = true)
    (max : ℕ) {now : LogicalInstant} {forwardingAuthorized : Bool} (batching : OrderedPullBatching)
    (nextAckId : ℕ → AckId) (admission : List StoredMessage → Bool) {s₀ : SubscriptionState}
    (hs₀ : s.beforePull now forwardingAuthorized = s₀) :
    ∃ scan n, PullScan.Sound (s₀.pullRules max now forwardingAuthorized batching) s₀.entries n scan ∧
        PullEffect s₀ scan (s₀.pullDeadline now) nextAckId
          (s.pullWithAdmission max now forwardingAuthorized batching nextAckId admission) := by
  have h₀ : ∀ i < s₀.firstUnacked, ∃ e, s₀.entries[i]? = some e ∧ e.isAcked = true := by
    subst hs₀
    unfold SubscriptionState.beforePull
    split_ifs
    · exact h
    · intro i hi
      obtain ⟨e, hget, ha⟩ := h i hi
      refine ⟨e, ?_, ha⟩
      have hnot : e.isForwardPending = false := by
        simp_all [Entry.isAcked, Entry.isForwardPending]
      simp [withdrawForwards, hget, hnot]
  rcases s.pull_eq max batching nextAckId admission hs₀ with heq | heq <;>
    rw [heq]
  · exact ⟨.empty, 0, PullScan.sound_empty (by simp), pullEffect_empty _ _ _⟩
  · have hs := sound_scan h₀ (s₀.pullRules max now forwardingAuthorized batching)
    refine ⟨_, _, hs, pullEffect_delivered _ nextAckId ?_ fun i hi => ?_⟩
    · exact hs.selected_sorted.imp ne_of_lt
    · obtain ⟨-, e, hget, -⟩ := hs.selected i hi
      exact (List.getElem?_eq_some_iff.1 hget).1

/-- A pull under new ack ids keeps the representation. -/
theorem Valid.pull (h : s.Valid) (hn : ((s.pullWithAdmission max now forwardingAuthorized batching nextAckId
      admission).1.received.map ReceivedMessage.ackId).Nodup)
    (hf : ∀ id ∈ (s.pullWithAdmission max now forwardingAuthorized batching nextAckId
      admission).1.received.map ReceivedMessage.ackId, s.outstanding.get id = none) :
    (s.pullWithAdmission max now forwardingAuthorized batching nextAckId admission).2.Valid := by
  obtain ⟨s₀, hs₀⟩ : ∃ s₀, s.beforePull now forwardingAuthorized = s₀ := ⟨_, rfl⟩
  have h₀ : s₀.Valid := hs₀ ▸ h.beforePull now forwardingAuthorized
  have hout : s₀.outstanding = s.outstanding := by
    rw [← hs₀, SubscriptionState.beforePull]
    split_ifs <;> rfl
  rw [← hout] at hf
  rcases s.pull_eq max batching nextAckId admission hs₀ with heq | heq <;>
    rw [heq] at hn hf ⊢
  · exact h₀
  · have hs := sound_scan h₀.lagging.ackedPrefix (s₀.pullRules max now forwardingAuthorized batching)
    have hids := (pullEffect_delivered (s₀.pullDeadline now) nextAckId
      (hs.selected_sorted.imp ne_of_lt) fun i hi => by
        obtain ⟨-, e, hget, -⟩ := hs.selected i hi
        exact (List.getElem?_eq_some_iff.1 hget).1).ids
    rw [hids] at hn hf
    exact h₀.delivered hs hn hf

end Pull

end SubscriptionState

end Fireemu.PubSub
