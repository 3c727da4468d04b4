import Fireemu.PubSub.Subscription

/-!
# The representation of a subscription

`Valid` says that the derived fields are what the log determines and that the log is within its
bounds.  Operations that acknowledge leave the first unacknowledged index behind and then advance
it; in between the subscription is only `Lagging`.  Almost every operation changes one entry at a
time, which is `Lagging.set` and `Valid.set`.
-/

namespace Fireemu.PubSub

open Library (SortedMap SortedSet)
open List

variable {entries : List Entry} {i : ℕ} {e e' : Entry}

/-- The ack id the entry at an index is outstanding under. -/
def leaseAt (entries : List Entry) (i : ℕ) : Option AckId :=
  entries[i]?.bind fun e => e.state.ackId?

/-- The bytes of a log. -/
def logBytes (entries : List Entry) : ℕ := (entries.map fun e => messageBytes e.stored).sum

/-- A map holds exactly the outstanding entries of a log by ack id. -/
def Leases (entries : List Entry) (outstanding : SortedMap AckId ℕ) : Prop :=
  ∀ id i, outstanding.get id = some i ↔ leaseAt entries i = some id

namespace SubscriptionState

/-- The retained bytes are those of the log, and the log is within its bounds. -/
structure Accounted (s : SubscriptionState) : Prop where
  retainedBytes : s.retainedBytes = logBytes s.entries
  count_le : s.entries.length ≤ maxRetainedPerSub
  bytes_le : s.retainedBytes ≤ maxRetainedBytesPerSub

/-- Everything but the exactness of the first unacknowledged index. -/
structure Lagging (s : SubscriptionState) : Prop where
  ackedPrefix : ∀ i < s.firstUnacked, ∃ e, s.entries[i]? = some e ∧ e.isAcked = true
  leases : Leases s.entries s.outstanding
  retainedBytes : s.retainedBytes = logBytes s.entries
  count_le : s.entries.length ≤ maxRetainedPerSub
  bytes_le : s.retainedBytes ≤ maxRetainedBytesPerSub

/-- The derived fields are what the log determines, and the log is within its bounds. -/
structure Valid (s : SubscriptionState) : Prop where
  firstUnacked : s.firstUnacked = s.entries.findIdx fun e => !e.isAcked
  leases : Leases s.entries s.outstanding
  retainedBytes : s.retainedBytes = logBytes s.entries
  count_le : s.entries.length ≤ maxRetainedPerSub
  bytes_le : s.retainedBytes ≤ maxRetainedBytesPerSub

end SubscriptionState

/-! ### Leases -/

section Leases

variable {entries' : List Entry} {outstanding outstanding' : SortedMap AckId ℕ}

/-- Leases stay exact when one entry changes and the map follows it. -/
theorem Leases.update (h : Leases entries outstanding)
    (ho : ∀ j, j ≠ i → leaseAt entries' j = leaseAt entries j)
    (hself : ∀ id, outstanding'.get id = if leaseAt entries' i = some id then some i
      else if leaseAt entries i = some id then none else outstanding.get id)
    (hf : ∀ id, leaseAt entries' i = some id → outstanding.get id = none ∨ leaseAt entries i = some id) :
    Leases entries' outstanding' := by
  intro id j
  rw [hself]
  by_cases hj : j = i
  · subst hj
    by_cases hnew : leaseAt entries' j = some id
    · simp [hnew]
    · rw [if_neg hnew]
      refine iff_of_false ?_ hnew
      by_cases hold : leaseAt entries j = some id
      · simp [hold]
      · rw [if_neg hold, h]
        exact hold
  · rw [ho j hj]
    by_cases hnew : leaseAt entries' i = some id
    · rw [if_pos hnew]
      refine iff_of_false (by simpa using Ne.symm hj) fun hold => ?_
      -- the id was free, or it was this entry's own
      have hget := (h id j).2 hold
      rcases hf id hnew with hnone | hown
      · rw [hnone] at hget
        cases hget
      · rw [(h id i).2 hown, Option.some.injEq] at hget
        exact hj hget.symm
    · rw [if_neg hnew]
      by_cases hold : leaseAt entries i = some id
      · rw [if_pos hold]
        refine iff_of_false nofun fun hj' => ?_
        have hget := (h id j).2 hj'
        rw [(h id i).2 hold, Option.some.injEq] at hget
        exact hj hget.symm
      · rw [if_neg hold, h]

theorem Leases.congr (h : Leases entries outstanding)
    (heq : ∀ j, leaseAt entries' j = leaseAt entries j) : Leases entries' outstanding :=
  fun id j => by rw [h, heq]

variable {j : ℕ}

theorem leaseAt_set_of_ne {e : Entry} (hj : j ≠ i) : leaseAt (entries.set i e) j = leaseAt entries j := by
  rw [leaseAt, getElem?_set_ne (Ne.symm hj), leaseAt]

theorem leaseAt_set_self {e' : Entry} (hget : entries[i]? = some e) :
    leaseAt (entries.set i e') i = e'.state.ackId? := by
  have hlt : i < entries.length := (List.getElem?_eq_some_iff.1 hget).1
  rw [leaseAt, List.getElem?_set_self hlt]
  rfl

theorem leaseAt_of_getElem? (hget : entries[i]? = some e) : leaseAt entries i = e.state.ackId? := by
  rw [leaseAt, hget]
  rfl

/-- Appending an entry that is not outstanding changes no lease. -/
theorem leaseAt_append_of_none (he : e.state.ackId? = none) :
    leaseAt (entries ++ [e]) j = leaseAt entries j := by
  unfold leaseAt
  rcases lt_trichotomy j entries.length with hj | hj | hj
  · rw [getElem?_append_left hj]
  · subst hj
    simp [he]
  · rw [getElem?_eq_none (by simpa using hj), getElem?_eq_none hj.le]

/-- The index built from a log, one entry at a time. -/
theorem indexOutstanding_append :
    SubscriptionState.indexOutstanding (entries ++ [e]) = match e.state.ackId? with
      | some id => (SubscriptionState.indexOutstanding entries).insert id entries.length
      | none => SubscriptionState.indexOutstanding entries := by
  unfold SubscriptionState.indexOutstanding
  rw [zipIdx_append, foldl_append]
  cases e with
  | mk stored state => cases state <;> simp [Delivery.ackId?]

/-- Where no two entries share an ack id, the index built from a log is exact. -/
theorem leases_indexOutstanding
    (hinj : ∀ i j id, leaseAt entries i = some id → leaseAt entries j = some id → i = j) :
    Leases entries (SubscriptionState.indexOutstanding entries) := by
  induction entries using List.reverseRecOn with
  | nil =>
    intro id i
    simp [SubscriptionState.indexOutstanding, leaseAt]
  | append_singleton entries e ih =>
    have hlast : leaseAt (entries ++ [e]) entries.length = e.state.ackId? := by
      simp [leaseAt]
    have hinit : ∀ j, j ≠ entries.length → leaseAt (entries ++ [e]) j = leaseAt entries j := by
      intro j hj
      unfold leaseAt
      rcases Nat.lt_or_ge j entries.length with hlt | hge
      · rw [getElem?_append_left hlt]
      · rw [getElem?_eq_none (by simp; omega), getElem?_eq_none hge]
    have hnone : leaseAt entries entries.length = none := by simp [leaseAt]
    have hne : ∀ {j id}, leaseAt entries j = some id → j ≠ entries.length := by
      rintro j id hj rfl
      rw [hnone] at hj
      cases hj
    have hold : Leases entries (SubscriptionState.indexOutstanding entries) := ih fun i j id hi hj =>
      hinj i j id ((hinit i (hne hi)).trans hi) ((hinit j (hne hj)).trans hj)
    rw [indexOutstanding_append]
    refine hold.update hinit (fun id => ?_) fun id hid => .inl ?_
    · rw [hlast, hnone]
      cases e.state.ackId? with
      | none => simp
      | some => simp [SortedMap.get_insert, eq_comm]
    · -- an earlier entry with the id of the last one would be the last one
      by_contra hget
      obtain ⟨j, hj⟩ := Option.ne_none_iff_exists'.1 hget
      have hj' := (hold id j).1 hj
      exact hne hj' (hinj _ _ id ((hinit j (hne hj')).trans hj') hid)

end Leases

/-! ### One entry changes -/

section OneEntry

theorem map_set_of_eq {α : Type} {f : Entry → α} (hget : entries[i]? = some e) (h : f e' = f e) :
    (entries.set i e').map f = entries.map f := by
  obtain ⟨hi, rfl⟩ := List.getElem?_eq_some_iff.1 hget
  rw [map_set, h, ← getElem_map f (h := by simpa using hi), set_getElem_self]

theorem logBytes_set (hget : entries[i]? = some e) (hs : e'.stored = e.stored) :
    logBytes (entries.set i e') = logBytes entries := by
  rw [logBytes, map_set_of_eq hget (by rw [hs]), logBytes]

/-- The first unacknowledged index looks only at which entries are acknowledged. -/
theorem findIdx_congr {entries' : List Entry} (h : entries'.map Entry.isAcked = entries.map Entry.isAcked) :
    (entries'.findIdx fun e => !e.isAcked) = entries.findIdx fun e => !e.isAcked := by
  have := congrArg (List.findIdx fun b => !b) h
  rwa [findIdx_map, findIdx_map] at this

/-- Changing an entry that is there is setting it. -/
theorem modify_eq_set (hget : entries[i]? = some e) (f : Entry → Entry) :
    entries.modify i f = entries.set i (f e) := by
  refine ext_getElem? fun j => ?_
  rw [getElem?_modify]
  by_cases hj : i = j
  · subst hj
    rw [List.getElem?_set_self (List.getElem?_eq_some_iff.1 hget).1, hget]
    simp
  · rw [getElem?_set_ne hj]
    simp [hj]

end OneEntry

namespace SubscriptionState

variable {s : SubscriptionState}

theorem Valid.lagging (h : s.Valid) : s.Lagging where
  ackedPrefix i hi := by
    rw [h.firstUnacked] at hi
    have hlt := hi.trans_le findIdx_le_length
    refine ⟨s.entries[i], getElem?_eq_getElem hlt, ?_⟩
    simpa using not_of_lt_findIdx hi
  leases := h.leases
  retainedBytes := h.retainedBytes
  count_le := h.count_le
  bytes_le := h.bytes_le

theorem Valid.accounted (h : s.Valid) : s.Accounted := ⟨h.retainedBytes, h.count_le, h.bytes_le⟩

variable {id : AckId} {state : Delivery}

/-- An entry that is not acknowledged is not before the first unacknowledged index. -/
theorem Lagging.le_of_not_acked (h : s.Lagging) (hget : s.entries[i]? = some e) (hne : e.isAcked = false) :
    s.firstUnacked ≤ i := by
  by_contra hlt
  obtain ⟨e', hget', ha⟩ := h.ackedPrefix i (not_le.1 hlt)
  rw [hget, Option.some.injEq] at hget'
  subst hget'
  rw [hne] at ha
  cases ha

/-- Advancing over acknowledged entries finds the first that is not. -/
theorem Lagging.advanceFirstUnacked (h : s.Lagging) : s.advanceFirstUnacked.Valid where
  firstUnacked := by
    have hall : ∀ e ∈ s.entries.take s.firstUnacked, e.isAcked = true := by
      intro e he
      obtain ⟨i, hi, rfl⟩ := mem_iff_getElem.1 he
      rw [length_take, lt_min_iff] at hi
      obtain ⟨e', hget, ha⟩ := h.ackedPrefix i hi.1
      rw [getElem?_eq_getElem hi.2, Option.some.injEq] at hget
      rw [getElem_take, hget, ha]
    have hle : s.firstUnacked ≤ s.entries.length := by
      by_contra hgt
      obtain ⟨e, hget, -⟩ := h.ackedPrefix s.entries.length (not_le.1 hgt)
      simp at hget
    have hl : (s.entries.take s.firstUnacked).length = s.firstUnacked := by
      rw [length_take, min_eq_left hle]
    have hnot : ¬ (s.entries.take s.firstUnacked).findIdx (fun e => !e.isAcked) <
        (s.entries.take s.firstUnacked).length := by
      rw [findIdx_lt_length]
      rintro ⟨e, he, ha⟩
      rw [hall e he] at ha
      cases ha
    change s.firstUnacked + _ = s.entries.findIdx fun e => !e.isAcked
    conv_rhs => rw [← take_append_drop s.firstUnacked s.entries]
    rw [findIdx_append, if_neg hnot, hl, takeWhile_eq_take_findIdx_not,
      length_take, min_eq_left findIdx_le_length, add_comm]
  leases := h.leases
  retainedBytes := h.retainedBytes
  count_le := h.count_le
  bytes_le := h.bytes_le

/-- Changing an entry that is not acknowledged. -/
theorem Lagging.set (h : s.Lagging) (hget : s.entries[i]? = some e) (hne : e.isAcked = false)
    (hs : e'.stored = e.stored) {outstanding : SortedMap AckId ℕ} (hself : ∀ id, outstanding.get id =
      if e'.state.ackId? = some id then some i
      else if e.state.ackId? = some id then none else s.outstanding.get id)
    (hf : ∀ id, e'.state.ackId? = some id → s.outstanding.get id = none ∨ e.state.ackId? = some id) :
    Lagging { s with entries := s.entries.set i e', outstanding } where
  ackedPrefix j hj := by
    have hle := h.le_of_not_acked hget hne
    obtain ⟨e'', hget', ha⟩ := h.ackedPrefix j hj
    refine ⟨e'', ?_, ha⟩
    rw [getElem?_set_ne (show i ≠ j from fun hij => absurd (hij ▸ hle) (not_le.2 hj)), hget']
  leases := by
    refine h.leases.update (fun j hj => leaseAt_set_of_ne hj) ?_ ?_
    · intro id
      rw [leaseAt_set_self hget, leaseAt_of_getElem? hget]
      exact hself id
    · intro id hid
      rw [leaseAt_set_self hget] at hid
      rw [leaseAt_of_getElem? hget]
      exact hf id hid
  retainedBytes := h.retainedBytes.trans (logBytes_set hget hs).symm
  count_le := by simpa using h.count_le
  bytes_le := h.bytes_le

/-- Changing an entry that is not acknowledged, and stays so. -/
theorem Valid.set (h : s.Valid) (hget : s.entries[i]? = some e) (hne : e.isAcked = false)
    (hne' : e'.isAcked = false) (hs : e'.stored = e.stored) {outstanding : SortedMap AckId ℕ}
    (hself : ∀ id, outstanding.get id = if e'.state.ackId? = some id then some i
      else if e.state.ackId? = some id then none else s.outstanding.get id)
    (hf : ∀ id, e'.state.ackId? = some id → s.outstanding.get id = none ∨ e.state.ackId? = some id) :
    Valid { s with entries := s.entries.set i e', outstanding } := by
  have hlag := h.lagging.set hget hne hs hself hf
  exact ⟨h.firstUnacked.trans (findIdx_congr (map_set_of_eq hget (hne'.trans hne.symm))).symm,
    hlag.leases, hlag.retainedBytes, hlag.count_le, hlag.bytes_le⟩

/-! ### Operations without selection -/

theorem valid_new {config : SubscriptionConfig} : (new config).Valid where
  firstUnacked := rfl
  leases id i := by simp [new, leaseAt]
  retainedBytes := rfl
  count_le := Nat.zero_le _
  bytes_le := Nat.zero_le _

/-- Changing every entry without acknowledging one or touching its lease. -/
theorem Valid.map (h : s.Valid) {f : Entry → Entry}
    (hf : ∀ e, (f e).stored = e.stored ∧ (f e).isAcked = e.isAcked ∧ (f e).state.ackId? = e.state.ackId?) :
    Valid { s with entries := s.entries.map f } where
  firstUnacked := by
    refine h.firstUnacked.trans (findIdx_congr ?_).symm
    rw [map_map]
    exact map_congr_left fun e _ => (hf e).2.1
  leases := h.leases.congr fun j => by
    simp only [leaseAt, getElem?_map]
    cases s.entries[j]? with
    | none => rfl
    | some e => exact (hf e).2.2
  retainedBytes := by
    rw [h.retainedBytes, logBytes, logBytes, map_map]
    exact congrArg List.sum (map_congr_left fun e _ => by simp [(hf e).1])
  count_le := by simpa using h.count_le
  bytes_le := h.bytes_le

theorem Valid.withdrawForwards (h : s.Valid) (now : LogicalInstant) : (s.withdrawForwards now).Valid := by
  refine h.map fun e => ?_
  cases hstate : e.state <;>
    simp [Entry.isForwardPending, Entry.isAcked, hstate, Delivery.ackId?]

theorem Valid.resumeForward (h : s.Valid) (message : StoredMessage) (now : LogicalInstant) :
    (s.resumeForward message now).Valid := by
  refine h.map fun e => ?_
  split_ifs with hcond
  · have hstate : e.state = .forwardPending := by
      simpa [Entry.isForwardPending] using (Bool.and_eq_true_iff.1 hcond).1
    simp [Entry.isAcked, hstate, Delivery.ackId?]
  · simp

theorem Valid.replaceConfig (h : s.Valid) (config : SubscriptionConfig) : (s.replaceConfig config).Valid :=
  ⟨h.firstUnacked, h.leases, h.retainedBytes, h.count_le, h.bytes_le⟩

/-- Recomputing the derived fields of a log within its bounds whose leases are distinct. -/
theorem valid_rebuildIndexes
    (hinj : ∀ i j id, leaseAt s.entries i = some id → leaseAt s.entries j = some id → i = j)
    (hc : s.entries.length ≤ maxRetainedPerSub)
    (hb : logBytes s.entries ≤ maxRetainedBytesPerSub) : s.rebuildIndexes.Valid :=
  ⟨rfl, leases_indexOutstanding hinj, rfl, hc, hb⟩

/-- Where nothing is outstanding, leases are distinct. -/
theorem leaseAt_eq_none (h : ∀ e ∈ entries, e.state.ackId? = none) (i : ℕ) : leaseAt entries i = none := by
  unfold leaseAt
  cases hget : entries[i]? with
  | none => rfl
  | some e => exact h e (mem_of_getElem? hget)

/-- Outstanding entries have distinct ack ids, wherever they are in the log. -/
theorem Valid.pairwise_ackId (h : s.Valid) :
    s.entries.Pairwise fun e e' => ∀ id, e.state.ackId? = some id → e'.state.ackId? ≠ some id := by
  rw [pairwise_iff_getElem]
  intro i j hi hj hij id hid hid'
  have hi' := (h.leases id i).2 (leaseAt_of_getElem? (getElem?_eq_getElem hi) ▸ hid)
  have hj' := (h.leases id j).2 (leaseAt_of_getElem? (getElem?_eq_getElem hj) ▸ hid')
  rw [hi', Option.some.injEq] at hj'
  exact hij.ne hj'

theorem leaseAt_injective_of_pairwise
    (h : entries.Pairwise fun e e' => ∀ id, e.state.ackId? = some id → e'.state.ackId? ≠ some id) :
    ∀ i j id, leaseAt entries i = some id → leaseAt entries j = some id → i = j := by
  rw [pairwise_iff_getElem] at h
  have hget : ∀ {i id}, leaseAt entries i = some id →
      ∃ hi : i < entries.length, (entries.get ⟨i, hi⟩).state.ackId? = some id := by
    intro i id hi
    obtain ⟨e, he, hid⟩ := Option.bind_eq_some_iff.1 hi
    obtain ⟨hlt, rfl⟩ := List.getElem?_eq_some_iff.1 he
    exact ⟨hlt, hid⟩
  intro i j id hi hj
  obtain ⟨hi', hid⟩ := hget hi
  obtain ⟨hj', hid'⟩ := hget hj
  rcases lt_trichotomy i j with hij | hij | hij
  · exact absurd hid' (h i j hi' hj' hij id hid)
  · exact hij
  · exact absurd hid (h j i hj' hi' hij id hid')

theorem logBytes_filter_le {p : Entry → Bool} : logBytes (entries.filter p) ≤ logBytes entries :=
  (filter_sublist.map _).sum_le_sum fun _ _ => Nat.zero_le _

theorem Valid.reclaimAckedEntries (h : s.Valid) : s.reclaimAckedEntries.Valid := by
  refine valid_rebuildIndexes (leaseAt_injective_of_pairwise ?_) ?_ ?_
  · exact h.pairwise_ackId.sublist filter_sublist
  · exact filter_sublist.length_le.trans h.count_le
  · exact logBytes_filter_le.trans (h.retainedBytes ▸ h.bytes_le)

/-- Whether one more message fits without a reclaim. -/
def HasRoom (s : SubscriptionState) (stored : StoredMessage) : Prop :=
  s.entries.length < maxRetainedPerSub ∧ s.retainedBytes + messageBytes stored ≤ maxRetainedBytesPerSub

/-- A subscription with one more message. -/
def appended (s : SubscriptionState) (stored : StoredMessage) (now : LogicalInstant) : SubscriptionState :=
  { s with
    entries := s.entries ++ [⟨stored, .available now, 0⟩]
    retainedBytes := s.retainedBytes + messageBytes stored }

theorem Valid.appended {stored : StoredMessage} (h : s.Valid) (hroom : s.HasRoom stored)
    (now : LogicalInstant) : (s.appended stored now).Valid where
  firstUnacked := by
    have hlast : ([⟨stored, .available now, 0⟩] : List Entry).findIdx (fun e => !e.isAcked) = 0 := rfl
    change s.firstUnacked = _
    rw [h.firstUnacked, SubscriptionState.appended, findIdx_append, hlast, zero_add]
    split_ifs with hlt
    · rfl
    · exact le_antisymm findIdx_le_length (not_lt.1 hlt)
  leases := h.leases.congr fun j => leaseAt_append_of_none rfl
  retainedBytes := by
    change s.retainedBytes + _ = _
    rw [h.retainedBytes]
    simp [logBytes, SubscriptionState.appended]
  count_le := by simpa [SubscriptionState.appended] using hroom.1
  bytes_le := hroom.2

theorem maxRetainedBytesPerSub_lt : maxRetainedBytesPerSub < u64Max := by decide

theorem exceedsBytes_eq_true {bytes : ℕ} :
    s.exceedsBytes bytes = true ↔ maxRetainedBytesPerSub < s.retainedBytes + bytes := by
  have hb := maxRetainedBytesPerSub_lt
  unfold exceedsBytes checkedAdd
  split_ifs with hle
  · simp
  · simp
    omega

/-- What a reclaim and an entry that fits keep, publication keeps. -/
theorem enqueue_induction {P : SubscriptionState → Prop} (stored : StoredMessage) (now : LogicalInstant)
    (h : P s) (hreclaim : P s.reclaimAckedEntries)
    (happend : ∀ s : SubscriptionState, P s → s.HasRoom stored → P (s.appended stored now)) :
    P (s.enqueue stored now).2 := by
  have hroom : P (s.makeRoom (messageBytes stored)) := by
    unfold makeRoom
    split_ifs
    · exact hreclaim
    · exact h
  unfold enqueue
  dsimp only
  split_ifs with hc hb
  · exact hroom
  · exact hroom
  · exact happend _ hroom ⟨not_le.1 hc, not_lt.1 (exceedsBytes_eq_true.not.1 hb)⟩

theorem Valid.enqueue (h : s.Valid) (stored : StoredMessage) (now : LogicalInstant) :
    (s.enqueue stored now).2.Valid :=
  enqueue_induction stored now h h.reclaimAckedEntries fun _ h hroom => h.appended hroom now

/-- What the lease map says about an ack id. -/
theorem Lagging.entry_of_get (h : s.Lagging) (hget : s.outstanding.get id = some i) :
    ∃ e d, s.entries[i]? = some e ∧ e.state = .outstanding id d := by
  obtain ⟨e, he, hid⟩ := Option.bind_eq_some_iff.1 ((h.leases id i).1 hget)
  refine ⟨e, ?_⟩
  cases hstate : e.state with
  | outstanding id' d =>
    rw [hstate, Delivery.ackId?, Option.some.injEq] at hid
    exact ⟨d, he, by rw [hid]⟩
  | _ =>
    rw [hstate] at hid
    cases hid

/-- A change of an outstanding entry that ends its lease. -/
theorem get_erase_lease {id' : AckId} {d : LogicalInstant} (hstate : state.ackId? = none)
    (outstanding : SortedMap AckId ℕ) :
    (outstanding.erase id).get id' = if state.ackId? = some id' then some i
      else if (Delivery.outstanding id d).ackId? = some id' then none
      else outstanding.get id' := by
  rw [hstate, SortedMap.get_erase]
  simp [Delivery.ackId?, eq_comm]

theorem Valid.release (h : s.Valid) (now : LogicalInstant) (id : AckId) : (s.release now id).Valid := by
  unfold SubscriptionState.release
  cases hget : s.outstanding.get id with
  | none => exact h
  | some =>
    obtain ⟨e, d, he, hstate⟩ := h.lagging.entry_of_get hget
    dsimp only [setState]
    rw [modify_eq_set he]
    have hne : e.isAcked = false := by simp [Entry.isAcked, hstate]
    refine h.set he hne ?_ ?_ (fun id' => ?_) fun id' hid' => ?_
    · rfl
    · rfl
    · rw [hstate]
      exact get_erase_lease rfl s.outstanding
    · cases hid'

theorem Valid.foldl_release (h : s.Valid) (now : LogicalInstant) (ids : List AckId) :
    (ids.foldl (SubscriptionState.release now) s).Valid :=
  ids.foldlRecOn _ h fun _ h id _ => h.release now id

theorem Valid.expireDeadlines (h : s.Valid) (now : LogicalInstant) : (s.expireDeadlines now).Valid :=
  h.foldl_release now _

theorem Lagging.acknowledgeOne {acc : ℕ × SubscriptionState} (h : acc.2.Lagging) (id : AckId) :
    (SubscriptionState.acknowledgeOne acc id).2.Lagging := by
  unfold SubscriptionState.acknowledgeOne
  cases hget : acc.2.outstanding.get id with
  | none => exact h
  | some =>
    obtain ⟨e, d, he, hstate⟩ := h.entry_of_get hget
    dsimp only [setState]
    rw [modify_eq_set he]
    have hne : e.isAcked = false := by simp [Entry.isAcked, hstate]
    refine h.set he hne ?_ (fun id' => ?_) fun id' hid' => ?_
    · rfl
    · rw [hstate]
      exact get_erase_lease rfl acc.2.outstanding
    · cases hid'

theorem Lagging.foldl_acknowledgeOne (acc : ℕ × SubscriptionState) (h : acc.2.Lagging)
    (ids : List AckId) : (ids.foldl SubscriptionState.acknowledgeOne acc).2.Lagging :=
  ids.foldlRecOn (motive := fun acc : _ × _ => Lagging acc.2) _ h fun _ h id _ => h.acknowledgeOne id

theorem Valid.acknowledge (h : s.Valid) (ids : List AckId) : (s.acknowledge ids).2.Valid :=
  (Lagging.foldl_acknowledgeOne (0, s) h.lagging ids).advanceFirstUnacked

/-- A change of an entry that has no lease before or after. -/
theorem get_of_no_lease {state' : Delivery} (hstate : state.ackId? = none) (hstate' : state'.ackId? = none)
    (outstanding : SortedMap AckId ℕ) :
    outstanding.get id = if state'.ackId? = some id then some i
      else if state.ackId? = some id then none else outstanding.get id := by
  rw [hstate, hstate']
  rfl

theorem Valid.completeForward (h : s.Valid) (messageId : Str) : (s.completeForward messageId).2.Valid := by
  unfold SubscriptionState.completeForward
  cases hfind : s.entries.findIdx? fun e =>
      decide (e.stored.messageId = messageId) && e.isForwardPending with
  | none => exact h
  | some i =>
    obtain ⟨hi, hcond, -⟩ := findIdx?_eq_some_iff_getElem.1 hfind
    have he := getElem?_eq_getElem hi
    have hstate : (s.entries[i]).state = .forwardPending := by
      simpa [Entry.isForwardPending] using (Bool.and_eq_true_iff.1 hcond).2
    refine Lagging.advanceFirstUnacked ?_
    rw [setState, modify_eq_set he]
    have hne : (s.entries[i]).isAcked = false := by simp [Entry.isAcked, hstate]
    refine h.lagging.set he hne ?_ (fun id => ?_) fun id hid => ?_
    · rfl
    · rw [hstate]
      exact get_of_no_lease rfl rfl s.outstanding
    · cases hid

theorem Valid.modifyAckDeadline (h : s.Valid) (id : AckId) (seconds : ℕ) (now : LogicalInstant) :
    (s.modifyAckDeadline id seconds now).Valid := by
  unfold SubscriptionState.modifyAckDeadline
  cases hget : s.outstanding.get id with
  | none => exact h
  | some =>
    dsimp only
    split_ifs
    · exact h.release now id
    · obtain ⟨e, d, he, hstate⟩ := h.lagging.entry_of_get hget
      rw [modify_eq_set he]
      simp only [hstate]
      have hne : e.isAcked = false := by simp [Entry.isAcked, hstate]
      refine h.set he hne ?_ ?_ (fun id' => ?_) fun id' hid' => .inr ?_
      · rfl
      · rfl
      · rw [hstate]
        simp only [Delivery.ackId?, Option.some.injEq]
        split_ifs with hid
        · rw [← hid, hget]
        · rfl
      · rw [hstate]
        exact hid'

/-- A log that a seek has rewritten: nothing is outstanding, and the bounds hold. -/
structure Rewritten (s : SubscriptionState) : Prop where
  lease : ∀ e ∈ s.entries, e.state.ackId? = none
  count_le : s.entries.length ≤ maxRetainedPerSub
  bytes_le : logBytes s.entries ≤ maxRetainedBytesPerSub

theorem Rewritten.rebuildIndexes (h : s.Rewritten) : s.rebuildIndexes.Valid := by
  refine valid_rebuildIndexes (fun i j id hi => ?_) h.count_le h.bytes_le
  rw [leaseAt_eq_none h.lease] at hi
  cases hi

theorem Accounted.seekToTime_cases (h : s.Accounted) (time now : LogicalInstant) :
    (s.seekToTime time now).2 = s ∨
      ∃ s₀ : SubscriptionState, (s.seekToTime time now).2 = s₀.rebuildIndexes ∧ s₀.Rewritten := by
  unfold SubscriptionState.seekToTime
  split_ifs with ho
  · exact .inl rfl
  · refine .inr ⟨_, rfl, ?_, by simpa using h.count_le, ?_⟩
    · intro e he
      obtain ⟨e, -, rfl⟩ := mem_map.1 he
      split_ifs <;> rfl
    · rw [logBytes, map_map]
      have hb := h.bytes_le
      rw [h.retainedBytes, logBytes] at hb
      refine le_of_eq_of_le (congrArg List.sum (map_congr_left fun e _ => ?_)) hb
      simp only [Function.comp_apply]
      split_ifs <;> rfl

theorem Valid.seekToTime (h : s.Valid) (time now : LogicalInstant) : (s.seekToTime time now).2.Valid := by
  rcases h.accounted.seekToTime_cases time now with heq | ⟨s₀, heq, h₀⟩ <;> rw [heq]
  · exact h
  · exact h₀.rebuildIndexes

/-! ### Seek to a snapshot -/

section Restore

variable {missing : List StoredMessage} {retainedIds unackedIds : SortedSet Str}
  {createdAt now : LogicalInstant}

/-- The log a seek to a snapshot leaves, before acknowledgement states are restored: the missing
messages stand between two parts of the old log. -/
theorem restore_entries (s : SubscriptionState) (missing : List StoredMessage)
    (retainedIds unackedIds : SortedSet Str) (createdAt now : LogicalInstant) :
    ∃ left right, s.entries = left ++ right ∧
      (s.restore missing retainedIds unackedIds createdAt now).entries =
        (left ++ missing.map (fun stored => (⟨stored, .available now, 0⟩ : Entry)) ++ right).map
          (restored retainedIds unackedIds createdAt now) :=
  ⟨_, _, takeWhile_append_dropWhile.symm, rfl⟩

@[simp] theorem restored_stored {e : Entry} :
    (restored retainedIds unackedIds createdAt now e).stored = e.stored := by
  unfold restored
  split_ifs <;> rfl

theorem restored_ackId? : (restored retainedIds unackedIds createdAt now e).state.ackId? = none := by
  unfold restored
  split_ifs <;> rfl

theorem restore_cases (hc : s.entries.length + missing.length ≤ maxRetainedPerSub)
    (hb : logBytes s.entries + (missing.map messageBytes).sum ≤ maxRetainedBytesPerSub) :
    ∃ s₀ : SubscriptionState, s.restore missing retainedIds unackedIds createdAt now = s₀.rebuildIndexes ∧
      s₀.Rewritten := by
  obtain ⟨left, right, hs, hent⟩ := s.restore_entries missing retainedIds unackedIds
    createdAt now
  rw [hs] at hc hb
  unfold restore at hent ⊢
  dsimp only [rebuildIndexes] at hent
  refine ⟨_, rfl, ?_, ?_, ?_⟩
  · intro e he
    obtain ⟨e, -, rfl⟩ := mem_map.1 he
    exact restored_ackId?
  · dsimp only
    rw [hent]
    simp only [length_map, length_append] at hc ⊢
    omega
  · dsimp only
    rw [hent]
    simp only [logBytes, map_map, map_append, sum_append] at hb ⊢
    simp only [Function.comp_def, restored_stored]
    exact (Nat.add_right_comm _ _ _).le.trans hb

end Restore

/-- A log without its acknowledged entries. -/
theorem length_filter_not_acked (entries : List Entry) :
    (entries.filter fun e => !e.isAcked).length + (entries.filter Entry.isAcked).length = entries.length := by
  rw [add_comm, ← countP_eq_length_filter, ← countP_eq_length_filter,
    length_eq_countP_add_countP Entry.isAcked]
  simp

theorem logBytes_filter_not_acked (entries : List Entry) :
    logBytes (entries.filter fun e => !e.isAcked) + logBytes (entries.filter Entry.isAcked) =
      logBytes entries := by
  induction entries with
  | nil => rfl
  | cons e =>
    cases he : e.isAcked <;> simp_all [logBytes] <;> omega

theorem le_of_saturatingAdd_le {a b c : ℕ} (h : saturatingAdd a b ≤ c) (hc : c < u64Max) : a + b ≤ c := by
  unfold saturatingAdd at h
  omega

theorem maxRetainedPerSub_lt : maxRetainedPerSub < u64Max := by decide

theorem Accounted.seekToSnapshot_cases (h : s.Accounted) (captured : List StoredMessage)
    (retainedIds unackedIds : SortedSet Str) (createdAt now : LogicalInstant) :
    (s.seekToSnapshot captured retainedIds unackedIds createdAt now).2 = s ∨
      ∃ s₀ : SubscriptionState, (s.seekToSnapshot captured retainedIds unackedIds createdAt now).2 =
        s₀.rebuildIndexes ∧ s₀.Rewritten := by
  unfold SubscriptionState.seekToSnapshot
  dsimp only
  have hl := length_filter_not_acked s.entries
  have hsum := logBytes_filter_not_acked s.entries
  have hret := h.retainedBytes
  split_ifs with he hrefused
  · exact .inl rfl
  · rw [not_or, not_lt, not_lt] at hrefused
    have hc := le_of_saturatingAdd_le hrefused.1 maxRetainedPerSub_lt
    have hb := le_of_saturatingAdd_le hrefused.2 maxRetainedBytesPerSub_lt
    refine .inr (restore_cases ?_ ?_)
    · change (s.entries.filter fun e => !e.isAcked).length + _ ≤ _
      omega
    · change logBytes (s.entries.filter fun e => !e.isAcked) + _ ≤ _
      change s.retainedBytes - logBytes (s.entries.filter Entry.isAcked) + _ ≤ _ at hb
      omega
  · unfold exceedsRetention at he
    rw [Bool.or_eq_true, decide_eq_true_iff, decide_eq_true_iff, not_or, not_lt, not_lt] at he
    refine .inr (restore_cases (le_of_saturatingAdd_le he.1 maxRetainedPerSub_lt) ?_)
    rw [← hret]
    exact le_of_saturatingAdd_le he.2 maxRetainedBytesPerSub_lt

theorem Valid.seekToSnapshot (h : s.Valid) (captured : List StoredMessage)
    (retainedIds unackedIds : SortedSet Str) (createdAt now : LogicalInstant) :
    (s.seekToSnapshot captured retainedIds unackedIds createdAt now).2.Valid := by
  rcases h.accounted.seekToSnapshot_cases captured retainedIds unackedIds createdAt now with
    heq | ⟨s₀, heq, h₀⟩ <;> rw [heq]
  · exact h
  · exact h₀.rebuildIndexes

end SubscriptionState

end Fireemu.PubSub
