import Fireemu.PubSub.Capacity

/-!
# Ordered delivery

A pull of an ordered subscription hands out an entry with an ordering key only after every earlier
entry with the key.  For a push subscription an outstanding entry has only acknowledged entries with
its key before it, which is an invariant of every run.
-/

namespace Fireemu.PubSub

open Library (SortedMap SortedSet)
open List

variable {scan : PullScan} {rules : PullRules} {i n max : ℕ} {now deadline : LogicalInstant}
  {nextAckId : ℕ → AckId} {r : PullOutcome × SubscriptionState} {authorized : Bool}
  {batching : OrderedPullBatching}

namespace SubscriptionState

variable {s : SubscriptionState}

/-- The `k`-th message of a response is the entry at index `i` of the log. -/
def Handed (r : PullOutcome × SubscriptionState) (k i : ℕ) : Prop :=
  ∃ m e, r.1.received[k]? = some m ∧ r.2.entries[i]? = some e ∧ e.stored = m.message ∧
    e.state.ackId? = some m.ackId

/-- The entry at index `j` is before the one at index `i` and has its ordering key. -/
def EarlierInKey (entries : List Entry) (j i : ℕ) : Prop :=
  j < i ∧ ∃ e e', entries[i]? = some e ∧ entries[j]? = some e' ∧ e.key ≠ [] ∧ e'.key = e.key

/-- The entry at an index is acknowledged. -/
def AckedAt (entries : List Entry) (i : ℕ) : Prop := ∃ e, entries[i]? = some e ∧ e.isAcked = true

/-- A pull marked the entry at index `i` for its transfer. -/
def Forwarded (s : SubscriptionState) (r : PullOutcome × SubscriptionState) (i : ℕ) : Prop :=
  (∃ e, s.entries[i]? = some e ∧ e.state ≠ .forwardPending) ∧
    ∃ e, r.2.entries[i]? = some e ∧ e.state = .forwardPending

/-! ### Positions of a response -/

section Positions

variable {s₀ : SubscriptionState}

theorem PullEffect.getElem?_entries (heff : PullEffect s₀ scan deadline nextAckId r) (i : ℕ) :
    r.2.entries[i]? = s₀.entries[i]?.map (scan.deliver deadline nextAckId i) := by
  rw [heff.entries, getElem?_mapIdx]

theorem PullScan.deliver_stored {i : ℕ} {e : Entry} :
    (scan.deliver deadline nextAckId i e).stored = e.stored := by
  unfold PullScan.deliver leased
  split_ifs <;> rfl

theorem PullEffect.length_received (heff : PullEffect s₀ scan deadline nextAckId r) :
    r.1.received.length = scan.selected.length := by
  have := congrArg List.length heff.ids
  simpa using this

variable {k : ℕ}

/-- The messages at indices of the log, one for each. -/
theorem getElem?_storedAt {entries : List Entry} {indices : List ℕ}
    (hall : ∀ i ∈ indices, ∃ e, entries[i]? = some e) (hk : indices[k]? = some i) :
    ∃ e, entries[i]? = some e ∧ (storedAt entries indices)[k]? = some e.stored := by
  induction indices generalizing k with
  | nil => simp at hk
  | cons j indices ih =>
    obtain ⟨e, hget⟩ := hall j mem_cons_self
    cases k with
    | zero =>
      rw [getElem?_cons_zero, Option.some.injEq] at hk
      subst hk
      exact ⟨e, hget, by simp [storedAt, hget]⟩
    | succ =>
      rw [getElem?_cons_succ] at hk
      obtain ⟨e', hget', hs⟩ := ih (fun i hi => hall i (mem_cons_of_mem _ hi)) hk
      exact ⟨e', hget', by simpa [storedAt, hget] using hs⟩

/-- The `k`-th message of a response is the `k`-th entry that was taken. -/
theorem PullEffect.handed (heff : PullEffect s₀ scan deadline nextAckId r)
    (hsound : PullScan.Sound rules s₀.entries n scan) (hk : scan.selected[k]? = some i) : Handed r k i := by
  obtain ⟨hlt, rfl⟩ := List.getElem?_eq_some_iff.1 hk
  have hall : ∀ i ∈ scan.selected, ∃ e, s₀.entries[i]? = some e := fun i hi => by
    obtain ⟨-, e, hget, -⟩ := hsound.selected i hi
    exact ⟨e, hget⟩
  obtain ⟨e, hget, hs⟩ := getElem?_storedAt hall hk
  have hlt' : k < r.1.received.length := heff.length_received ▸ hlt
  have hm := congrArg (fun l => l[k]?) heff.messages
  have hid := congrArg (fun l => l[k]?) heff.ids
  simp only [List.getElem?_map, hs, List.getElem?_eq_getElem hlt', Option.map_some, Option.some.injEq] at hm
  simp only [List.getElem?_map, List.getElem?_eq_getElem hlt', Option.map_some, ackIds,
    List.getElem?_range' hlt, Option.some.injEq, zero_add, one_mul] at hid
  refine ⟨r.1.received[k], _, List.getElem?_eq_getElem hlt', heff.getElem?_entries _ |>.trans
    (congrArg _ hget), ?_, ?_⟩
  · rw [PullScan.deliver_stored, hm]
  · have hn : scan.selected.Nodup := hsound.selected_sorted.imp ne_of_lt
    rw [PullScan.deliver, if_pos (List.getElem_mem hlt), hn.idxOf_getElem k hlt, hid]
    rfl

/-- With a valid representation the `k`-th message of a response is no other entry. -/
theorem PullEffect.handed_iff (heff : PullEffect s₀ scan deadline nextAckId r)
    (hsound : PullScan.Sound rules s₀.entries n scan) (hv : r.2.Valid) :
    Handed r k i ↔ scan.selected[k]? = some i := by
  refine ⟨?_, heff.handed hsound⟩
  rintro ⟨m, e, hm, he, -, hid⟩
  have hk : k < scan.selected.length := by
    rw [← heff.length_received]
    exact (List.getElem?_eq_some_iff.1 hm).1
  have hget := List.getElem?_eq_getElem hk
  obtain ⟨m', e', hm', he', -, hid'⟩ := heff.handed hsound hget
  rw [hm, Option.some.injEq] at hm'
  subst hm'
  have h₁ := (hv.leases m.ackId i).2 ((leaseAt_of_getElem? he).trans hid)
  have h₂ := (hv.leases m.ackId _).2 ((leaseAt_of_getElem? he').trans hid')
  rw [hget, ← h₁, ← h₂]

theorem lt_of_getElem?_lt {selected : List ℕ} (hs : selected.Pairwise (· < ·)) {k' j : ℕ}
    (hk : selected[k]? = some i) (hk' : selected[k']? = some j) (hlt : j < i) : k' < k := by
  obtain ⟨hk₁, rfl⟩ := List.getElem?_eq_some_iff.1 hk
  obtain ⟨hk₂, rfl⟩ := List.getElem?_eq_some_iff.1 hk'
  by_contra hle
  rcases Nat.lt_or_eq_of_le (not_lt.1 hle) with hlt' | rfl
  · exact absurd (List.pairwise_iff_getElem.1 hs k k' hk₁ hk₂ hlt') (not_lt.2 hlt.le)
  · exact lt_irrefl _ hlt

end Positions

/-! ### One pull -/

section Pull

/-- What the pull sees of an entry: the same message, acknowledged or leased as it is. -/
theorem getElem?_beforePull (s : SubscriptionState) (now : LogicalInstant) (authorized : Bool) {e : Entry}
    (hget : s.entries[i]? = some e) :
    ∃ e₀, (s.beforePull now authorized).entries[i]? = some e₀ ∧ e₀.stored = e.stored ∧
      e₀.isAcked = e.isAcked ∧ e₀.state.ackId? = e.state.ackId? ∧
      (e₀.state = .forwardPending → e.state = .forwardPending ∧ authorized = true) := by
  unfold beforePull
  cases authorized with
  | true => exact ⟨e, hget, rfl, rfl, rfl, fun h => ⟨h, rfl⟩⟩
  | false =>
    refine ⟨if e.isForwardPending then { e with state := .available now } else e, ?_, ?_⟩
    · simp [withdrawForwards, hget]
    · cases hstate : e.state <;>
        simp [Entry.isForwardPending, Entry.isAcked, Delivery.ackId?, hstate]

theorem getElem?_of_beforePull {e₀ : Entry} (hget : (s.beforePull now authorized).entries[i]? = some e₀) :
    ∃ e, s.entries[i]? = some e ∧ e₀.stored = e.stored := by
  unfold beforePull at hget
  split_ifs at hget
  · exact ⟨e₀, hget, rfl⟩
  · rw [withdrawForwards, getElem?_map, Option.map_eq_some_iff] at hget
    obtain ⟨e, he, rfl⟩ := hget
    refine ⟨e, he, ?_⟩
    split_ifs <;> rfl

/-- Without authorization nothing is exhausted. -/
theorem PullScan.Sound.forwarded_authorized {entries : List Entry}
    (hsound : PullScan.Sound (s.pullRules max now authorized batching) entries n scan)
    (hi : i ∈ scan.forwarded) : authorized = true := by
  obtain ⟨-, e, -, -, he⟩ := hsound.forwarded i hi
  by_contra hcon
  rw [Bool.not_eq_true] at hcon
  simp [pullRules, maxAttempts, hcon, Entry.isExhausted] at he

/-- Under `SeparateUnkeyed` a pull takes only messages without a key, or only messages with one. -/
theorem PullScan.Sound.selected_key (h : s.Lagging) (ho : s.config.enableMessageOrdering = true)
    (hsound : PullScan.Sound (s.pullRules max now authorized .separateUnkeyed) s.entries n scan) :
    (∀ i ∈ scan.selected, ∀ e, s.entries[i]? = some e → e.key = []) ∨
      ∀ i ∈ scan.selected, ∀ e, s.entries[i]? = some e → e.key ≠ [] := by
  cases hrule : (s.pullRules max now authorized .separateUnkeyed).unkeyedOnly with
  | true =>
    refine .inl fun i hi e hget => ?_
    obtain ⟨-, e', hget', -, -, hkey⟩ := hsound.selected i hi
    rw [hget, Option.some.injEq] at hget'
    exact hget' ▸ hkey hrule
  | false =>
    refine .inr fun i hi e hget hkey => ?_
    obtain ⟨-, e', hget', hd, he, -⟩ := hsound.selected i hi
    rw [hget, Option.some.injEq] at hget'
    subst hget'
    -- the entry itself shows that an unkeyed message was deliverable
    have hle := h.le_of_not_acked hget (Entry.free_of_isDeliverable hd).1
    have hmem : e ∈ s.entries.drop s.firstUnacked := by
      refine mem_iff_getElem?.2 ⟨i - s.firstUnacked, ?_⟩
      rw [getElem?_drop, Nat.add_sub_cancel' hle, hget]
    have hany : (s.pullRules max now authorized .separateUnkeyed).unkeyedOnly = true := by
      simp only [pullRules, ho, decide_true, Bool.and_true, Bool.true_and, any_eq_true]
      refine ⟨e, hmem, ?_⟩
      simp only [pullRules] at hd he
      simp [hkey, hd, he]
    rw [hany] at hrule
    cases hrule

end Pull

/-! ### Push subscriptions -/

/-- Every outstanding entry with an ordering key has only acknowledged entries with the key
before it. -/
def Exclusive (entries : List Entry) : Prop :=
  ∀ (i : ℕ) (e : Entry), entries[i]? = some e → e.key ≠ [] → e.state.ackId? ≠ none →
    ∀ j < i, ∀ e' : Entry, entries[j]? = some e' → e'.key = e.key → e'.isAcked = true

variable {entries : List Entry} {j : ℕ}

theorem exclusive_iff_pairwise :
    Exclusive entries ↔ entries.Pairwise fun e' e =>
      e.key ≠ [] → e.state.ackId? ≠ none → e'.key = e.key → e'.isAcked = true := by
  rw [List.pairwise_iff_getElem]
  constructor
  · intro h i j hi hj hij hkey hid hsame
    exact h j _ (List.getElem?_eq_getElem hj) hkey hid i hij _ (List.getElem?_eq_getElem hi) hsame
  · intro h i e he hkey hid j hj e' he' hsame
    obtain ⟨hi, rfl⟩ := List.getElem?_eq_some_iff.1 he
    obtain ⟨hj', rfl⟩ := List.getElem?_eq_some_iff.1 he'
    exact h j i hj' hi hj hkey hid hsame

theorem Exclusive.of_keeps {settles : Entry → Prop} {entries' : List Entry} (h : Exclusive entries)
    (hk : List.Forall₂ (fun e e' => e.Keeps (settles e) e') entries entries') : Exclusive entries' := by
  intro i e' he' hkey hid j hj f' hf' hsame
  obtain ⟨hi, rfl⟩ := List.getElem?_eq_some_iff.1 he'
  obtain ⟨hj', rfl⟩ := List.getElem?_eq_some_iff.1 hf'
  have hi₀ : i < entries.length := hk.length_eq ▸ hi
  have hj₀ : j < entries.length := hk.length_eq ▸ hj'
  have hki := hk.get hi₀ hi
  have hkj := hk.get hj₀ hj'
  obtain ⟨id, hid⟩ := Option.ne_none_iff_exists'.1 hid
  refine hkj.acked (h i _ (List.getElem?_eq_getElem hi₀) ?_ ?_ j hj _
    (List.getElem?_eq_getElem hj₀) ?_)
  · exact fun hnil => hkey ((congrArg (fun m : StoredMessage => m.message.orderingKey)
      hki.stored).trans hnil)
  · exact Option.ne_none_iff_exists'.2 ⟨id, hki.lease id hid⟩
  · have h₁ := congrArg (fun m : StoredMessage => m.message.orderingKey) hki.stored
    have h₂ := congrArg (fun m : StoredMessage => m.message.orderingKey) hkj.stored
    exact h₂.symm.trans (hsame.trans h₁)

theorem forall₂_keeps_beforePull (s : SubscriptionState) (now : LogicalInstant) (authorized : Bool) :
    List.Forall₂ (fun e e' => e.Keeps False e') s.entries (s.beforePull now authorized).entries := by
  unfold beforePull
  split_ifs
  · exact forall₂_keeps_refl
  · refine forall₂_keeps_map fun e => ?_
    cases hstate : e.state <;>
      simp [Entry.isForwardPending, hstate, Entry.Keeps.refl]
    exact ⟨rfl, rfl, by simp [Entry.isAcked, hstate], by rintro - ⟨⟩, by rintro - ⟨⟩⟩

/-- A pull changes no acknowledged entry. -/
theorem PullScan.Sound.deliver_of_acked (hsound : PullScan.Sound rules entries n scan) {e : Entry}
    (hget : entries[j]? = some e) (ha : e.isAcked = true) : scan.deliver deadline nextAckId j e = e := by
  have hnot : ∀ e', entries[j]? = some e' → e'.isDeliverable rules.now = true → False := by
    intro e' hget' hd
    rw [hget, Option.some.injEq] at hget'
    rw [← hget'] at hd
    rw [(Entry.free_of_isDeliverable hd).1] at ha
    cases ha
  rw [PullScan.deliver, if_neg, if_neg]
  · intro hmem
    obtain ⟨-, e', hget', hd, -⟩ := hsound.forwarded j hmem
    exact hnot e' hget' hd
  · intro hmem
    obtain ⟨-, e', hget', hd, -⟩ := hsound.selected j hmem
    exact hnot e' hget' hd

/-- A pull of an ordered push subscription. -/
theorem PullEffect.exclusive {r : PullOutcome × SubscriptionState} (hexclusive : Exclusive s.entries)
    (hsound : PullScan.Sound rules s.entries n scan) (heff : PullEffect s scan deadline nextAckId r)
    (ho : rules.ordered = true) (hpush : rules.push = true) : Exclusive r.2.entries := by
  intro i e he hkey hid j hj e' he' hsame
  rw [heff.getElem?_entries, Option.map_eq_some_iff] at he he'
  obtain ⟨e, he, rfl⟩ := he
  obtain ⟨e', he', rfl⟩ := he'
  rw [Entry.key, Entry.key, PullScan.deliver_stored, PullScan.deliver_stored] at hsame
  rw [Entry.key, PullScan.deliver_stored] at hkey
  suffices ha : e'.isAcked = true by rwa [hsound.deliver_of_acked he' ha]
  by_cases hsel : i ∈ scan.selected
  · rcases hsound.selected_order ho i hsel e he hkey j hj e' he' hsame with ha | ⟨-, hpull⟩
    · exact ha
    · rw [hpush] at hpull
      cases hpull
  · refine hexclusive i e he hkey ?_ j hj e' he' hsame
    rw [PullScan.deliver, if_neg hsel] at hid
    split_ifs at hid
    · exact absurd rfl hid
    · exact hid

/-- An operation that leaves an ordered push subscription configured as it is. -/
theorem Exclusive.apply (hexclusive : Exclusive s.entries) (h : s.Valid)
    (ho : s.config.enableMessageOrdering = true) (hpush : s.config.isPush = true)
    (op : Operation) : Exclusive (s.apply op).entries := by
  rcases h.apply_cases op with
    ⟨max, now, authorized, batching, nextAckId, admission, rfl⟩ | ⟨-, -, hc⟩
  · obtain ⟨scan, n, hsound, heff⟩ := pull_cases h.lagging.ackedPrefix max batching nextAckId admission rfl
    refine PullEffect.exclusive ?_ hsound heff ?_ ?_
    · exact hexclusive.of_keeps (s.forall₂_keeps_beforePull now authorized)
    · exact (congrArg SubscriptionConfig.enableMessageOrdering
        (s.config_beforePull)).trans ho
    · exact (congrArg SubscriptionConfig.isPush (s.config_beforePull)).trans hpush
  · rcases hc with ⟨kept, stored, now, hsub, heq | heq⟩ | hk | hnone
    · rw [heq, exclusive_iff_pairwise]
      exact (exclusive_iff_pairwise.1 hexclusive).sublist hsub
    · rw [heq, exclusive_iff_pairwise, pairwise_append]
      refine ⟨(exclusive_iff_pairwise.1 hexclusive).sublist hsub, pairwise_singleton _ _, ?_⟩
      intro e' _ e he _ hid
      rw [mem_singleton.1 he] at hid
      exact absurd rfl hid
    · exact hexclusive.of_keeps hk
    · intro i e he _ hid
      exact absurd (hnone e (mem_of_getElem? he)) hid

/-- A run that leaves an ordered push subscription configured as it is. -/
theorem exclusive_run {ids : List AckId} (he : Exclusive s.entries) (h : s.Leased ids)
    (ho : s.config.enableMessageOrdering = true) (hpush : s.config.isPush = true)
    {ops : List Operation} (hn : (ids ++ s.drawnIds ops).Nodup)
    (hops : ∀ op ∈ ops, ∀ config, op ≠ .replaceConfig config) : Exclusive (s.run ops).entries := by
  induction ops generalizing s ids with
  | nil => exact he
  | cons op ops ih =>
    rw [drawnIds, ← append_assoc] at hn
    have hc := s.apply_config (hops op mem_cons_self)
    exact ih (he.apply h.valid ho hpush op) (h.apply op hn.of_append_left)
      (hc ▸ ho) (hc ▸ hpush) hn fun op hop => hops op (mem_cons_of_mem _ hop)

/-- Of one ordering key at most one entry is outstanding. -/
theorem Exclusive.eq (h : Exclusive entries) {i : ℕ} {e e' : Entry} (he : entries[i]? = some e)
    (he' : entries[j]? = some e') (hkey : e.key ≠ []) (hsame : e'.key = e.key) (hid : e.state.ackId? ≠ none)
    (hid' : e'.state.ackId? ≠ none) : i = j := by
  have hfree : ∀ {e : Entry}, e.isAcked = true → e.state.ackId? = none := by
    intro e ha
    rw [Entry.isAcked, decide_eq_true_iff] at ha
    rw [ha]
    rfl
  rcases lt_trichotomy i j with hij | hij | hij
  · exact absurd (hfree (h j e' he' (hsame ▸ hkey) hid' i hij e he hsame.symm)) hid
  · exact hij
  · exact absurd (hfree (h i e he hkey hid j hij e' he' hsame)) hid'

/-! ### Every pull of every run -/

section Response

/-- What is before an entry in the log is before it as the pull sees it. -/
theorem EarlierInKey.beforePull (h : EarlierInKey s.entries j i) (now : LogicalInstant) (authorized : Bool) :
    ∃ e e', (s.beforePull now authorized).entries[i]? = some e ∧
      (s.beforePull now authorized).entries[j]? = some e' ∧ e.key ≠ [] ∧ e'.key = e.key ∧
        (e'.isAcked = true → AckedAt s.entries j) := by
  obtain ⟨-, e, e', he, he', hkey, hsame⟩ := h
  obtain ⟨e₀, he₀, hs, -⟩ := s.getElem?_beforePull now authorized he
  obtain ⟨e₀', he₀', hs', ha, -⟩ := s.getElem?_beforePull now authorized he'
  refine ⟨e₀, e₀', he₀, he₀', ?_, ?_, fun h => ⟨e', he', ha ▸ h⟩⟩
  · rwa [Entry.key, hs]
  · rwa [Entry.key, Entry.key, hs, hs']

variable
  (hsound : PullScan.Sound ((s.beforePull now authorized).pullRules max now authorized batching) (s.beforePull now authorized).entries n scan)
  (heff : PullEffect (s.beforePull now authorized) scan deadline nextAckId r)

include hsound heff

/-- A response hands out an entry after every earlier entry of its key. -/
theorem handed_order (hv : r.2.Valid) (ho : s.config.enableMessageOrdering = true) {k : ℕ} (hh : Handed r k i)
    (hearlier : EarlierInKey s.entries j i) : AckedAt s.entries j ∨ ∃ k' < k, Handed r k' j := by
  obtain ⟨e, e', he, he', hkey, hsame, ha⟩ := hearlier.beforePull now authorized
  have hk := (heff.handed_iff hsound hv).1 hh
  rw [← s.config_beforePull] at ho
  rcases hsound.selected_order ho i (mem_of_getElem? hk) e he hkey j hearlier.1 e' he'
    hsame with h | ⟨hmem, -⟩
  · exact .inl (ha h)
  · obtain ⟨k', hk'⟩ := mem_iff_getElem?.1 hmem
    exact .inr ⟨k', lt_of_getElem?_lt hsound.selected_sorted hk hk' hearlier.1, heff.handed hsound hk'⟩

/-- What a pull marks for transfer. -/
theorem forwarded_iff : Forwarded s r i ↔ i ∈ scan.forwarded := by
  constructor
  · rintro ⟨⟨e, he, hne⟩, e', he', hstate⟩
    obtain ⟨e₀, he₀, -, -, -, hp⟩ := s.getElem?_beforePull now authorized he
    rw [heff.getElem?_entries, he₀, Option.map_some, Option.some.injEq] at he'
    by_contra hnot
    rw [← he', PullScan.deliver] at hstate
    split_ifs at hstate
    · cases hstate
    · exact hne (hp hstate).1
  · intro hi
    obtain rfl := hsound.forwarded_authorized hi
    obtain ⟨-, e, he, hd, -⟩ := hsound.forwarded i hi
    have hnot : i ∉ scan.selected := fun hmem => hsound.notMem_forwarded hmem hi
    refine ⟨⟨e, he, ?_⟩, _, (heff.getElem?_entries i).trans (congrArg _ he), ?_⟩
    · obtain ⟨t, ht, -⟩ := Entry.isDeliverable_iff.1 hd
      simp [ht]
    · rw [PullScan.deliver, if_neg hnot, if_pos hi]

/-- A pull marks an entry for transfer after every earlier entry of its key is acknowledged. -/
theorem forwarded_order (ho : s.config.enableMessageOrdering = true) (hf : Forwarded s r i)
    (hearlier : EarlierInKey s.entries j i) : AckedAt s.entries j := by
  obtain ⟨e, e', he, he', hkey, hsame, ha⟩ := hearlier.beforePull now authorized
  rw [← s.config_beforePull] at ho
  exact ha (hsound.forwarded_order ho i ((forwarded_iff hsound heff).1 hf) e he
    hkey j hearlier.1 e' he' hsame)

theorem forwarded_of_mem_deadLettered {message : StoredMessage} (hmem : message ∈ r.1.deadLettered) :
    ∃ i e, s.entries[i]? = some e ∧ e.stored = message ∧ Forwarded s r i := by
  rw [heff.deadLettered] at hmem
  obtain ⟨i, hi, hs⟩ := mem_filterMap.1 hmem
  obtain ⟨e₀, he₀, rfl⟩ := Option.map_eq_some_iff.1 hs
  obtain ⟨e, he, hsame⟩ := getElem?_of_beforePull he₀
  exact ⟨i, e, he, hsame.symm, (forwarded_iff hsound heff).2 hi⟩

theorem received_key (hs : s.Valid) (ho : s.config.enableMessageOrdering = true)
    (hb : batching = .separateUnkeyed) :
    (∀ m ∈ r.1.received, m.message.message.orderingKey = []) ∨
      ∀ m ∈ r.1.received, m.message.message.orderingKey ≠ [] := by
  subst hb
  rw [← s.config_beforePull] at ho
  have hstored : ∀ m ∈ r.1.received, ∃ i ∈ scan.selected, ∃ e,
      (s.beforePull now authorized).entries[i]? = some e ∧ e.stored = m.message := by
    intro m hm
    have hmem : m.message ∈ r.1.received.map ReceivedMessage.message := mem_map_of_mem hm
    rw [heff.messages] at hmem
    obtain ⟨i, hi, hstored⟩ := mem_filterMap.1 hmem
    obtain ⟨e, he, hmsg⟩ := Option.map_eq_some_iff.1 hstored
    exact ⟨i, hi, e, he, hmsg⟩
  refine (hsound.selected_key (hs.beforePull now authorized).lagging ho).imp ?_ ?_ <;>
    intro hkey m hm <;> obtain ⟨i, hi, e, he, hmsg⟩ := hstored m hm <;> rw [← hmsg] <;>
    exact hkey i hi e he

end Response

/-- On an ordered subscription every message of a response, and every message newly transferred,
comes after the earlier entries of its ordering key; under `SeparateUnkeyed` a response does not mix
messages with and without a key; and a push subscription whose configuration never changed has at
most one entry outstanding for a key. -/
theorem ordered_delivery (config : SubscriptionConfig) (ops : List Operation) (max : ℕ) (now : LogicalInstant)
    (authorized : Bool) (batching : OrderedPullBatching) (nextAckId : ℕ → AckId)
    (admission : List StoredMessage → Bool) (hdistinct : ((new config).drawnIds
      (ops ++ [.pull max now authorized batching nextAckId admission])).Nodup) :
    let s := (new config).run ops
    let r := s.pullWithAdmission max now authorized batching nextAckId admission
    (s.config.enableMessageOrdering = true → (∀ k < r.1.received.length, ∃ i, Handed r k i) ∧
      (∀ k i j, Handed r k i → EarlierInKey s.entries j i → AckedAt s.entries j ∨ ∃ k' < k, Handed r k' j) ∧
      (∀ message ∈ r.1.deadLettered, ∃ i e, s.entries[i]? = some e ∧ e.stored = message ∧ Forwarded s r i) ∧
      (∀ i j, Forwarded s r i → EarlierInKey s.entries j i → AckedAt s.entries j) ∧
      (batching = .separateUnkeyed → (∀ m ∈ r.1.received, m.message.message.orderingKey = []) ∨
          ∀ m ∈ r.1.received, m.message.message.orderingKey ≠ [])) ∧
    (config.enableMessageOrdering = true → config.isPush = true →
      (∀ op ∈ ops, ∀ config', op ≠ .replaceConfig config') →
        ∀ (i j : ℕ) (e e' : Entry), s.entries[i]? = some e → s.entries[j]? = some e' →
          e.key ≠ [] → e'.key = e.key → e.state.ackId? ≠ none → e'.state.ackId? ≠ none → i = j) := by
  intro s r
  rw [drawnIds_append] at hdistinct
  have hs : s.Leased ((new config).drawnIds ops) :=
    leased_run hdistinct.of_append_left
  have hr : r.2.Valid := by
    have := hs.run [.pull max now authorized batching nextAckId admission] hdistinct
    exact this.valid
  obtain ⟨scan, n, hsound, heff⟩ := pull_cases hs.valid.lagging.ackedPrefix max batching nextAckId
    admission rfl
  refine ⟨fun hordered => ⟨fun k hk => ?_, fun k i j => handed_order hsound heff hr hordered,
    fun message => forwarded_of_mem_deadLettered hsound heff, fun i j => forwarded_order hsound heff hordered,
    received_key hsound heff hs.valid hordered⟩, fun hordered hpush hops i j e e' he he' => ?_⟩
  · have hlt : k < scan.selected.length := heff.length_received ▸ hk
    exact ⟨_, heff.handed hsound (List.getElem?_eq_getElem hlt)⟩
  · have hnew : Exclusive (new config).entries := fun i e he => by simp [new] at he
    exact (exclusive_run hnew (leased_new config) hordered hpush hdistinct.of_append_left
      hops).eq he he'

theorem ordered_delivery_of_sampleOps :
    let pull := fun s : SubscriptionState =>
      s.pullWithAdmission 5 10000000000 false .mixed (fun _ => ['d']) fun _ => true
    let s := (new sampleConfig).run sampleOps
    (pull s).1.received.length = 1 ∧ ∀ k < (pull s).1.received.length, ∃ i, Handed (pull s) k i :=
  ⟨by decide, ((ordered_delivery sampleConfig sampleOps 5 10000000000 false .mixed (fun _ => ['d'])
    (fun _ => true) (by decide)).1 rfl).1⟩

end SubscriptionState

end Fireemu.PubSub
