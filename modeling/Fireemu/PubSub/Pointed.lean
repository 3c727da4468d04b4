import Fireemu.PubSub.Effects

/-!
# The lease map without new ack ids

Ack ids come from a generator that repeats after 2⁶⁴ draws, and only where they are drawn new is the
lease map exact.  What every operation keeps in any case is that the map leads to entries that are
outstanding under its ack ids, so that an operation on an ack id changes no entry without a lease.
-/

namespace Fireemu.PubSub

open Library (SortedMap SortedSet)
open List

namespace SubscriptionState

variable {s : SubscriptionState}

/-- The lease map leads to leased entries, and the entries before the first unacknowledged index are
acknowledged. -/
structure Pointed (s : SubscriptionState) : Prop where
  ackedPrefix : ∀ i < s.firstUnacked, ∃ e, s.entries[i]? = some e ∧ e.isAcked = true
  leased : ∀ id i, s.outstanding.get id = some i → leaseAt s.entries i = some id

theorem Valid.pointed (h : s.Valid) : s.Pointed :=
  ⟨h.lagging.ackedPrefix, fun id i => (h.leases id i).1⟩

variable {id : AckId} {i : ℕ} {e e' : Entry}

theorem Pointed.entry_of_get (h : s.Pointed) (hget : s.outstanding.get id = some i) :
    ∃ e, s.entries[i]? = some e ∧ e.state.ackId? = some id :=
  Option.bind_eq_some_iff.1 (h.leased id i hget)

/-! ### One entry changes -/

/-- Changing an entry that is not acknowledged, where the map loses its lease or gets its new one. -/
theorem Pointed.set (h : s.Pointed) (hget : s.entries[i]? = some e) (hne : e.isAcked = false)
    {outstanding : SortedMap AckId ℕ} (hout : ∀ id j, outstanding.get id = some j →
      j = i ∧ e'.state.ackId? = some id ∨ j ≠ i ∧ s.outstanding.get id = some j) :
    Pointed { s with entries := s.entries.set i e', outstanding } where
  ackedPrefix j hj := by
    obtain ⟨e₁, hget₁, ha⟩ := h.ackedPrefix j hj
    refine ⟨e₁, ?_, ha⟩
    have hij : i ≠ j := by
      rintro rfl
      rw [hget, Option.some.injEq] at hget₁
      rw [← hget₁, hne] at ha
      cases ha
    rw [getElem?_set_ne hij, hget₁]
  leased id j hj := by
    rcases hout id j hj with ⟨rfl, hid⟩ | ⟨hji, hold⟩
    · exact (leaseAt_set_self hget).trans hid
    · exact (leaseAt_set_of_ne hji).trans (h.leased id j hold)

/-- An entry loses its lease. -/
theorem Pointed.erase (h : s.Pointed) (hid : s.outstanding.get id = some i) (hget : s.entries[i]? = some e) :
    Pointed { s with entries := s.entries.set i e', outstanding := s.outstanding.erase id } := by
  obtain ⟨e₁, hget₁, hl⟩ := h.entry_of_get hid
  rw [hget, Option.some.injEq] at hget₁
  subst hget₁
  refine h.set hget (isAcked_of_lease hl) fun id' j hj => .inr ?_
  rw [SortedMap.get_erase] at hj
  split_ifs at hj with heq
  refine ⟨?_, hj⟩
  rintro rfl
  have hl' := h.leased id' j hj
  rw [leaseAt_of_getElem? hget, hl, Option.some.injEq] at hl'
  exact heq hl'.symm

theorem Pointed.advanceFirstUnacked (h : s.Pointed) : s.advanceFirstUnacked.Pointed where
  ackedPrefix i hi := by
    dsimp only [SubscriptionState.advanceFirstUnacked] at hi ⊢
    by_cases hlt : i < s.firstUnacked
    · exact h.ackedPrefix i hlt
    · -- the index is within the acknowledged entries that follow
      obtain ⟨k, rfl⟩ := Nat.exists_eq_add_of_le (not_lt.1 hlt)
      have hk : k < ((s.entries.drop s.firstUnacked).takeWhile Entry.isAcked).length := by omega
      have hmem := getElem_mem hk
      refine ⟨_, ?_, all_eq_true.1 all_takeWhile _ hmem⟩
      obtain ⟨rest, hrest⟩ := takeWhile_prefix Entry.isAcked (l := s.entries.drop s.firstUnacked)
      rw [← getElem?_drop, ← getElem?_eq_getElem hk]
      nth_rewrite 1 [← hrest]
      exact getElem?_append_left hk
  leased := h.leased

variable {entries : List Entry}

theorem indexOutstanding_get (h : (indexOutstanding entries).get id = some i) :
    leaseAt entries i = some id := by
  induction entries using List.reverseRecOn with
  | nil => cases h
  | append_singleton entries e ih =>
    have hold : (indexOutstanding entries).get id = some i → leaseAt (entries ++ [e]) i = some id := by
      intro hget
      have hl := ih hget
      have hlt : i < entries.length := by
        obtain ⟨e', hget', -⟩ := Option.bind_eq_some_iff.1 hl
        exact (List.getElem?_eq_some_iff.1 hget').1
      rwa [leaseAt, List.getElem?_append_left hlt]
    rw [indexOutstanding_append] at h
    cases hid : e.state.ackId? with
    | none =>
      rw [hid] at h
      exact hold h
    | some =>
      rw [hid] at h
      dsimp only at h
      rw [SortedMap.get_insert] at h
      split_ifs at h with heq
      · cases h
        simp [leaseAt, hid, heq]
      · exact hold h

theorem pointed_rebuildIndexes : s.rebuildIndexes.Pointed where
  ackedPrefix i hi := by
    have hlt : i < s.entries.length := hi.trans_le findIdx_le_length
    refine ⟨s.entries[i], getElem?_eq_getElem hlt, ?_⟩
    simpa using not_of_lt_findIdx hi
  leased id i h := indexOutstanding_get h

/-! ### Updates -/

section Keeps

variable (settles settles' : Entry → Prop) {entries entries' entries'' : List Entry}

theorem forall₂_keeps_trans (h : List.Forall₂ (fun e e' => e.Keeps (settles e) e') entries entries')
    (h' : List.Forall₂ (fun e e' => e.Keeps (settles' e) e') entries' entries'')
    (hsettles : ∀ e e' : Entry, e.Keeps (settles e) e' → settles' e' → settles e) :
    List.Forall₂ (fun e e' => e.Keeps (settles e) e') entries entries'' := by
  refine forall₂_comp (fun e e' e'' hk hk' => ?_) h h'
  refine ⟨hk'.stored.trans hk.stored, hk'.attempt.trans hk.attempt, hk'.acked ∘ hk.acked, fun hne ha => ?_,
    fun id hid => hk.lease id (hk'.lease id hid)⟩
  cases hmid : e'.isAcked with
  | true => exact hk.settled hne hmid
  | false => exact hsettles _ _ hk (hk'.settled hmid ha)

theorem forall₂_keeps_mono (himp : ∀ e, settles e → settles' e)
    (h : List.Forall₂ (fun e e' => e.Keeps (settles e) e') entries entries') :
    List.Forall₂ (fun e e' => e.Keeps (settles' e) e') entries entries' :=
  h.imp fun e _ hk => ⟨hk.stored, hk.attempt, hk.acked, fun hne ha => himp e (hk.settled hne ha), hk.lease⟩

end Keeps

theorem Pointed.release (h : s.Pointed) (now : LogicalInstant) (id : AckId) :
    (s.release now id).Pointed ∧
      List.Forall₂ (fun e e' => e.Keeps False e') s.entries (s.release now id).entries := by
  unfold SubscriptionState.release
  split
  · exact ⟨h, forall₂_keeps_refl⟩
  · rename_i i hid
    obtain ⟨e, hget, hl⟩ := h.entry_of_get hid
    dsimp only [setState]
    rw [modify_eq_set hget]
    exact ⟨h.erase hid hget, forall₂_keeps_set hget (Entry.Keeps.of_lease hl rfl rfl rfl nofun)⟩

theorem Pointed.foldl_release (h : s.Pointed) (now : LogicalInstant) (ids : List AckId) :
    (ids.foldl (SubscriptionState.release now) s).Pointed ∧
      List.Forall₂ (fun e e' => e.Keeps False e') s.entries
        (ids.foldl (SubscriptionState.release now) s).entries := by
  induction ids generalizing s with
  | nil => exact ⟨h, forall₂_keeps_refl⟩
  | cons id ids ih =>
    obtain ⟨hp, hk⟩ := h.release now id
    obtain ⟨hp', hk'⟩ := ih hp
    exact ⟨hp', forall₂_keeps_trans (fun _ => False) (fun _ => False) hk hk'
      fun _ _ _ hf => hf⟩

theorem Pointed.acknowledgeOne {acc : ℕ × SubscriptionState} (h : acc.2.Pointed) (id : AckId) :
    (SubscriptionState.acknowledgeOne acc id).2.Pointed ∧
      List.Forall₂ (fun e e' => e.Keeps (e.state.ackId? = some id) e') acc.2.entries
        (SubscriptionState.acknowledgeOne acc id).2.entries := by
  unfold SubscriptionState.acknowledgeOne
  split
  · exact ⟨h, forall₂_keeps_refl⟩
  · rename_i i hid
    obtain ⟨e, hget, hl⟩ := h.entry_of_get hid
    dsimp only [setState]
    rw [modify_eq_set hget]
    exact ⟨h.erase hid hget, forall₂_keeps_set hget ⟨rfl, rfl, fun _ => rfl, fun _ _ => hl, nofun⟩⟩

theorem Pointed.foldl_acknowledgeOne (acc : ℕ × SubscriptionState) (h : acc.2.Pointed)
    (ids : List AckId) : (ids.foldl SubscriptionState.acknowledgeOne acc).2.Pointed ∧
      List.Forall₂ (fun e e' => e.Keeps (∃ id ∈ ids, e.state.ackId? = some id) e') acc.2.entries
        (ids.foldl SubscriptionState.acknowledgeOne acc).2.entries := by
  induction ids generalizing acc with
  | nil => exact ⟨h, forall₂_keeps_refl⟩
  | cons id ids ih =>
    obtain ⟨hp, hk⟩ := h.acknowledgeOne id
    obtain ⟨hp', hk'⟩ := ih _ hp
    refine ⟨hp', forall₂_keeps_trans _ _ (forall₂_keeps_mono _ _ (fun e hid => ?_) hk) hk' ?_⟩
    · exact ⟨id, mem_cons_self, hid⟩
    · rintro e e' hstep ⟨id', hmem, hid'⟩
      exact ⟨id', mem_cons_of_mem _ hmem, hstep.lease id' hid'⟩

/-- Entries stay acknowledged and keep their leases. -/
theorem Pointed.of_entries (h : s.Pointed)
    (hent : ∀ (i : ℕ) (e : Entry), s.entries[i]? = some e → ∃ e' : Entry, entries[i]? = some e' ∧
      (e.isAcked = true → e'.isAcked = true) ∧ ∀ id, e.state.ackId? = some id → e'.state.ackId? = some id) :
    Pointed { s with entries } where
  ackedPrefix i hi := by
    obtain ⟨e, hget, ha⟩ := h.ackedPrefix i hi
    obtain ⟨e', hget', ha', -⟩ := hent i e hget
    exact ⟨e', hget', ha' ha⟩
  leased id i hget := by
    obtain ⟨e, he, hid⟩ := h.entry_of_get hget
    obtain ⟨e', he', -, hid'⟩ := hent i e he
    exact (leaseAt_of_getElem? he').trans (hid' id hid)

theorem Pointed.map (h : s.Pointed) {f : Entry → Entry} (hf : ∀ e, (e.isAcked = true → (f e).isAcked = true) ∧
      ∀ id, e.state.ackId? = some id → (f e).state.ackId? = some id) :
    Pointed { s with entries := s.entries.map f } := by
  refine h.of_entries fun i e hget => ⟨f e, ?_, hf e⟩
  rw [getElem?_map, hget]
  rfl

theorem Pointed.modifyAckDeadline (h : s.Pointed) (id : AckId) (seconds : ℕ) (now : LogicalInstant) :
    (s.modifyAckDeadline id seconds now).Pointed ∧ List.Forall₂ (fun e e' => e.Keeps False e') s.entries
        (s.modifyAckDeadline id seconds now).entries := by
  unfold SubscriptionState.modifyAckDeadline
  split
  · exact ⟨h, forall₂_keeps_refl⟩
  · rename_i i hid
    split_ifs
    · exact h.release now id
    · obtain ⟨e, hget, hl⟩ := h.entry_of_get hid
      dsimp only
      rw [modify_eq_set hget]
      obtain ⟨stored, state, attempt⟩ := e
      cases state with
      | outstanding id' =>
        cases hl
        refine ⟨h.set hget rfl fun id' j hj => ?_, forall₂_keeps_set hget ?_⟩
        · by_cases hji : j = i
          · subst hji
            refine .inl ⟨rfl, ?_⟩
            have := h.leased id' j hj
            rwa [leaseAt_of_getElem? hget] at this
          · exact .inr ⟨hji, hj⟩
        · exact ⟨rfl, rfl, nofun, nofun, fun _ hid => hid⟩
      | _ => cases hl

theorem Pointed.completeForward (h : s.Pointed) (messageId : Str) :
    (s.completeForward messageId).2.Pointed := by
  unfold SubscriptionState.completeForward
  split
  · exact h
  · rename_i i hfind
    obtain ⟨hi, hcond, -⟩ := findIdx?_eq_some_iff_getElem.1 hfind
    have hget := getElem?_eq_getElem hi
    have hstate : s.entries[i].state = .forwardPending := by
      simpa [Entry.isForwardPending] using (Bool.and_eq_true_iff.1 hcond).2
    refine Pointed.advanceFirstUnacked ?_
    dsimp only [setState]
    rw [modify_eq_set hget]
    refine h.set hget (by simp [Entry.isAcked, hstate]) fun id j hj => .inr ⟨?_, hj⟩
    rintro rfl
    have := h.leased id j hj
    rw [leaseAt_of_getElem? hget, hstate] at this
    cases this

/-- An update keeps every entry where it stands. -/
theorem Pointed.update (h : s.Pointed) (op : Operation) (hop : op.IsUpdate) :
    (s.apply op).Pointed ∧
      List.Forall₂ (fun e e' => e.Keeps (op.Settles e) e') s.entries (s.apply op).entries := by
  have hnone : ∀ {s' : SubscriptionState}, s'.Pointed ∧
      List.Forall₂ (fun e e' => e.Keeps False e') s.entries s'.entries →
      s'.Pointed ∧ List.Forall₂ (fun e e' => e.Keeps (op.Settles e) e') s.entries s'.entries :=
    fun ⟨hp, hk⟩ => ⟨hp, forall₂_keeps_mono (fun _ => False) _ (fun _ => False.elim) hk⟩
  cases op with
  | enqueue => cases hop
  | pull => cases hop
  | seekToTime => cases hop
  | seekToSnapshot => cases hop
  | acknowledge ackIds =>
    obtain ⟨hp, hk⟩ := Pointed.foldl_acknowledgeOne (0, s) h ackIds
    exact ⟨hp.advanceFirstUnacked, hk⟩
  | modifyAckDeadline ackId seconds now => exact hnone (h.modifyAckDeadline ackId seconds now)
  | expireDeadlines now => exact hnone (h.foldl_release now _)
  | completeForward messageId =>
    refine ⟨h.completeForward messageId, ?_⟩
    rw [apply]
    rcases s.completeForward_entries messageId with ⟨i, e, hget, hid, hstate, -, he⟩ | heq
    · rw [he]
      exact forall₂_keeps_set hget ⟨rfl, rfl, fun _ => rfl, fun _ _ => ⟨hstate, hid⟩, by rintro - ⟨⟩⟩
    · rw [heq]
      exact forall₂_keeps_refl
  | resumeForward message =>
    have hcond : ∀ {e : Entry}, (e.isForwardPending && decide (e.stored.address = message.address)) =
        true → e.state = .forwardPending := fun h => by
      simpa [Entry.isForwardPending] using (Bool.and_eq_true_iff.1 h).1
    refine ⟨h.map fun e => ?_, forall₂_keeps_map fun e => ?_⟩ <;> split_ifs with hpend
    · have hstate := hcond hpend
      simp [Entry.isAcked, hstate, Delivery.ackId?]
    · exact ⟨id, fun _ => id⟩
    · have hstate := hcond hpend
      refine ⟨rfl, rfl, fun ha => ?_, by rintro - ⟨⟩, by rintro - ⟨⟩⟩
      simp [Entry.isAcked, hstate] at ha
    · exact Entry.Keeps.refl e
  | replaceConfig => exact ⟨⟨h.ackedPrefix, h.leased⟩, forall₂_keeps_refl⟩
  | setPushMinimumRedeliveryInterval =>
    exact ⟨⟨h.ackedPrefix, h.leased⟩, forall₂_keeps_refl⟩

/-! ### Publication, pulls and seeks -/

theorem Pointed.enqueue (h : s.Pointed) (stored : StoredMessage) (now : LogicalInstant) :
    (s.enqueue stored now).2.Pointed := by
  refine enqueue_induction stored now h (pointed_rebuildIndexes) fun s h _ =>
    ⟨fun i hi => ?_, fun id i hid => ?_⟩
  · obtain ⟨e, hget, ha⟩ := h.ackedPrefix i hi
    refine ⟨e, ?_, ha⟩
    exact (List.getElem?_append_left (List.getElem?_eq_some_iff.1 hget).1).trans hget
  · exact (leaseAt_append_of_none rfl).trans (h.leased id i hid)

theorem Pointed.lease {acc : List ReceivedMessage × SubscriptionState} (h : acc.2.Pointed)
    (hget : acc.2.entries[i]? = some e) (hne : e.isAcked = false) (hid : e.state.ackId? = none)
    (deadline : LogicalInstant) (nextAckId : ℕ → AckId) :
    (SubscriptionState.lease deadline nextAckId acc i).2.Pointed := by
  rw [lease_of_getElem? hget]
  refine h.set hget hne fun id j hj => ?_
  rw [SortedMap.get_insert] at hj
  split_ifs at hj with heq
  · cases hj
    exact .inl ⟨rfl, by rw [heq]; rfl⟩
  · refine .inr ⟨?_, hj⟩
    rintro rfl
    have hl := h.leased id j hj
    rw [leaseAt_of_getElem? hget, hid] at hl
    cases hl

theorem Pointed.foldl_lease {deadline : LogicalInstant} {nextAckId : ℕ → AckId} {selected : List ℕ}
    (acc : List ReceivedMessage × SubscriptionState) (h : acc.2.Pointed) (hn : selected.Nodup)
    (hfree : ∀ i ∈ selected, ∃ e, acc.2.entries[i]? = some e ∧ e.isAcked = false ∧ e.state.ackId? = none) :
    (selected.foldl (SubscriptionState.lease deadline nextAckId) acc).2.Pointed := by
  induction selected generalizing acc with
  | nil => exact h
  | cons i selected ih =>
    obtain ⟨hnot, hn⟩ := nodup_cons.1 hn
    obtain ⟨e, hget, hne, hid⟩ := hfree i mem_cons_self
    rw [foldl_cons]
    refine ih _ (h.lease hget hne hid deadline nextAckId) hn fun j hj => ?_
    obtain ⟨e', hget', hrest⟩ := hfree j (mem_cons_of_mem _ hj)
    refine ⟨e', ?_, hrest⟩
    have hij : i ≠ j := fun hij => hnot (hij ▸ hj)
    rw [lease_of_getElem? hget]
    exact (getElem?_set_ne hij).trans hget'

theorem Pointed.beforePull (h : s.Pointed) (now : LogicalInstant) (forwardingAuthorized : Bool) :
    (s.beforePull now forwardingAuthorized).Pointed := by
  unfold SubscriptionState.beforePull
  split_ifs
  · exact h
  · refine h.map fun e => ?_
    cases hstate : e.state <;> simp [Entry.isForwardPending, Entry.isAcked, hstate, Delivery.ackId?]

theorem Pointed.pull (h : s.Pointed) (max : ℕ) (now : LogicalInstant) (forwardingAuthorized : Bool)
    (batching : OrderedPullBatching) (nextAckId : ℕ → AckId) (admission : List StoredMessage → Bool) :
    (s.pullWithAdmission max now forwardingAuthorized batching nextAckId admission).2.Pointed := by
  obtain ⟨s₀, hs₀⟩ : ∃ s₀, s.beforePull now forwardingAuthorized = s₀ := ⟨_, rfl⟩
  have h₀ : s₀.Pointed := hs₀ ▸ h.beforePull now forwardingAuthorized
  rcases s.pull_eq max batching nextAckId admission hs₀ with heq | heq <;>
    rw [heq]
  · exact h₀
  have hs := sound_scan h₀.ackedPrefix (s₀.pullRules max now forwardingAuthorized batching)
  obtain ⟨scan, hscan⟩ : ∃ scan, s₀.scan (s₀.pullRules max now forwardingAuthorized batching) = scan :=
    ⟨_, rfl⟩
  rw [hscan] at hs ⊢
  have hm : (s₀.markForwards scan.forwarded).Pointed := by
    rw [markForwards_eq]
    refine h₀.of_entries fun i e hget => ?_
    rw [getElem?_mapIdx, hget, Option.map_some]
    refine ⟨_, rfl, ?_⟩
    split_ifs with hmem
    · obtain ⟨-, e', hget', hd, -⟩ := hs.forwarded i hmem
      rw [hget, Option.some.injEq] at hget'
      obtain ⟨hne, hid⟩ := Entry.free_of_isDeliverable (hget' ▸ hd)
      simp [hne, hid]
    · exact ⟨id, fun _ => id⟩
  refine Pointed.advanceFirstUnacked (Pointed.foldl_lease ([], s₀.markForwards scan.forwarded)
    hm (hs.selected_sorted.imp ne_of_lt) fun i hi => free_of_selected hs hi)

/-- Every operation keeps the map sound. -/
theorem Pointed.apply (h : s.Pointed) (op : Operation) : (s.apply op).Pointed := by
  cases op with
  | enqueue stored now => exact h.enqueue stored now
  | pull max now authorized batching nextAckId admission =>
    exact h.pull max now authorized batching nextAckId admission
  | seekToTime time now =>
    change (s.seekToTime time now).2.Pointed
    unfold SubscriptionState.seekToTime
    split_ifs
    · exact h
    · exact pointed_rebuildIndexes
  | seekToSnapshot captured retained unacknowledged createdAt now =>
    change (s.seekToSnapshot captured retained unacknowledged createdAt now).2.Pointed
    unfold SubscriptionState.seekToSnapshot
    dsimp only
    split_ifs
    · exact h
    · exact pointed_rebuildIndexes
    · exact pointed_rebuildIndexes
  | _ =>
    refine (h.update _ ?_).1
    trivial

theorem Pointed.run (h : s.Pointed) (ops : List Operation) : (s.run ops).Pointed := by
  induction ops generalizing s with
  | nil => exact h
  | cons op ops ih => exact ih (h.apply op)

end SubscriptionState

end Fireemu.PubSub
