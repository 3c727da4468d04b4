import Fireemu.PubSub.Ordering
import Fireemu.PubSub.Pointed

/-!
# What pulls returned

Except for publication and seeks, an operation keeps every entry where it stands and advances it:
`Entry.Advances` says what can happen to it, in terms of the responses of the pulls meanwhile.  A
message is acknowledged only by an operation that settles its entry.
-/

namespace Fireemu.PubSub

open Library (SortedMap SortedSet)
open List

/-- How many responses contained a message. -/
def deliveries (responses : List (List ReceivedMessage)) (stored : StoredMessage) : ℕ :=
  responses.countP fun response => response.any fun r => r.message.address = stored.address

variable {stored : StoredMessage}

theorem deliveries_append {responses responses' : List (List ReceivedMessage)} :
    deliveries (responses ++ responses') stored =
      deliveries responses stored + deliveries responses' stored := countP_append

/-- A message no response contained. -/
theorem deliveries_eq_zero {responses : List (List ReceivedMessage)}
    (h : ∀ r ∈ responses.flatten, r.message.address ≠ stored.address) : deliveries responses stored = 0 := by
  refine countP_eq_zero.2 fun response hresponse => ?_
  rw [any_eq_true]
  rintro ⟨r, hr, heq⟩
  exact h r (mem_flatten.2 ⟨response, hresponse, hr⟩) (of_decide_eq_true heq)

/-- Whether an operation leaves every entry where it is. -/
def Operation.Stays : Operation → Prop
  | .enqueue .. | .seekToTime .. | .seekToSnapshot .. => False
  | _ => True

/-- What can happen to an entry while pulls give some responses: its message stays, it counts the
responses that contain it, and every lease it has was given out by one of them. -/
structure Entry.Advances (e : Entry) (settled : Prop) (responses : List (List ReceivedMessage))
    (e' : Entry) : Prop where
  stored : e'.stored = e.stored
  attempts : e'.deliveryAttempt = e.deliveryAttempt + .ofNat (deliveries responses e.stored)
  acked : e.isAcked = true → e'.isAcked = true
  settled : e.isAcked = false → e'.isAcked = true → settled
  lease : ∀ id, e'.state.ackId? = some id → e.state.ackId? = some id ∨
    ∃ r ∈ responses.flatten, r.ackId = id ∧ r.message = e.stored

variable {settled settled' : Prop} {e e' : Entry}

theorem Entry.Advances.mono {responses : List (List ReceivedMessage)} (h : e.Advances settled responses e')
    (hle : settled → settled') : e.Advances settled' responses e' :=
  ⟨h.stored, h.attempts, h.acked, fun h₁ h₂ => hle (h.settled h₁ h₂), h.lease⟩

theorem Entry.Advances.trans {responses responses' : List (List ReceivedMessage)} {e'' : Entry}
    (h : e.Advances settled responses e') (h' : e'.Advances settled' responses' e'') :
    e.Advances (settled ∨ settled') (responses ++ responses') e'' where
  stored := h'.stored.trans h.stored
  attempts := by
    rw [h'.attempts, h.attempts, h.stored, deliveries_append, UInt32.ofNat_add, UInt32.add_assoc]
  acked := h'.acked ∘ h.acked
  settled hne ha := by
    cases hmid : e'.isAcked with
    | true => exact .inl (h.settled hne hmid)
    | false => exact .inr (h'.settled hmid ha)
  lease id hid := by
    rw [flatten_append]
    rcases h'.lease id hid with hid | ⟨r, hr, hid, hm⟩
    · rcases h.lease id hid with hid | ⟨r, hr, hid, hm⟩
      · exact .inl hid
      · exact .inr ⟨r, mem_append_left _ hr, hid, hm⟩
    · exact .inr ⟨r, mem_append_right _ hr, hid, hm.trans h.stored⟩

theorem Entry.Keeps.advances (h : e.Keeps settled e') : e.Advances settled [] e' :=
  ⟨h.stored, h.attempt.trans (UInt32.add_zero _).symm, h.acked, h.settled,
    fun id hid => .inl (h.lease id hid)⟩

namespace SubscriptionState

variable {s : SubscriptionState} {ops : List Operation} {rs : List (List ReceivedMessage)}
  {entries entries' : List Entry} {settles : Entry → Prop}

/-- The response of an operation, if it is a pull. -/
def response (s : SubscriptionState) : Operation → List (List ReceivedMessage)
  | .pull max now forwardingAuthorized batching nextAckId admission =>
      [(s.pullWithAdmission max now forwardingAuthorized batching nextAckId admission).1.received]
  | _ => []

/-- The responses of the pulls of a run. -/
def responses (s : SubscriptionState) : List Operation → List (List ReceivedMessage)
  | [] => []
  | op :: ops => s.response op ++ (s.apply op).responses ops

variable {op : Operation}

theorem drawn_eq : s.drawn op = (s.response op).flatten.map ReceivedMessage.ackId := by
  cases op <;> simp [drawn, response]

theorem drawnIds_eq (s : SubscriptionState) :
    s.drawnIds ops = (s.responses ops).flatten.map ReceivedMessage.ackId := by
  induction ops generalizing s with
  | nil => rfl
  | cons op ops ih => rw [drawnIds, ih, drawn_eq, responses, flatten_append, map_append]

theorem responses_eq_nil (h : ∀ op ∈ ops, ∀ s : SubscriptionState, s.response op = []) :
    s.responses ops = [] := by
  induction ops generalizing s with
  | nil => rfl
  | cons op ops ih =>
    rw [responses, h op mem_cons_self, ih fun op' hop' => h op' (mem_cons_of_mem op hop')]
    rfl

/-- The messages of the log are distinct. -/
def Distinct (s : SubscriptionState) : Prop :=
  (s.entries.map fun e => e.stored.address).Nodup

variable {i : ℕ} {id : AckId}

theorem Distinct.eq_of_getElem? (h : s.Distinct) {j : ℕ} (hi : s.entries[i]? = some e)
    (hj : s.entries[j]? = some e') (ha : e.stored.address = e'.stored.address) : i = j := by
  obtain ⟨hlt, -⟩ := List.getElem?_eq_some_iff.1 hi
  refine (List.getElem?_inj (by simpa using hlt) h).1 ?_
  rw [List.getElem?_map, List.getElem?_map, hi, hj, Option.map_some, Option.map_some, ha]

/-- A response contains an entry exactly when the pull selects it. -/
theorem Distinct.deliveries_received (h : s.Distinct) {received : List ReceivedMessage} {selected : List ℕ}
    (hm : received.map ReceivedMessage.message = storedAt s.entries selected) (hget : s.entries[i]? = some e) :
    deliveries [received] e.stored = if i ∈ selected then 1 else 0 := by
  have hany : received.any (fun r => decide (r.message.address = e.stored.address)) = true ↔
      i ∈ selected := by
    rw [any_eq_true]
    constructor
    · rintro ⟨r, hr, ha⟩
      have hmem : r.message ∈ storedAt s.entries selected := by
        rw [← hm]
        exact mem_map_of_mem hr
      obtain ⟨j, hj, hs⟩ := mem_filterMap.1 hmem
      obtain ⟨e', hget', hs⟩ := Option.map_eq_some_iff.1 hs
      have hij : j = i := by
        refine h.eq_of_getElem? hget' hget ?_
        rw [hs]
        exact of_decide_eq_true ha
      exact hij ▸ hj
    · intro hi
      have hmem : e.stored ∈ received.map ReceivedMessage.message := by
        rw [hm]
        exact mem_filterMap.2 ⟨i, hi, by rw [hget]; rfl⟩
      obtain ⟨r, hr, hs⟩ := mem_map.1 hmem
      exact ⟨r, hr, by rw [hs]; exact decide_eq_true rfl⟩
  unfold deliveries
  rw [countP_singleton]
  exact if_congr hany rfl rfl

/-- A pull advances every entry by its response. -/
theorem PullEffect.advances {rules : PullRules} {scan : PullScan} {n : ℕ} {deadline : LogicalInstant}
    {nextAckId : ℕ → AckId} {r : PullOutcome × SubscriptionState}
    (heff : PullEffect s scan deadline nextAckId r)
    (hsound : PullScan.Sound rules s.entries n scan) (hne : s.Distinct) :
    List.Forall₂ (fun e e' => e.Advances False [r.1.received] e') s.entries r.2.entries := by
  refine forall₂_iff_get.2 ⟨by rw [heff.entries, length_mapIdx], fun i hi hi' => ?_⟩
  rw [get_eq_getElem, get_eq_getElem]
  obtain ⟨e, he⟩ : ∃ e, s.entries[i] = e := ⟨_, rfl⟩
  obtain ⟨e', he'⟩ : ∃ e', r.2.entries[i] = e' := ⟨_, rfl⟩
  rw [he, he']
  have hget : s.entries[i]? = some e := by rw [getElem?_eq_getElem hi, he]
  have hget' : r.2.entries[i]? = some e' := by rw [getElem?_eq_getElem hi', he']
  have hd : e' = scan.deliver deadline nextAckId i e := by
    have := heff.getElem?_entries i
    rw [hget', hget, Option.map_some, Option.some.injEq] at this
    exact this
  have hc := hne.deliveries_received heff.messages hget
  by_cases hs : i ∈ scan.selected
  · obtain ⟨k, hk⟩ := mem_iff_getElem?.1 hs
    obtain ⟨m, e₁, hm, he₁, hstored, hid⟩ := heff.handed hsound hk
    rw [hget', Option.some.injEq] at he₁
    subst he₁
    rw [PullScan.deliver, if_pos hs] at hd
    have hstored' : e'.stored = e.stored := by
      rw [hd]
      rfl
    refine ⟨hstored', ?_, fun ha => ?_, fun _ ha => ?_, fun id hid' => .inr ⟨m, ?_, ?_, ?_⟩⟩
    · rw [hc, if_pos hs, hd]
      rfl
    · obtain ⟨-, e₂, hget₂, hdel, -⟩ := hsound.selected i hs
      rw [hget, Option.some.injEq] at hget₂
      rw [hget₂, (Entry.free_of_isDeliverable hdel).1] at ha
      cases ha
    · rw [hd] at ha
      cases ha
    · rw [flatten_singleton]
      exact mem_of_getElem? hm
    · rw [hid, Option.some.injEq] at hid'
      exact hid'
    · rw [← hstored, hstored']
  · rw [PullScan.deliver, if_neg hs] at hd
    rw [if_neg hs] at hc
    have hkeeps : e.Keeps False e' := by
      split_ifs at hd with hforward
      · obtain ⟨-, e₂, hget₂, hdel, -⟩ := hsound.forwarded i hforward
        rw [hget, Option.some.injEq] at hget₂
        have hfree := Entry.free_of_isDeliverable hdel
        rw [← hget₂] at hfree
        subst hd
        refine ⟨rfl, rfl, fun ha => ?_, by rintro - ⟨⟩, by rintro - ⟨⟩⟩
        rw [hfree.1] at ha
        cases ha
      · rw [hd]
        exact .refl e
    exact ⟨hkeeps.stored, by rw [hc, hkeeps.attempt]; exact (UInt32.add_zero _).symm, hkeeps.acked, hkeeps.settled,
      fun id hid => .inl (hkeeps.lease id hid)⟩

theorem forall₂_trans {rs' : List (List ReceivedMessage)} {entries'' : List Entry}
    (h : List.Forall₂ (fun e e' => e.Advances (settles e) rs e') entries entries')
    (h' : List.Forall₂ (fun e e' => e.Advances False rs' e') entries' entries'') :
    List.Forall₂ (fun e e' => e.Advances (settles e) (rs ++ rs') e') entries entries'' :=
  forall₂_comp (fun _ _ _ hadv hadv' => (hadv.trans hadv').mono fun h => h.resolve_right id) h h'

theorem exists_of_mem_left {α β : Type} {R : α → β → Prop} {l : List α} {l' : List β}
    (h : List.Forall₂ R l l') {a : α} (ha : a ∈ l) : ∃ b ∈ l', R a b := by
  obtain ⟨i, hi, rfl⟩ := mem_iff_getElem.1 ha
  have hi' : i < l'.length := h.length_eq ▸ hi
  exact ⟨l'[i], getElem_mem hi', h.get hi hi'⟩

theorem exists_of_mem_right {α β : Type} {R : α → β → Prop} {l : List α} {l' : List β}
    (h : List.Forall₂ R l l') {b : β} (hb : b ∈ l') : ∃ a ∈ l, R a b :=
  exists_of_mem_left h.flip hb

theorem map_stored_of_advances (h : List.Forall₂ (fun e e' => e.Advances (settles e) rs e') entries entries') :
    entries'.map Entry.stored = entries.map Entry.stored := by
  induction h with
  | nil => rfl
  | cons hhead _ ih => rw [map_cons, map_cons, hhead.stored, ih]

theorem distinct_iff : s.Distinct ↔ ((s.entries.map Entry.stored).map StoredMessage.address).Nodup := by
  rw [map_map]
  rfl

theorem Distinct.of_advances {s' : SubscriptionState} (h : s.Distinct)
    (ha : List.Forall₂ (fun e e' => e.Advances (settles e) rs e') s.entries s'.entries) : s'.Distinct := by
  rw [distinct_iff, map_stored_of_advances ha, ← distinct_iff]
  exact h

theorem forall₂_advances_of_keeps (h : List.Forall₂ (fun e e' => e.Keeps (settles e) e') entries entries') :
    List.Forall₂ (fun e e' => e.Advances (settles e) [] e') entries entries' :=
  h.imp fun _ _ hk => hk.advances

/-- An operation that stays advances every entry by its response. -/
theorem Pointed.advances (h : s.Pointed) (hd : s.Distinct) (hop : op.Stays) :
    List.Forall₂ (fun e e' => e.Advances (op.Settles e) (s.response op) e') s.entries
      (s.apply op).entries := by
  cases op with
  | enqueue => cases hop
  | seekToTime => cases hop
  | seekToSnapshot => cases hop
  | pull max now authorized batching nextAckId admission =>
    have hb := forall₂_advances_of_keeps (s.forall₂_keeps_beforePull now authorized)
    obtain ⟨s₀, hs₀⟩ : ∃ s₀, s.beforePull now authorized = s₀ := ⟨_, rfl⟩
    obtain ⟨scan, n, hs, heff⟩ :=
      pull_cases h.ackedPrefix max batching nextAckId admission hs₀
    rw [hs₀] at hb
    exact forall₂_trans hb (heff.advances hs (hd.of_advances hb))
  | _ =>
    refine forall₂_advances_of_keeps (h.update _ ?_).2
    trivial

/-- A run of operations that stay and settle nothing. -/
theorem Pointed.run_advances (h : s.Pointed) (hd : s.Distinct)
    (hops : ∀ op ∈ ops, op.Stays ∧ ∀ e, ¬ op.Settles e) :
    List.Forall₂ (fun e e' => e.Advances False (s.responses ops) e') s.entries
      (s.run ops).entries := by
  induction ops generalizing s with
  | nil => exact forall₂_advances_of_keeps (forall₂_keeps_refl)
  | cons op ops ih =>
    obtain ⟨hs, hsettles⟩ := hops op mem_cons_self
    have hf := (h.advances hd hs).imp fun e e' hadv => hadv.mono (hsettles e)
    exact forall₂_trans hf (ih (h.apply op) (hd.of_advances hf)
      fun op' hop' => hops op' (mem_cons_of_mem op hop'))

/-- A response only contains messages of the log. -/
theorem Pointed.message_mem_response (h : s.Pointed) :
    ∀ r ∈ (s.response op).flatten, r.message ∈ s.entries.map Entry.stored := by
  cases op with
  | pull max now authorized batching nextAckId admission =>
    intro r hr
    obtain ⟨s₀, hs₀⟩ : ∃ s₀, s.beforePull now authorized = s₀ := ⟨_, rfl⟩
    obtain ⟨scan, n, -, heff⟩ :=
      pull_cases h.ackedPrefix max batching nextAckId admission hs₀
    have hb := forall₂_advances_of_keeps (s.forall₂_keeps_beforePull now authorized)
    rw [← map_stored_of_advances hb, hs₀]
    rw [response, flatten_singleton] at hr
    have hmem : r.message ∈ storedAt s₀.entries scan.selected := by
      rw [← heff.messages]
      exact mem_map_of_mem hr
    obtain ⟨i, -, hs⟩ := mem_filterMap.1 hmem
    obtain ⟨e, hget, hs⟩ := Option.map_eq_some_iff.1 hs
    exact mem_map.2 ⟨e, mem_of_getElem? hget, hs⟩
  | _ => exact nofun

theorem Pointed.message_mem (h : s.Pointed) (hd : s.Distinct) (hops : ∀ op ∈ ops, op.Stays) :
    ∀ r ∈ (s.responses ops).flatten, r.message ∈ s.entries.map Entry.stored := by
  induction ops generalizing s with
  | nil => exact nofun
  | cons op ops ih =>
    intro r hr
    have hf := h.advances hd (hops op mem_cons_self)
    rw [responses, flatten_append, mem_append] at hr
    rcases hr with hr | hr
    · exact h.message_mem_response r hr
    · rw [← map_stored_of_advances hf]
      exact ih (h.apply op) (hd.of_advances hf)
        (fun op' hop' => hops op' (mem_cons_of_mem op hop')) r hr

/-! ### Ack ids that are not leased -/

end SubscriptionState

end Fireemu.PubSub
