import Fireemu.PubSub.Pull

/-!
# What an operation does to the log

The operations of a subscription as data, and runs of them.  An operation that is no publication, no pull
and no seek keeps every entry where it stands (`Entry.Keeps`): it gives out no lease, and acknowledges an
entry only through its lease or by completing its transfer.
-/

namespace Fireemu.PubSub

open Library (SortedMap SortedSet)
open List

/-- An operation of a subscription. -/
inductive Operation
  | enqueue (stored : StoredMessage) (now : LogicalInstant)
  | pull (max : ℕ) (now : LogicalInstant) (forwardingAuthorized : Bool)
      (batching : OrderedPullBatching) (nextAckId : ℕ → AckId)
      (admission : List StoredMessage → Bool)
  | acknowledge (ackIds : List AckId)
  | modifyAckDeadline (ackId : AckId) (seconds : ℕ) (now : LogicalInstant)
  | expireDeadlines (now : LogicalInstant)
  | completeForward (messageId : Str)
  | resumeForward (message : StoredMessage) (now : LogicalInstant)
  | seekToTime (time now : LogicalInstant)
  | seekToSnapshot (capturedMessages : List StoredMessage)
      (retainedMessageIds unacknowledgedMessageIds : SortedSet Str)
      (createdAt now : LogicalInstant)
  | replaceConfig (config : SubscriptionConfig)
  | setPushMinimumRedeliveryInterval (interval : LogicalDuration)

namespace SubscriptionState

/-- Executes an operation. -/
def apply (s : SubscriptionState) : Operation → SubscriptionState
  | .enqueue stored now => (s.enqueue stored now).2
  | .pull max now forwardingAuthorized batching nextAckId admission =>
      (s.pullWithAdmission max now forwardingAuthorized batching nextAckId admission).2
  | .acknowledge ackIds => (s.acknowledge ackIds).2
  | .modifyAckDeadline ackId seconds now => s.modifyAckDeadline ackId seconds now
  | .expireDeadlines now => s.expireDeadlines now
  | .completeForward messageId => (s.completeForward messageId).2
  | .resumeForward message now => s.resumeForward message now
  | .seekToTime time now => (s.seekToTime time now).2
  | .seekToSnapshot captured retained unacknowledged createdAt now =>
      (s.seekToSnapshot captured retained unacknowledged createdAt now).2
  | .replaceConfig config => s.replaceConfig config
  | .setPushMinimumRedeliveryInterval interval =>
      { s with pushMinimumRedeliveryInterval := interval }

/-- The ack ids an operation draws. -/
def drawn (s : SubscriptionState) : Operation → List AckId
  | .pull max now forwardingAuthorized batching nextAckId admission =>
      (s.pullWithAdmission max now forwardingAuthorized batching nextAckId
        admission).1.received.map ReceivedMessage.ackId
  | _ => []

/-- Executes operations in order. -/
def run (s : SubscriptionState) (ops : List Operation) : SubscriptionState := ops.foldl apply s

/-- The ack ids a run draws. -/
def drawnIds (s : SubscriptionState) : List Operation → List AckId
  | [] => []
  | op :: ops => s.drawn op ++ (s.apply op).drawnIds ops

theorem drawnIds_append (s : SubscriptionState) {ops ops' : List Operation} :
    s.drawnIds (ops ++ ops') = s.drawnIds ops ++ (s.run ops).drawnIds ops' := by
  induction ops generalizing s with
  | nil => rfl
  | cons op ops ih =>
    rw [cons_append, drawnIds, ih, drawnIds, append_assoc]
    rfl

end SubscriptionState

/-! ### What an operation can do -/

/-- Whether an operation acknowledges an entry: through its current lease, or by completing its
transfer. -/
def Operation.Settles (op : Operation) (e : Entry) : Prop :=
  match op with
  | .acknowledge ackIds => ∃ id ∈ ackIds, e.state.ackId? = some id
  | .completeForward messageId => e.state = .forwardPending ∧ e.stored.messageId = messageId
  | _ => False

/-- Whether an operation only updates entries: it is no publication, no pull and no seek. -/
def Operation.IsUpdate : Operation → Prop
  | .enqueue .. | .pull .. | .seekToTime .. | .seekToSnapshot .. => False
  | _ => True

/-- A change of an entry that gives out no lease and takes back no acknowledgement; `settled` says
when it may acknowledge the entry. -/
structure Entry.Keeps (e : Entry) (settled : Prop) (e' : Entry) : Prop where
  stored : e'.stored = e.stored
  attempt : e'.deliveryAttempt = e.deliveryAttempt
  acked : e.isAcked = true → e'.isAcked = true
  settled : e.isAcked = false → e'.isAcked = true → settled
  lease : ∀ id, e'.state.ackId? = some id → e.state.ackId? = some id

theorem Entry.Keeps.refl (e : Entry) {settled : Prop} : e.Keeps settled e :=
  ⟨rfl, rfl, id, fun h h' => absurd h' (by rw [h]; exact Bool.false_ne_true), fun _ => id⟩

namespace SubscriptionState

variable {s : SubscriptionState} {ids : List AckId}

theorem makeRoom_sublist (s : SubscriptionState) (bytes : ℕ) :
    (s.makeRoom bytes).entries.Sublist s.entries := by
  unfold makeRoom
  split_ifs
  · exact filter_sublist
  · exact List.Sublist.refl _

/-- Publication reclaims entries, and appends the message or refuses it. -/
theorem enqueue_entries (s : SubscriptionState) (stored : StoredMessage) (now : LogicalInstant) :
    (s.enqueue stored now).2.entries = (s.makeRoom (messageBytes stored)).entries ∨
      (s.enqueue stored now).2.entries =
        (s.makeRoom (messageBytes stored)).entries ++ [⟨stored, .available now, 0⟩] := by
  unfold enqueue
  dsimp only
  split_ifs
  · exact .inl rfl
  · exact .inl rfl
  · exact .inr rfl

variable {settles : Entry → Prop} {entries : List Entry} {e e' : Entry} {id : AckId}

theorem forall₂_comp {α β γ : Type} {R : α → β → Prop} {S : β → γ → Prop} {T : α → γ → Prop} {l : List α}
    {l' : List β} {l'' : List γ} (hT : ∀ a b c, R a b → S b c → T a c) (h : List.Forall₂ R l l')
    (h' : List.Forall₂ S l' l'') : List.Forall₂ T l l'' := by
  induction h generalizing l'' with
  | nil =>
    cases h'
    exact .nil
  | cons hhead _ ih =>
    cases h' with
    | cons hhead' htail' => exact .cons (hT _ _ _ hhead hhead') (ih htail')

theorem forall₂_keeps_refl : List.Forall₂ (fun e e' => e.Keeps (settles e) e') entries entries :=
  forall₂_same.2 fun e _ => Entry.Keeps.refl e

theorem forall₂_keeps_map {f : Entry → Entry} (hf : ∀ e : Entry, e.Keeps (settles e) (f e)) :
    List.Forall₂ (fun e e' => e.Keeps (settles e) e') entries (entries.map f) :=
  forall₂_map_right_iff.2 (forall₂_same.2 fun e _ => hf e)

theorem forall₂_keeps_set {i : ℕ} (hget : entries[i]? = some e) (hk : e.Keeps (settles e) e') :
    List.Forall₂ (fun e e' => e.Keeps (settles e) e') entries (entries.set i e') := by
  refine forall₂_iff_get.2 ⟨by simp, fun j hj hj' => ?_⟩
  rw [get_eq_getElem, get_eq_getElem, getElem_set]
  split_ifs with hij
  · subst hij
    rw [getElem?_eq_getElem hj, Option.some.injEq] at hget
    exact hget ▸ hk
  · exact Entry.Keeps.refl _

/-- An entry with a lease is not acknowledged. -/
theorem isAcked_of_lease (h : e.state.ackId? = some id) : e.isAcked = false := by
  rw [Entry.isAcked, decide_eq_false_iff_not]
  intro ha
  rw [ha] at h
  cases h

/-- Taking a lease back keeps an entry, as it was not acknowledged. -/
theorem Entry.Keeps.of_lease {settled : Prop} (hl : e.state.ackId? = some id) (hs : e'.stored = e.stored)
    (hattempt : e'.deliveryAttempt = e.deliveryAttempt) (hne : e'.isAcked = false)
    (hid : ∀ id, e'.state.ackId? = some id → e.state.ackId? = some id) : e.Keeps settled e' := by
  refine ⟨hs, hattempt, fun ha => ?_, fun _ ha => ?_, hid⟩
  · rw [isAcked_of_lease hl] at ha
    cases ha
  · rw [hne] at ha
    cases ha

variable {now : LogicalInstant}

theorem release_config : (s.release now id).config = s.config := by
  unfold release
  split <;> rfl

theorem foldl_release_config (s : SubscriptionState) :
    (ids.foldl (SubscriptionState.release now) s).config = s.config :=
  ids.foldlRecOn (motive := (SubscriptionState.config · = s.config)) _ rfl fun _ h _ _ => release_config.trans h

/-- A completed transfer acknowledges one entry that waits for it, or nothing. -/
theorem completeForward_entries (s : SubscriptionState) (messageId : Str) :
    (∃ i e, s.entries[i]? = some e ∧ e.stored.messageId = messageId ∧ e.state = .forwardPending ∧
      (s.completeForward messageId).1 = true ∧
      (s.completeForward messageId).2.entries = s.entries.set i { e with state := .acked }) ∨
    s.completeForward messageId = (false, s) := by
  unfold completeForward
  cases hfind : s.entries.findIdx? fun e =>
      decide (e.stored.messageId = messageId) && e.isForwardPending with
  | none => exact .inr rfl
  | some i =>
    obtain ⟨hi, hcond, -⟩ := findIdx?_eq_some_iff_getElem.1 hfind
    have he := getElem?_eq_getElem hi
    rw [Bool.and_eq_true, decide_eq_true_iff] at hcond
    refine .inl ⟨i, s.entries[i], he, hcond.1, ?_, rfl, ?_⟩
    · simpa [Entry.isForwardPending] using hcond.2
    · exact modify_eq_set he _

end SubscriptionState

end Fireemu.PubSub
