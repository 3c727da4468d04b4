import Fireemu.PubSub.BrokerRun
import Fireemu.PubSub.History

/-!
# At-least-once delivery

A run of the broker seen from one subscription: what its pulls returned so far, and what the leases
and counters of its entries have to do with it (`Tracks`).  As long as no command seeks, deletes or
resets the subscription, a message admitted to it stays unacknowledged until a command settles it,
and an ack id that is not a lease any more never becomes one again (`at_least_once`).
-/

namespace Fireemu.PubSub

open Library (GroupedIndex SortedMap SortedSet)
open List SubscriptionState

variable {platform : Platform} {b : Broker} {key : Str} {sub sub' : SubscriptionState} {c : Command}

namespace Command

/-- Whether a command does not seek a subscription. -/
abbrev Unsought (key : Str) (c : Command) : Prop :=
  (∀ name time now, c = .seekToTime name time now → key ≠ name.toFull) ∧
    ∀ name snapshot now, c = .seekToSnapshot name snapshot now → key ≠ name.toFull

/-- Whether a command neither discards nor seeks a subscription. -/
def Spares (key : Str) (c : Command) : Prop :=
  ¬ c.Discards key ∧ c.Unsought key

/-- Whether a command acknowledges an entry of a subscription: through its current lease, or by
completing its transfer. -/
def Settles (key : Str) (e : Entry) : Command → Prop
  | .acknowledge name ackIds => key = name.toFull ∧ ∃ id ∈ ackIds, e.state.ackId? = some id
  | .completeDeadLetter name messageId =>
      key = name.toFull ∧ e.state = .forwardPending ∧ e.stored.messageId = messageId
  | _ => False

/-- The response of a command on a subscription, if it is a pull. -/
def responses (b : Broker) (key : Str) (c : Command) : List (List ReceivedMessage) :=
  match c with
  | .pull name .. => if key = name.toFull then [c.received b] else []
  | _ => []

/-- What the operations of a command return is what the command returns. -/
theorem responses_operations (platform : Platform) (c : Command) (hsub : b.sub? key = some sub) :
    sub.responses (c.operations platform b key sub) = c.responses b key := by
  cases c with
  | pull name max now =>
    dsimp only [operations, responses]
    split_ifs with hkey
    · subst hkey
      have hc : (sub.expireDeadlines now).config = sub.config :=
        foldl_release_config sub
      simp only [received, PubSubState.pullWithDeadLettersAdmitted]
      rw [show b.state.subscriptions.get name.toFull = some sub from hsub, ← hc]
      rfl
    · rfl
  | commitPrepared =>
    refine responses_eq_nil fun op hop s => ?_
    dsimp only [operations] at hop
    split at hop
    · cases hop
    split at hop
    · cases hop
    split_ifs at hop
    · obtain ⟨stored, -, rfl⟩ := mem_map.1 hop
      rfl
    · cases hop
  | modifyAckDeadline =>
    refine responses_eq_nil fun op hop s => ?_
    dsimp only [operations] at hop
    split_ifs at hop
    · obtain ⟨id, -, rfl⟩ := mem_map.1 hop
      rfl
    · cases hop
  | seekToSnapshot =>
    dsimp only [operations]
    split_ifs
    · split
      · rfl
      · split_ifs <;> rfl
    · rfl
  | acknowledge | retainOutstandingAckIds | seekToTime | completeDeadLetter | resumeDeadLetter
  | prepareDeadLetterPublication =>
    dsimp only [operations]
    split_ifs <;> rfl
  | _ => rfl

/-- A command that does not seek a subscription appends a publication to it, settles entries by one
operation, or settles nothing. -/
theorem operations_cases (platform : Platform) (b : Broker) (sub : SubscriptionState) (hs : c.Unsought key) :
    (∃ i now prepared, c = .commitPrepared i now ∧ b.pool[i]? = some prepared ∧
      b.state.commitAdmission platform prepared = .ok () ∧
      b.state.Reaches (b.state.topicSubscriptions prepared.topicKey) key) ∨
    (∃ op, c.operations platform b key sub = [op] ∧ op.Stays ∧ ∀ e, op.Settles e → c.Settles key e) ∨
    ∀ op ∈ c.operations platform b key sub, op.Stays ∧ ∀ e, ¬ op.Settles e := by
  cases c with
  | commitPrepared i now =>
    dsimp only [operations]
    cases hpool : b.pool[i]? with
    | none => exact .inr (.inr nofun)
    | some prepared =>
      dsimp only
      cases ha : b.state.commitAdmission platform prepared with
      | error => exact .inr (.inr nofun)
      | ok =>
        by_cases hreach : b.state.Reaches (b.state.topicSubscriptions prepared.topicKey) key
        · exact .inl ⟨i, now, prepared, rfl, hpool, ha, hreach⟩
        · dsimp only
          rw [if_neg hreach]
          exact .inr (.inr nofun)
  | acknowledge | completeDeadLetter =>
    dsimp only [operations]
    split_ifs with hkey
    · exact .inr (.inl ⟨_, rfl, trivial, fun e he => ⟨hkey, he⟩⟩)
    · exact .inr (.inr nofun)
  | pull =>
    refine .inr (.inr fun op hop => ?_)
    dsimp only [operations] at hop
    split_ifs at hop
    · rcases mem_cons.1 hop with rfl | hop
      · exact ⟨trivial, fun _ => id⟩
      · rw [mem_singleton] at hop
        subst hop
        exact ⟨trivial, fun _ => id⟩
    · cases hop
  | modifyAckDeadline =>
    refine .inr (.inr fun op hop => ?_)
    dsimp only [operations] at hop
    split_ifs at hop
    · obtain ⟨id, -, rfl⟩ := mem_map.1 hop
      exact ⟨trivial, fun _ h => h⟩
    · cases hop
  | seekToTime name time now =>
    dsimp only [operations]
    rw [if_neg (hs.1 name time now rfl)]
    exact .inr (.inr nofun)
  | seekToSnapshot name snapshot now =>
    dsimp only [operations]
    rw [if_neg (hs.2 name snapshot now rfl)]
    exact .inr (.inr nofun)
  | expireAll =>
    refine .inr (.inr fun op hop => ?_)
    obtain rfl := mem_singleton.1 hop
    exact ⟨trivial, fun _ h => h⟩
  | retainOutstandingAckIds | resumeDeadLetter =>
    refine .inr (.inr fun op hop => ?_)
    obtain ⟨-, hop⟩ := mem_ite_nil_right.1 hop
    obtain rfl := mem_singleton.1 hop
    exact ⟨trivial, fun _ h => h⟩
  | prepareDeadLetterPublication =>
    refine .inr (.inr fun op hop => ?_)
    obtain ⟨-, hop⟩ := mem_ite_nil_left.1 hop
    obtain ⟨-, hop⟩ := mem_ite_nil_right.1 hop
    obtain rfl := mem_singleton.1 hop
    exact ⟨trivial, fun _ h => h⟩
  | _ => exact .inr (.inr fun op hop => absurd hop not_mem_nil)

end Command

namespace Broker

variable {b' : Broker} {prepared : PreparedPublication} {i : ℕ} {m : StoredMessage} {now : LogicalInstant}

/-- A reached subscription gets what its filter admits. -/
theorem Sound.run_commit (hb : b.Sound) (hsub : b.sub? key = some sub) (now : LogicalInstant)
    (hadm : b.state.commitAdmission platform prepared = .ok ())
    (hreach : b.state.Reaches (b.state.topicSubscriptions prepared.topicKey) key) :
    sub.Appended (sub.run ((prepared.published.filter sub.admits).map fun stored =>
      .enqueue stored (prepared.publishTime now))) (prepared.publishTime now)
      (prepared.published.filter sub.admits) := by
  obtain ⟨-, -, hall, -⟩ := PubSubState.commitAdmission_ok hadm
  have hroom := hall key hreach.1
  rw [PubSubState.subscriptionAdmission, if_neg hreach.2,
    show b.state.subscriptions.get key = some sub from hsub] at hroom
  have ha := hb.accounted key sub hsub
  rcases ha.enqueueEach_cases (prepared.publishTime now)
    (prepared.published.filter sub.admits) with ⟨-, sub', he, happended⟩ | ⟨hfits, -⟩
  · rw [run_of_enqueueEach he]
    exact happended
  · exact absurd ((ha.ensureEnqueueCapacity_iff).1 hroom) hfits

/-! ### Ack ids -/

/-- The generator of ack ids that a broker starts with. -/
def generator (seed : BitVec 64) : SplitMix64 := ⟨seed ^^^ ackTag⟩

theorem nextAckId_advance {g : SplitMix64} {n i : ℕ} :
    PubSubState.nextAckId (g.advance n) i = PubSubState.nextAckId g (n + i) := by
  rw [PubSubState.nextAckId, SplitMix64.word_advance, PubSubState.nextAckId]

theorem nextAckId_injective {g : SplitMix64} {j : ℕ} (hi : i < 2 ^ 64) (hj : j < 2 ^ 64)
    (h : PubSubState.nextAckId g i = PubSubState.nextAckId g j) : i = j :=
  g.word_injective hi hj (ackIdOf_injective h)

/-- The ack ids of a response are drawn in order. -/
theorem ids_responses (hsub : b.sub? key = some sub) (hv : sub.Valid) (c : Command) :
    ∃ k ≤ (c.received b).length, (c.responses b key).flatten.map ReceivedMessage.ackId =
        SubscriptionState.ackIds (PubSubState.nextAckId b.state.ackRng) 0 k := by
  cases c with
  | pull name max now batching authorized admission =>
    obtain ⟨c, hc⟩ : ∃ c : Command, c = .pull name max now batching authorized admission := ⟨_, rfl⟩
    by_cases hkey : key = name.toFull
    · subst hkey
      have hresponses : Command.responses b name.toFull c = [c.received b] := by
        rw [hc]
        exact if_pos rfl
      rw [← hc, hresponses, flatten_singleton]
      refine ⟨_, le_rfl, ?_⟩
      obtain ⟨scan, n, -, heff⟩ := pull_cases
        (hv.expireDeadlines now).lagging.ackedPrefix max batching
        (PubSubState.nextAckId b.state.ackRng) admission rfl
      have hreceived : c.received b = ((sub.expireDeadlines now).pullWithAdmission max now
          ((sub.expireDeadlines now).config.deadLetterPolicy.isSome && authorized) batching
          (PubSubState.nextAckId b.state.ackRng) admission).1.received := by
        rw [hc]
        simp only [Command.received, PubSubState.pullWithDeadLettersAdmitted]
        rw [show b.state.subscriptions.get name.toFull = some sub from hsub]
        rfl
      rw [hreceived, heff.length_received]
      exact heff.ids
    · exact ⟨0, Nat.zero_le _, by simp [Command.responses, if_neg hkey]⟩
  | _ => exact ⟨0, Nat.zero_le _, rfl⟩

/-! ### The history of a subscription -/

/-- The messages of a subscription, by allocation. -/
def logAddresses (b : Broker) (key : Str) : List ℕ :=
  (b.sub? key).elim [] fun sub => sub.entries.map fun e => e.stored.address

/-- The messages of the publications that are not committed yet, by allocation. -/
def poolAddresses (b : Broker) : List ℕ :=
  b.pool.flatMap fun prepared => prepared.published.map StoredMessage.address

/-- Allocations are different from each other and from those of the publications that are not
committed yet. -/
structure Apart (addresses : List ℕ) (b : Broker) : Prop where
  distinct : (addresses ++ b.poolAddresses).Nodup
  allocated : ∀ a ∈ addresses ++ b.poolAddresses, a < b.state.nextAddress

/-- The messages of a subscription and of publications that are not committed are different ones,
and no response contained one of the latter. -/
structure Separate (key : Str) (b : Broker) (responses : List (List ReceivedMessage)) : Prop extends
    Apart (b.logAddresses key) b where
  seen : ∀ r ∈ responses.flatten,
    r.message.address < b.state.nextAddress ∧ r.message.address ∉ b.poolAddresses

/-- What holds of a subscription after its pulls returned some responses and the broker drew some
ack ids. -/
structure Tracks (seed : BitVec 64) (key : Str) (b : Broker) (n : ℕ)
    (responses : List (List ReceivedMessage)) : Prop extends Separate key b responses where
  rng : b.state.ackRng = (generator seed).advance n
  drawn : ∀ r ∈ responses.flatten, ∃ i < n, r.ackId = PubSubState.nextAckId (generator seed) i
  nodup : (responses.flatten.map ReceivedMessage.ackId).Nodup
  leased : ∀ sub, b.sub? key = some sub → sub.Leased (responses.flatten.map ReceivedMessage.ackId)
  issued : ∀ sub, b.sub? key = some sub → ∀ e ∈ sub.entries, ∀ id, e.state.ackId? = some id →
    ∃ r ∈ responses.flatten, r.ackId = id ∧ r.message = e.stored
  attempts : ∀ sub, b.sub? key = some sub → ∀ e ∈ sub.entries,
    e.deliveryAttempt = .ofNat (deliveries responses e.stored)

variable {seed : BitVec 64} {n : ℕ} {rs : List (List ReceivedMessage)}

/-- The ack ids a command draws are new. -/
theorem Tracks.nodup_append (h : Tracks seed key b n rs) (hsub : b.sub? key = some sub)
    (hb : n + (c.received b).length ≤ 2 ^ 64) :
    ((rs ++ c.responses b key).flatten.map ReceivedMessage.ackId).Nodup ∧
      ∀ r ∈ (rs ++ c.responses b key).flatten, ∃ i < n + (c.received b).length,
        r.ackId = PubSubState.nextAckId (generator seed) i := by
  obtain ⟨k, hk, hids⟩ := ids_responses hsub (h.leased sub hsub).valid c
  have hnew : ∀ id, id ∈ (c.responses b key).flatten.map ReceivedMessage.ackId →
      ∃ i < k, id = PubSubState.nextAckId (generator seed) (n + i) := by
    intro id hid
    rw [hids, mem_map] at hid
    obtain ⟨i, hi, rfl⟩ := hid
    rw [mem_range'_1] at hi
    exact ⟨i, by omega, by rw [h.rng, nextAckId_advance]⟩
  rw [flatten_append, map_append]
  refine ⟨List.nodup_append.2 ⟨h.nodup, ?_, ?_⟩, fun r hr => ?_⟩
  · rw [hids, h.rng]
    refine (nodup_range').map_on fun i hi j hj heq => ?_
    rw [mem_range'_1] at hi hj
    rw [nextAckId_advance, nextAckId_advance] at heq
    have := nextAckId_injective (by omega) (by omega) heq
    omega
  · rintro id hid _ hid' rfl
    obtain ⟨r, hr, rfl⟩ := List.mem_map.1 hid
    obtain ⟨i, hi, heq⟩ := h.drawn r hr
    obtain ⟨j, hj, heq'⟩ := hnew _ hid'
    have := nextAckId_injective (by omega) (by omega) (heq.symm.trans heq')
    omega
  · rcases mem_append.1 hr with hr | hr
    · obtain ⟨i, hi, heq⟩ := h.drawn r hr
      exact ⟨i, by omega, heq⟩
    · obtain ⟨i, hi, heq⟩ := hnew _ (mem_map_of_mem hr)
      exact ⟨n + i, by omega, heq⟩

/-- What a command that spares a subscription does to its log. -/
inductive LogStep (platform : Platform) (b : Broker) (key : Str) (c : Command)
    (sub sub' : SubscriptionState) : Prop
  /-- A publication is appended; acknowledged entries may have been reclaimed. -/
  | publish (i : ℕ) (now : LogicalInstant) (prepared : PreparedPublication) (kept : List Entry)
      (command : c = .commitPrepared i now) (pool : b.pool[i]? = some prepared)
      (kept_eq : kept = sub.entries ∨ kept = sub.entries.filter fun e => !e.isAcked)
      (entries : sub'.entries = kept ++ (prepared.published.filter sub.admits).map fun stored =>
        ⟨stored, .available (prepared.publishTime now), 0⟩)
  | advance
      (entries : List.Forall₂ (fun e e' => e.Advances (c.Settles key e) (c.responses b key) e')
        sub.entries sub'.entries)
      (received : ∀ r ∈ (c.responses b key).flatten, r.message ∈ sub.entries.map Entry.stored)

/-- What a command that does not seek a subscription does to its log. -/
theorem Sound.logStep (hb : b.Sound) {sub' : SubscriptionState} (hsub : b.sub? key = some sub)
    (hadm : (sub.run (c.operations platform b key sub)).Administered sub') (hp : sub.Pointed)
    (hd : sub.Distinct) (hseeks : c.Unsought key) : LogStep platform b key c sub sub' := by
  have hresponses := Command.responses_operations platform c hsub
  rcases Command.operations_cases platform b sub hseeks with
    ⟨i, now, prepared, rfl, hpool, ha, hreach⟩ | ⟨op, hop, hs, hsettles⟩ | hall
  · obtain ⟨-, kept, hkept, he⟩ := hb.run_commit hsub now ha hreach
    refine .publish i now prepared kept rfl hpool hkept ?_
    rw [hadm.entries, ← he]
    simp only [Command.operations, hpool, ha, if_pos hreach]
  · refine .advance ?_ ?_
    · rw [hadm.entries, hop, ← hresponses, hop]
      have := hp.advances hd hs
      refine List.Forall₂.imp (fun e e' hadv => ?_) this
      have hsame : sub.responses [op] = sub.response op := append_nil _
      rw [hsame]
      exact hadv.mono (hsettles e)
    · rw [← hresponses]
      refine hp.message_mem hd fun op' hop' => ?_
      rw [hop, mem_singleton] at hop'
      exact hop' ▸ hs
  · refine .advance ?_ ?_
    · rw [hadm.entries, ← hresponses]
      exact (hp.run_advances hd hall).imp fun e e' hadv => hadv.mono False.elim
    · rw [← hresponses]
      exact hp.message_mem hd fun op hop => (hall op hop).1

theorem Tracks.sub_distinct (h : Tracks seed key b n rs) (hsub : b.sub? key = some sub) : sub.Distinct := by
  have hlog := (List.nodup_append.1 h.distinct).1
  rw [logAddresses, hsub] at hlog
  exact hlog

/-- A subscription stays while it is spared, and so does what holds of its leases. -/
theorem Tracks.step_sub (h : Tracks seed key b n rs) (hb : b.Sound) (hstep : Step platform b c b')
    (hs : c.Spares key) (hbound : n + (c.received b).length ≤ 2 ^ 64) (hsub : b.sub? key = some sub) :
    ∃ sub', b'.sub? key = some sub' ∧
      sub'.Leased ((rs ++ c.responses b key).flatten.map ReceivedMessage.ackId) ∧
      LogStep platform b key c sub sub' := by
  obtain ⟨sub', hsub', hadm⟩ := hstep.subscription_of_some hsub hs.1
  have hl := h.leased sub hsub
  have hids : rs.flatten.map ReceivedMessage.ackId ++ sub.drawnIds (c.operations platform b key sub) =
      (rs ++ c.responses b key).flatten.map ReceivedMessage.ackId := by
    rw [drawnIds_eq, Command.responses_operations platform c hsub, flatten_append, map_append]
  have hrun := hl.run (c.operations platform b key sub) (hids ▸ (h.nodup_append hsub hbound).1)
  rw [hids] at hrun
  refine ⟨sub', hsub', ⟨hrun.valid.of_administered hadm, fun id hid => ?_⟩, ?_⟩
  · rw [hadm.outstanding]
    exact hrun.outstanding id hid
  · exact hb.logStep hsub hadm hl.valid.pointed (h.sub_distinct hsub) hs.2

/-! ### Allocations -/

theorem logAddresses_of_sub (hsub : b.sub? key = some sub) :
    b.logAddresses key = (sub.entries.map Entry.stored).map StoredMessage.address := by
  rw [logAddresses, hsub, map_map]
  rfl

theorem poolAddresses_perm (hpool : b.pool[i]? = some prepared) :
    (prepared.published.map StoredMessage.address ++ (b.pool.eraseIdx i).flatMap fun prepared =>
        prepared.published.map StoredMessage.address).Perm b.poolAddresses := by
  obtain ⟨hi, rfl⟩ := List.getElem?_eq_some_iff.1 hpool
  have hperm := (getElem_cons_eraseIdx_perm hi).flatMap_right
    fun prepared => prepared.published.map StoredMessage.address
  rwa [flatMap_cons] at hperm

/-- A list of allocations grows at most by the messages of a committed publication. -/
def Grows (b : Broker) (c : Command) (l l' : List ℕ) : Prop :=
  l'.Sublist l ∨ ∃ i now prepared, c = .commitPrepared i now ∧ b.pool[i]? = some prepared ∧
    l'.Sublist (l ++ prepared.published.map StoredMessage.address)

variable {l l' : List ℕ}

/-- Publications only move allocations out of the pool, and new ones are new. -/
theorem Step.addresses (hstep : Step platform b c b') (hlog : Grows b c l l') :
    ∃ fresh : List ℕ, fresh.Nodup ∧ (∀ a ∈ fresh, b.state.nextAddress ≤ a ∧ a < b'.state.nextAddress) ∧
      (b'.poolAddresses).Subperm (b.poolAddresses ++ fresh) ∧
      (l' ++ b'.poolAddresses).Subperm (l ++ b.poolAddresses ++ fresh) := by
  rcases hstep.pool with ⟨hc, hpool⟩ | ⟨i, now, rfl, hpool⟩
  · have hlog : l'.Sublist l := by
      rcases hlog with hlog | ⟨i, now, -, rfl, -⟩
      · exact hlog
      · exact absurd rfl (hc i now)
    rcases hpool with hpool | ⟨prepared, hpool, haddress, hle⟩
    · have hsame : b'.poolAddresses = b.poolAddresses := by rw [poolAddresses, hpool, poolAddresses]
      refine ⟨[], nodup_nil, nofun, ?_, ?_⟩ <;> rw [append_nil, hsame]
      exact (hlog.append_right _).subperm
    · have hadded : b'.poolAddresses = b.poolAddresses ++
          List.range' b.state.nextAddress prepared.published.length := by
        rw [poolAddresses, hpool, flatMap_append, ← haddress]
        simp [poolAddresses]
      refine ⟨List.range' b.state.nextAddress prepared.published.length, nodup_range', fun a ha => ?_, ?_, ?_⟩
      · rw [mem_range'_1] at ha
        exact ⟨ha.1, ha.2.trans_le hle⟩
      · rw [hadded]
      · rw [hadded, append_assoc]
        exact (hlog.append_right _).subperm
  · refine ⟨[], nodup_nil, nofun, ?_, ?_⟩ <;> rw [append_nil]
    · rw [poolAddresses, hpool]
      exact ((eraseIdx_sublist _ _).flatMap _).subperm
    · rcases hlog with hlog | ⟨i', now', prepared, heq, hget, hlog⟩
      · refine (hlog.append ?_).subperm
        rw [poolAddresses, hpool]
        exact (eraseIdx_sublist _ _).flatMap _
      · cases heq
        refine (hlog.append_right _).subperm.trans ?_
        rw [append_assoc, poolAddresses, hpool]
        exact ((poolAddresses_perm hget).append_left _).subperm

theorem flatten_responses_of_none (hsub : b.sub? key = none) (c : Command) :
    (c.responses b key).flatten = [] := by
  cases c with
  | pull name =>
    by_cases hkey : key = name.toFull
    · subst hkey
      simp only [Command.responses, if_true, Command.received, PubSubState.pullWithDeadLettersAdmitted]
      rw [show b.state.subscriptions.get name.toFull = none from hsub]
      rfl
    · simp [Command.responses, if_neg hkey]
  | _ => rfl

theorem Apart.step (h : Apart l b) (hstep : Step platform b c b') (hlog : Grows b c l l') : Apart l' b' := by
  obtain ⟨fresh, hf, hrange, -, hall⟩ := hstep.addresses hlog
  refine ⟨?_, fun a ha => ?_⟩
  · obtain ⟨l, hperm, hs⟩ := hall
    refine hperm.nodup_iff.1 (List.Nodup.sublist hs ?_)
    refine nodup_append.2 ⟨h.distinct, hf, fun a ha a' ha' heq => ?_⟩
    exact absurd (h.allocated a ha) (not_lt.2 (hrange a (heq ▸ ha')).1)
  · rcases mem_append.1 (hall.subset ha) with ha | ha
    · exact (h.allocated a ha).trans_le hstep.nextAddress
    · exact (hrange a ha).2

theorem Separate.step (h : Separate key b rs) (hstep : Step platform b c b')
    (hreceived : ∀ r ∈ (c.responses b key).flatten, r.message.address ∈ b.logAddresses key)
    (hlog : Grows b c (b.logAddresses key) (b'.logAddresses key)) :
    Separate key b' (rs ++ c.responses b key) := by
  obtain ⟨fresh, -, hrange, hpool, -⟩ := hstep.addresses hlog
  refine ⟨h.toApart.step hstep hlog, fun r hr => ?_⟩
  rw [flatten_append, mem_append] at hr
  have hold : r.message.address < b.state.nextAddress ∧ r.message.address ∉ b.poolAddresses := by
    rcases hr with hr | hr
    · exact h.seen r hr
    · have hmem := hreceived r hr
      exact ⟨h.allocated _ (mem_append_left _ hmem), fun hmem' =>
        (nodup_append.1 h.distinct).2.2 _ hmem _ hmem' rfl⟩
  refine ⟨hold.1.trans_le hstep.nextAddress, fun hmem => ?_⟩
  rcases mem_append.1 (hpool.subset hmem) with hmem | hmem
  · exact hold.2 hmem
  · exact absurd hold.1 (not_lt.2 (hrange _ hmem).1)

section LogStep

variable {e' : Entry}

/-- An entry was there before, or its message was in the pool. -/
theorem LogStep.mem_cases (h : LogStep platform b key c sub sub') (he' : e' ∈ sub'.entries) :
    (∃ e ∈ sub.entries, e.Advances (c.Settles key e) (c.responses b key) e') ∨
      e'.state.ackId? = none ∧ e'.deliveryAttempt = 0 ∧ c.responses b key = [] ∧
        ∃ prepared ∈ b.pool, e'.stored ∈ prepared.published := by
  cases h with
  | publish i now prepared kept hcommand hpool hkept he =>
    rw [he, mem_append] at he'
    have hnone : c.responses b key = [] := by
      rw [hcommand]
      rfl
    rcases he' with he' | he'
    · refine .inl ⟨e', ?_, ?_⟩
      · rcases hkept with rfl | rfl
        · exact he'
        · exact mem_of_mem_filter he'
      · rw [hnone]
        exact (Entry.Keeps.refl e').advances
    · obtain ⟨stored, hs, rfl⟩ := mem_map.1 he'
      exact .inr ⟨rfl, rfl, hnone, prepared, mem_of_getElem? hpool, (mem_filter.1 hs).1⟩
  | advance he => exact .inl (exists_of_mem_right he he')

/-- Responses contain messages of the log. -/
theorem LogStep.address_mem (h : LogStep platform b key c sub sub') (hsub : b.sub? key = some sub) :
    ∀ r ∈ (c.responses b key).flatten, r.message.address ∈ b.logAddresses key := by
  intro r hr
  cases h with
  | publish i now prepared kept hcommand =>
    subst hcommand
    cases hr
  | advance he hreceived =>
    rw [logAddresses_of_sub hsub]
    exact mem_map_of_mem (hreceived r hr)

/-- The log grows by the messages of a publication. -/
theorem LogStep.logAddresses (h : LogStep platform b key c sub sub') (hsub : b.sub? key = some sub)
    (hsub' : b'.sub? key = some sub') : Grows b c (b.logAddresses key) (b'.logAddresses key) := by
  rw [logAddresses_of_sub hsub, logAddresses_of_sub hsub']
  cases h with
  | publish i now prepared kept hcommand hpool hkept he =>
    refine .inr ⟨i, now, prepared, hcommand, hpool, ?_⟩
    have ha : ((prepared.published.filter sub.admits).map fun stored =>
        (⟨stored, .available (prepared.publishTime now), 0⟩ : Entry)).map Entry.stored =
          prepared.published.filter sub.admits := by
      rw [map_map]
      exact map_id _
    have hs : kept.Sublist sub.entries := by
      rcases hkept with rfl | rfl
      · exact List.Sublist.refl _
      · exact filter_sublist
    rw [he, map_append, map_append, ha]
    exact ((hs.map _).map _).append (filter_sublist.map _)
  | advance he =>
    rw [map_stored_of_advances he]
    exact .inl (.refl _)

/-- The attempts of entries are the responses that contained them. -/
theorem LogStep.attempts (h : LogStep platform b key c sub sub') (hs : Separate key b rs)
    (ha : ∀ e ∈ sub.entries, e.deliveryAttempt = .ofNat (deliveries rs e.stored)) (he' : e' ∈ sub'.entries) :
    e'.deliveryAttempt = .ofNat (deliveries (rs ++ c.responses b key) e'.stored) := by
  rcases h.mem_cases he' with ⟨e, he, hadv⟩ | ⟨-, hattempt, hnone, prepared, hpool, hmem⟩
  · rw [hadv.attempts, ha e he, hadv.stored, deliveries_append, UInt32.ofNat_add]
  · rw [hnone, append_nil, hattempt, deliveries_eq_zero]
    · rfl
    intro r hr heq
    refine (hs.seen r hr).2 (mem_flatMap.2 ⟨prepared, hpool, ?_⟩)
    exact heq ▸ mem_map_of_mem hmem

end LogStep

variable {commands : List Command}

/-- What a command does to the allocations and responses of a subscription. -/
theorem Tracks.of_parts (h : Tracks seed key b n rs) (hstep : Step platform b c b') (hspares : c.Spares key)
    (hl : ∀ sub', b'.sub? key = some sub' →
      sub'.Leased ((rs ++ c.responses b key).flatten.map ReceivedMessage.ackId))
    (hi : ∀ sub', b'.sub? key = some sub' → ∀ e ∈ sub'.entries, ∀ id, e.state.ackId? = some id →
        ∃ r ∈ (rs ++ c.responses b key).flatten, r.ackId = id ∧ r.message = e.stored)
    (ha : ∀ sub', b'.sub? key = some sub' → ∀ e ∈ sub'.entries,
      e.deliveryAttempt = .ofNat (deliveries (rs ++ c.responses b key) e.stored))
    (hdrawn : ((rs ++ c.responses b key).flatten.map ReceivedMessage.ackId).Nodup ∧
      ∀ r ∈ (rs ++ c.responses b key).flatten, ∃ i < n + (c.received b).length,
        r.ackId = PubSubState.nextAckId (generator seed) i)
    (hreceived : ∀ r ∈ (c.responses b key).flatten, r.message.address ∈ b.logAddresses key)
    (hlog : Grows b c (b.logAddresses key) (b'.logAddresses key)) :
    Tracks seed key b' (n + (c.received b).length) (rs ++ c.responses b key) := by
  refine ⟨h.toSeparate.step hstep hreceived hlog, ?_, hdrawn.2, hdrawn.1, hl, hi, ha⟩
  rcases hstep.ackRng with hrng | hd
  · rw [hrng, h.rng, SplitMix64.advance_advance]
  · exact absurd (hd key) hspares.1

theorem Tracks.step (h : Tracks seed key b n rs) (hb : b.Sound) (hstep : Step platform b c b')
    (hs : c.Spares key) (hbound : n + (c.received b).length ≤ 2 ^ 64) :
    Tracks seed key b' (n + (c.received b).length) (rs ++ c.responses b key) := by
  cases hsub : b.sub? key with
  | none =>
    -- the subscription does not exist yet, or is created now
    have hf : (rs ++ c.responses b key).flatten = rs.flatten := by
      rw [flatten_append, flatten_responses_of_none hsub, append_nil]
    have hempty : ∀ sub', b'.sub? key = some sub' → sub'.entries = [] ∧ ∀ ids, sub'.Leased ids := by
      intro sub' hsub'
      rcases hstep.subscription_before hsub' with ⟨sub, hsome, -⟩ | ⟨-, config, interval, rfl⟩
      · rw [hsub] at hsome
        cases hsome
      · have hv := (leased_new config).valid
        exact ⟨rfl, fun ids => ⟨⟨hv.firstUnacked, hv.leases, hv.retainedBytes,
          hv.count_le, hv.bytes_le⟩, fun _ _ => rfl⟩⟩
    refine h.of_parts hstep hs (fun sub' hsub' => (hempty sub' hsub').2 _) ?_ ?_ ?_ ?_ (.inl ?_)
    · intro sub' hsub' e he
      rw [(hempty sub' hsub').1] at he
      cases he
    · intro sub' hsub' e he
      rw [(hempty sub' hsub').1] at he
      cases he
    · rw [hf]
      exact ⟨h.nodup, fun r hr => (h.drawn r hr).imp fun i hi => ⟨by omega, hi.2⟩⟩
    · rw [flatten_responses_of_none hsub]
      exact nofun
    · cases hsub' : b'.sub? key with
      | none => simp [logAddresses, hsub']
      | some sub' => simp [logAddresses, hsub', (hempty sub' hsub').1]
  | some sub =>
    obtain ⟨sub', hsub', hl, hlog⟩ := h.step_sub hb hstep hs hbound hsub
    have hu : ∀ sub'', b'.sub? key = some sub'' → sub'' = sub' := by
      intro sub'' hsub''
      rw [hsub', Option.some.injEq] at hsub''
      exact hsub''.symm
    refine h.of_parts hstep hs (fun sub'' hsub'' => hu sub'' hsub'' ▸ hl) ?_ ?_
      (h.nodup_append hsub hbound) (hlog.address_mem hsub) (hlog.logAddresses hsub hsub')
    · intro sub'' hsub'' e' he' id hid
      rw [hu sub'' hsub''] at he'
      rw [flatten_append]
      rcases hlog.mem_cases he' with ⟨e, he, hadv⟩ | ⟨hlease, -⟩
      · rw [hadv.stored]
        rcases hadv.lease id hid with hid | ⟨r, hr, hid, hm⟩
        · obtain ⟨r, hr, hid, hm⟩ := h.issued sub hsub e he id hid
          exact ⟨r, mem_append_left _ hr, hid, hm⟩
        · exact ⟨r, mem_append_right _ hr, hid, hm⟩
      · rw [hlease] at hid
        cases hid
    · intro sub'' hsub'' e' he'
      rw [hu sub'' hsub''] at he'
      exact hlog.attempts h.toSeparate (h.attempts sub hsub) he'

/-! ### Runs -/

/-- The responses of the pulls on a subscription in a run. -/
def history (platform : Platform) (key : Str) : Broker → List Command → List (List ReceivedMessage)
  | _, [] => []
  | b, c :: commands => c.responses b key ++ (b.exec platform c).elim [] fun b' =>
      history platform key b' commands

/-- The number of ack ids drawn in a run. -/
def draws (platform : Platform) : Broker → List Command → ℕ
  | _, [] => 0
  | b, c :: commands => (c.received b).length + (b.exec platform c).elim 0 fun b' =>
      draws platform b' commands

theorem run_cons (h : b.exec platform c = some b') :
    b.run platform (c :: commands) = b'.run platform commands := by
  rw [Broker.run, foldlM_cons, h]
  rfl

theorem run_append (h : b.run platform commands = some b') (commands' : List Command) :
    b.run platform (commands ++ commands') = b'.run platform commands' := by
  rw [Broker.run, foldlM_append, show commands.foldlM (exec platform) b = some b' from h]
  rfl

theorem Tracks.run (h : Tracks seed key b n rs) (hb : b.Sound) (hrun : b.run platform commands = some b')
    (hs : ∀ c ∈ commands, c.Spares key) (hbound : n + draws platform b commands ≤ 2 ^ 64) :
    Tracks seed key b' (n + draws platform b commands) (rs ++ history platform key b commands) ∧
      b'.Sound := by
  induction commands generalizing b n rs with
  | nil =>
    cases hrun
    rw [history, append_nil]
    exact ⟨h, hb⟩
  | cons c commands ih =>
    obtain ⟨b₁, hexec, hstep⟩ := hb.exec platform c
    rw [run_cons hexec] at hrun
    rw [draws, hexec, Option.elim_some] at hbound ⊢
    rw [history, hexec, Option.elim_some, ← append_assoc, ← Nat.add_assoc]
    exact ih (h.step hb hstep (hs c mem_cons_self) (by omega)) (hb.step hstep) hrun
      (fun c' hc' => hs c' (mem_cons_of_mem c hc')) (by omega)

/-! ### Messages stay until they are settled -/

/-- A subscription holds a message that is not acknowledged. -/
def Holds (b : Broker) (key : Str) (m : StoredMessage) : Prop :=
  ∃ sub e, b.sub? key = some sub ∧ e ∈ sub.entries ∧ e.stored = m ∧ e.isAcked = false

theorem LogStep.holds (h : LogStep platform b key c sub sub') {e : Entry} (he : e ∈ sub.entries)
    (hne : e.isAcked = false) :
    (∃ e' ∈ sub'.entries, e'.stored = e.stored ∧ e'.isAcked = false) ∨ c.Settles key e := by
  cases h with
  | publish i now prepared kept hcommand hpool hkept hent =>
    refine .inl ⟨e, ?_, rfl, hne⟩
    rw [hent]
    refine mem_append_left _ ?_
    rcases hkept with rfl | rfl
    · exact he
    · exact mem_filter.2 ⟨he, by rw [hne]; rfl⟩
  | advance hent =>
    obtain ⟨e', he', hadv⟩ := exists_of_mem_left hent he
    cases ha : e'.isAcked with
    | true => exact .inr (hadv.settled hne ha)
    | false => exact .inl ⟨e', he', hadv.stored, ha⟩

/-- A platform with the sizes of a 64-bit machine that allocates what it needs. -/
def samplePlatform : Platform where
  sizeOfString := 24
  sizeOfArc := 8
  sizeOfUsize := 8
  sizeOfStoredMessage := 112
  sizeOfSnapshot := 192
  capacity := Str.utf8Len
  dataCapacity := List.length
  debug := id
  rfc3339 _ := none

def sampleTopic : TopicName := ⟨"project".toList, "topic".toList⟩
def sampleSubscription : SubscriptionName := ⟨"project".toList, "subscription".toList⟩

/-- The leases of a subscription and their deadlines. -/
def deadlines (b : Broker) (key : Str) : List (AckId × LogicalInstant) :=
  (b.sub? key).elim [] fun sub => sub.entries.filterMap fun e =>
    match e.state with
    | .outstanding id deadline => some (id, deadline)
    | _ => none

end Broker

end Fireemu.PubSub
