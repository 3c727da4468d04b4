import Fireemu.Events.OutboxIndex

/-!
# Runs of the outbox

A history of a run: the queue of the last enqueue of each id, the ids in the order they became terminal, and the
number of records that were accepted.  Every call keeps the indexes exact (`Exact`) and in step with the history
(`Tracked`).
-/

namespace Fireemu.Events

open Library (SortedMap SortedSet GroupedIndex Act)
open List Library.SortedMap Library.SortedSet Library.Act

/-! ### The history of a run -/

/-- What has happened to an outbox. -/
structure History where
  queues : EventId → Option Str
  retired : List EventId
  accepted : ℕ

/-- Nothing has happened. -/
def History.empty : History := ⟨fun _ => none, [], 0⟩

/-- The event that a call appends, with its queue. -/
def OutboxCall.appended : OutboxCall → Option (LogicalEvent × Str)
  | .enqueue event => some (event, [])
  | .enqueueInQueue event queue => some (event, queue)
  | _ => none

/-- A record that is active and from an older epoch. -/
def stale (currentEpoch : Epoch) (r : EventRecord) : Bool := !r.isTerminal && r.event.epoch < currentEpoch

/-- The records that become terminal in a call, in order. -/
def Outbox.retires (o : Outbox) : OutboxCall → List EventId
  | .update id transitions => match o.records.get id with
      | none => []
      | some r => if !r.isTerminal && (transition transitions r).isTerminal then [id] else []
  | .discardStale currentEpoch => (o.records.entries.filter fun e => stale currentEpoch e.2).map Prod.fst
  | _ => []

/-- The history after a call. -/
def History.record (h : History) (o : Outbox) (c : OutboxCall) : History :=
  match c.appended with
  | some (event, queue) =>
      if o.records.contains event.eventId then h
      else ⟨Function.update h.queues event.eventId (some queue), h.retired, h.accepted + 1⟩
  | none => { h with retired := h.retired ++ o.retires c }

/-- A sequence of calls with its history; `none` if one panics. -/
def Outbox.run (o : Outbox) (h : History) : List OutboxCall → Option (Outbox × History)
  | [] => some (o, h)
  | c :: calls => (o.step c).bind fun o' => o'.run (h.record o c) calls

/-- An outbox agrees with a history. -/
structure Tracked (h : History) (o : Outbox) : Prop where
  queues : ∀ id queue, o.queueById.get id = some queue → h.queues id = some queue
  retired : ∃ gone, h.retired = gone ++ o.terminal ∧ gone.length = o.evicted
  accepted : h.accepted = o.records.size + o.evicted

/-- Terminal records stay as they are, until they are dropped. -/
def Stays (o o' : Outbox) : Prop :=
  ∀ id r, o.records.get id = some r → r.isTerminal = true → o'.records.get id = some r ∨ o'.records.get id = none

/-- No records are added, and terminal ones stay as they are until they are dropped. -/
structure Keeps (o o' : Outbox) : Prop where
  stays : Stays o o'
  absent : ∀ id, o.records.get id = none → o'.records.get id = none

theorem Keeps.refl (o : Outbox) : Keeps o o := ⟨fun _ _ hr _ => .inl hr, fun _ hnone => hnone⟩

theorem Keeps.trans {o₁ o₂ o₃ : Outbox} (h₁ : Keeps o₁ o₂) (h₂ : Keeps o₂ o₃) : Keeps o₁ o₃ :=
  ⟨fun id r hr ht => (h₁.stays id r hr ht).elim (fun hsome => h₂.stays id r hsome ht)
    fun hnone => .inr (h₂.absent id hnone), fun id hnone => h₂.absent id (h₁.absent id hnone)⟩

/-! ### Changes of one record -/

section

variable {o : Outbox} {id : EventId} {h : History} {retention : ℕ} {event : LogicalEvent}

/-- A change of a record that keeps its event, and a terminal state. -/
structure Revises (r r' : EventRecord) : Prop where
  event : r'.event = r.event
  terminal : r.isTerminal = true → r' = r

variable {r r' : EventRecord} {o' : Outbox} {gone retired : List EventId} {j : EventId} {queue : Str}
  {σ : EventId → Option EventRecord}

theorem Exact.dirty (ho : Exact o) (hr : o.records.get id = some r) (hrevises : Revises r r') :
    Dirty o.records.get id r' { o with records := o.records.insert id r' } := by
  refine ⟨fun j => get_insert _ _ _ _, fun j s hs => ?_, ho.indexed.congr rfl rfl rfl rfl fun _ _ => rfl,
    ⟨ho.partitioned.active, ho.partitioned.terminal, ho.partitioned.nodup⟩, fun j _ => ho.queues j,
    ho.retention, fun s hs => ?_, fun hnone => ?_⟩
  · change (o.records.insert id r').get j = some s at hs
    rw [get_insert] at hs
    split_ifs at hs with hj
    · cases hs
      rw [hrevises.event, hj]
      exact ho.ids id r hr
    · exact ho.ids j s hs
  · rw [hr] at hs
    cases hs
    exact ⟨hrevises.event, hrevises.terminal, ho.queues id⟩
  · rw [hr] at hnone
    cases hnone

theorem wp_update (ho : Exact o) {α : Type} {f : EventRecord → α × EventRecord} (hf : ∀ r, Revises r (f r).2)
    {Q : α → Outbox → Prop} {E : OutboxFailure → Outbox → Prop}
    (hu : o.records.get id = none → E (.refused (.unknownEventId id)) o)
    (hupdated : ∀ r gone o', o.records.get id = some r →
      Reindexed (retiredBy o.records.get id (f r).2) { o with records := o.records.insert id (f r).2 } gone o' →
      Q (f r).1 o') : Act.wp (update id f) Q E o := by
  simp only [update, wp_bind, wp_get, wp_orElse, wp_modify, wp_pure]
  refine ⟨fun r hr => ?_, hu⟩
  refine wp_mono (wp_reindex (ho.dirty hr (hf r))) ?_ fun _ _ hfalse => hfalse.elim
  rintro _ o' ⟨gone, hreindexed⟩
  exact hupdated r gone o' hr hreindexed

/-- What the re-indexing step does to the history. -/
theorem Reindexed.tracked {o₁ : Outbox} (hreindexed : Reindexed retired o₁ gone o') (ht : Tracked h o₁) :
    Tracked { h with retired := h.retired ++ retired } o' := by
  obtain ⟨dropped, hretired, hl⟩ := ht.retired
  refine ⟨fun j queue hq => ht.queues j queue (hreindexed.queue j queue hq), ⟨dropped ++ gone, ?_, ?_⟩, ?_⟩
  · change h.retired ++ retired = _
    rw [hretired, append_assoc, hreindexed.terminal, append_assoc]
  · rw [length_append, hl, hreindexed.evicted]
  · have hsize := hreindexed.size
    have he := hreindexed.evicted
    have ha := ht.accepted
    change h.accepted = _
    omega

theorem size_insert_of_get {m : SortedMap EventId EventRecord} (h : m.get j = some r) (r' : EventRecord) :
    (m.insert j r').size = m.size := by
  have := sum_insert m (fun _ _ => 1) j r'
  rw [term_of_get h, ← length_entries, ← length_entries] at this
  unfold SortedMap.size
  omega

theorem size_insert_of_get_none {m : SortedMap EventId EventRecord} (h : m.get j = none) (r : EventRecord) :
    (m.insert j r).size = m.size + 1 := by
  have := sum_insert m (fun _ _ => 1) j r
  rw [term_of_get_none h, ← length_entries, ← length_entries] at this
  unfold SortedMap.size
  omega

/-- An outbox with exact indexes that agrees with its history. -/
structure Faithful (retention : ℕ) (h : History) (o : Outbox) : Prop where
  exact : Exact o
  tracked : Tracked h o
  retention : o.terminalRetention = max retention 1

/-- A change of a record that was there. -/
theorem Faithful.revised (hf : Faithful retention h o) (hr : o.records.get id = some r)
    (hrevises : Revises r r')
    (hreindexed : Reindexed retired { o with records := o.records.insert id r' } gone o') :
    Faithful retention { h with retired := h.retired ++ retired } o' ∧ Keeps o o' := by
  refine ⟨⟨hreindexed.exact, hreindexed.tracked ⟨hf.tracked.queues, hf.tracked.retired, ?_⟩,
    hreindexed.retention.trans hf.retention⟩, fun j s hs ht => ?_, fun j hnone => ?_⟩
  · change h.accepted = (o.records.insert id r').size + o.evicted
    rw [size_insert_of_get hr, hf.tracked.accepted]
  · rw [hreindexed.get]
    split_ifs with hgone
    · exact .inr rfl
    · refine .inl ?_
      change (o.records.insert id r').get j = some s
      rw [get_insert]
      split_ifs with hj
      · subst hj
        rw [hr] at hs
        cases hs
        rw [hrevises.terminal ht]
      · exact hs

  · rw [hreindexed.get]
    split_ifs with hgone
    · rfl
    · change (o.records.insert id r').get j = none
      rw [get_insert_of_ne _ _ fun hj => ?_, hnone]
      rw [hj, hr] at hnone
      cases hnone

/-- Transition methods revise a record. -/
theorem revises_transition (transitions : List Transition) (r : EventRecord) :
    Revises r (transition transitions r) := by
  unfold transition
  induction transitions generalizing r with
  | nil => exact ⟨rfl, fun _ => rfl⟩
  | cons t transitions ih =>
    obtain ⟨he, ht⟩ := ih (t.apply r)
    refine ⟨he.trans (apply_event), fun hr => ?_⟩
    rw [foldl_cons, ht (by rw [apply_of_isTerminal hr]; exact hr), apply_of_isTerminal hr]

/-! ### Enqueue -/

theorem Exact.dirty_enqueue (ho : Exact o) (hnone : o.records.get event.eventId = none)
    (queue : Str) : Dirty o.records.get event.eventId (EventRecord.new event) { o with
      records := o.records.insert event.eventId (EventRecord.new event)
      queueById := o.queueById.insert event.eventId queue } := by
  refine ⟨fun j => get_insert _ _ _ _, fun j s hs => ?_, ho.indexed.congr rfl rfl rfl rfl fun key hkey => ?_,
    ⟨ho.partitioned.active, ho.partitioned.terminal, ho.partitioned.nodup⟩, fun j hj => ?_, ho.retention,
    fun s hs => ?_, fun _ => ⟨rfl, ?_⟩⟩
  · change (o.records.insert _ _).get j = some s at hs
    rw [get_insert] at hs
    split_ifs at hs with hj
    · cases hs
      exact hj.symm
    · exact ho.ids j s hs
  · -- a record that is not there has no pending key
    have hne : (ofLex key).2 ≠ event.eventId := fun heq => by
      obtain ⟨s, hs, -⟩ := (ho.indexed.pending (ofLex key).1 (ofLex key).2).1 hkey
      rw [heq, hnone] at hs
      cases hs
    change ((o.queueById.insert _ _).get _).getD [] = _
    rw [get_insert_of_ne _ _ hne]
    rfl
  · change ((o.queueById.insert _ _).get j).isSome ↔ _
    rw [get_insert_of_ne _ _ hj]
    exact ho.queues j
  · rw [hnone] at hs
    cases hs
  · change ((o.queueById.insert _ _).get _).isSome
    rw [get_insert_self]
    rfl

theorem Faithful.enqueued (hf : Faithful retention h o) (hnone : o.records.get event.eventId = none)
    (hreindexed : Reindexed [] { o with
      records := o.records.insert event.eventId (EventRecord.new event)
      queueById := o.queueById.insert event.eventId queue } gone o') :
    Faithful retention ⟨Function.update h.queues event.eventId (some queue), h.retired, h.accepted + 1⟩ o' ∧
      Stays o o' := by
  have ht := hreindexed.tracked
    (h := ⟨Function.update h.queues event.eventId (some queue), h.retired, h.accepted + 1⟩)
    ⟨fun j q hq => ?_, hf.tracked.retired, ?_⟩
  · rw [append_nil] at ht
    refine ⟨⟨hreindexed.exact, ht, hreindexed.retention.trans hf.retention⟩, fun j s hs _ => ?_⟩
    rw [hreindexed.get]
    split_ifs
    · exact .inr rfl
    · refine .inl ?_
      change (o.records.insert _ _).get j = some s
      rw [get_insert_of_ne _ _ fun hj => ?_, hs]
      rw [hj, hnone] at hs
      cases hs
  · change (o.queueById.insert _ _).get j = some q at hq
    change Function.update h.queues event.eventId (some queue) j = some q
    rw [get_insert] at hq
    rw [Function.update_apply]
    split_ifs at hq ⊢
    · exact hq
    · exact hf.tracked.queues j q hq
  · change h.accepted + 1 = (o.records.insert _ _).size + o.evicted
    rw [size_insert_of_get_none hnone, hf.tracked.accepted]
    omega

/-- An event is appended, or refused because its id is there. -/
theorem wp_enqueueInQueue (hf : Faithful retention h o) {c : OutboxCall}
    (hc : c.appended = some (event, queue)) :
    Act.wp (enqueueInQueue event queue) (fun _ o' => Faithful retention (h.record o c) o' ∧ Stays o o')
      (fun f o' => f ≠ .panicked ∧ Faithful retention (h.record o c) o' ∧ Stays o o') o := by
  simp only [enqueueInQueue, wp_bind, wp_get, wp_require, wp_modify]
  have hrecord : h.record o c = if o.records.contains event.eventId then h
      else ⟨Function.update h.queues event.eventId (some queue), h.retired, h.accepted + 1⟩ := by
    simp only [History.record, hc]
  rw [hrecord]
  refine ⟨fun hnew => ?_, fun hd => ?_⟩
  · have hnone : o.records.get event.eventId = none := by
      simpa [SortedMap.contains] using hnew
    rw [if_neg (by rw [hnew]; decide)]
    refine wp_mono (wp_reindex (hf.exact.dirty_enqueue hnone queue)) ?_ fun _ _ hfalse => hfalse.elim
    rintro _ o' ⟨gone, hreindexed⟩
    exact hf.enqueued hnone hreindexed
  · rw [if_pos (Bool.eq_true_of_not_eq_false hd)]
    exact ⟨by simp, hf, (Keeps.refl o).stays⟩

/-! ### Discarding stale records -/

variable {currentEpoch : Epoch}

theorem discardOne_snd : (discardOne currentEpoch r).2 = (Transition.discardStale currentEpoch).apply r := by
  cases h : r.discardStale currentEpoch <;> simp [discardOne, Transition.apply, Transition.attempt, h]

theorem retiredBy_discardOne (hr : σ id = some r) :
    retiredBy σ id (discardOne currentEpoch r).2 = if stale currentEpoch r then [id] else [] := by
  unfold retiredBy stale
  rw [hr]
  cases ht : r.isTerminal with
  | true => simp [ht]
  | false =>
    have hg : r.guard "discard" true = .ok () := by
      have hstate : ¬ r.state.isTerminal = true := Bool.eq_false_iff.1 ht
      unfold EventRecord.guard
      rw [if_neg hstate]
      rfl
    have hd : (discardOne currentEpoch r).2.isTerminal = decide (r.event.epoch < currentEpoch) := by
      unfold discardOne EventRecord.discardStale
      rw [hg]
      by_cases he : currentEpoch ≤ r.event.epoch
      · rw [decide_eq_false (not_lt.2 he), if_pos he]
        exact ht
      · rw [decide_eq_true (not_le.1 he), if_neg he]
        rfl
    simp [ht, hd]

/-- The records of a list that are stale are discarded, in order. -/
theorem wp_discardEach (currentEpoch : Epoch) (ids : List EventId) (hn : ids.Nodup)
    (hf : Faithful retention h o)
    (hids : ∀ j ∈ ids, ∃ r, σ j = some r ∧ o.records.get j = some r ∧ r.isTerminal = false) :
    Act.wp (discardEach currentEpoch ids)
      (fun _ o' => Faithful retention
        { h with retired := h.retired ++ ids.filter fun j => (σ j).any (stale currentEpoch) } o' ∧ Keeps o o')
      (fun _ _ => False) o := by
  induction ids generalizing o h with
  | nil =>
    refine wp_pure.2 ⟨?_, Keeps.refl o⟩
    rw [filter_nil, append_nil]
    exact hf
  | cons id ids ih =>
    obtain ⟨hnotMem, hn⟩ := nodup_cons.1 hn
    obtain ⟨r, hσ, hr, ha⟩ := hids id mem_cons_self
    have hrevises : ∀ r, Revises r (discardOne currentEpoch r).2 := fun r => by
      rw [discardOne_snd]
      exact revises_transition [.discardStale currentEpoch] r
    have hrecord : Act.wp (discardRecord currentEpoch id)
        (fun _ o' => ∃ gone, Reindexed (if stale currentEpoch r then [id] else [])
          { o with records := o.records.insert id (discardOne currentEpoch r).2 } gone o') (fun _ _ => False) o := by
      have hu : Act.wp (update id (discardOne currentEpoch))
          (fun _ o' => ∃ gone, Reindexed (if stale currentEpoch r then [id] else [])
            { o with records := o.records.insert id (discardOne currentEpoch r).2 } gone o') (fun _ _ => False) o := by
        refine wp_update hf.exact hrevises (fun hnone => ?_) fun r' gone o' hr' hreindexed => ⟨gone, ?_⟩
        · rw [hr] at hnone
          cases hnone
        · rw [hr] at hr'
          cases hr'
          rw [← retiredBy_discardOne hr]
          exact hreindexed
      unfold Act.wp discardRecord at *
      split at hu
      · rename_i hrun
        rw [hrun]
        exact hu
      · exact hu.elim
    rw [discardEach, wp_bind]
    refine wp_mono hrecord ?_ fun _ _ hfalse => hfalse
    rintro done o₁ ⟨gone, hreindexed⟩
    obtain ⟨hf₁, hk⟩ := hf.revised hr (hrevises r) hreindexed
    rw [wp_bind]
    refine wp_mono (ih hn hf₁ fun j hj => ?_) ?_ fun _ _ hfalse => hfalse
    · -- a record that is still to be visited is active, so it is neither changed nor dropped
      obtain ⟨s, hσs, hs, hfalse⟩ := hids j (mem_cons_of_mem id hj)
      have hne : j ≠ id := ne_of_mem_of_not_mem hj hnotMem
      refine ⟨s, hσs, ?_, hfalse⟩
      have hnotGone : j ∉ gone := fun hgone => by
        have hmem : j ∈ o.terminal ++ if stale currentEpoch r then [id] else [] := by
          rw [hreindexed.terminal]
          exact mem_append_left _ hgone
        rcases mem_append.1 hmem with ht | hid
        · obtain ⟨s', hs', htrue⟩ := (hf.exact.partitioned.terminal j).1 ht
          rw [hs] at hs'
          cases hs'
          rw [hfalse] at htrue
          cases htrue
        · split_ifs at hid
          · exact hne (mem_singleton.1 hid)
          · exact not_mem_nil hid
      rw [hreindexed.get, if_neg hnotGone]
      exact (get_insert_of_ne _ _ hne).trans hs
    · rintro discarded o₂ ⟨hf₂, hk₂⟩
      refine wp_pure.2 ⟨?_, hk.trans hk₂⟩
      have hfilter : (id :: ids).filter (fun j => (σ j).any (stale currentEpoch)) =
          (if stale currentEpoch r then [id] else []) ++ ids.filter fun j => (σ j).any (stale currentEpoch) := by
        rw [filter_cons, hσ, Option.any_some]
        split_ifs <;> rfl
      rw [hfilter, ← append_assoc]
      exact hf₂

/-! ### Runs -/

/-- The active records that are stale, in order. -/
theorem Exact.retires_discardStale (ho : Exact o) :
    o.retires (.discardStale currentEpoch) =
      o.active.toList.filter fun j => (o.records.get j).any (stale currentEpoch) := by
  refine List.Pairwise.eq_of_mem_iff (r := (· < ·)) ?_ (o.active.toList_sorted.filter _) fun j => ?_
  · exact (o.records.sorted.sublist filter_sublist).map _ fun _ _ h => h
  · unfold Outbox.retires
    rw [mem_filter, SortedSet.mem_toList, ho.partitioned.active, mem_map]
    constructor
    · rintro ⟨⟨j', r⟩, hmem, rfl⟩
      obtain ⟨hentry, hs⟩ := mem_filter.1 hmem
      have hget := mem_entries.1 hentry
      refine ⟨⟨r, hget, ?_⟩, by rw [hget]; exact hs⟩
      unfold stale at hs
      simpa using (Bool.and_eq_true_iff.1 hs).1
    · rintro ⟨⟨r, hget, -⟩, hs⟩
      rw [hget] at hs
      exact ⟨(j, r), mem_filter.2 ⟨mem_entries.2 hget, hs⟩, rfl⟩

/-- What a call does: it does not panic, and it keeps the outbox faithful. -/
theorem wp_call (hf : Faithful retention h o) (c : OutboxCall) :
    Act.wp c.run (fun _ o' => Faithful retention (h.record o c) o' ∧ Stays o o')
      (fun f o' => f ≠ .panicked ∧ Faithful retention (h.record o c) o' ∧ Stays o o') o := by
  cases c with
  | enqueue => exact wp_enqueueInQueue hf rfl
  | enqueueInQueue => exact wp_enqueueInQueue hf rfl
  | update id transitions =>
    have hrevises : ∀ r, Revises r ((), transition transitions r).2 := revises_transition transitions
    change Act.wp (update id fun r => ((), transition transitions r)) _ _ o
    refine wp_update hf.exact hrevises (fun hnone => ⟨fun h => (nomatch h), ?_, (Keeps.refl o).stays⟩)
      fun r gone o' hr hreindexed => ?_
    · have hretires : o.retires (.update id transitions) = [] := by
        simp only [Outbox.retires, hnone]
      change Faithful retention { h with retired := h.retired ++ o.retires (.update id transitions) } o
      rw [hretires, append_nil]
      exact hf
    · have hretires : o.retires (.update id transitions) = retiredBy o.records.get id (transition transitions r) := by
        simp only [Outbox.retires, retiredBy, hr, Option.any_some, Bool.and_comm]
      obtain ⟨hf', hk⟩ := hf.revised hr (revises_transition transitions r) hreindexed
      change Faithful retention { h with retired := h.retired ++ o.retires (.update id transitions) } o' ∧ _
      rw [hretires]
      exact ⟨hf', hk.stays⟩
  | discardStale currentEpoch =>
    change Act.wp (discardStale currentEpoch >>= fun _ => pure ()) _ _ o
    rw [wp_bind, discardStale, wp_bind, wp_get]
    refine wp_mono (wp_discardEach currentEpoch (σ := o.records.get) o.active.toList
      (o.active.toList_sorted.imp fun h => h.ne) hf fun j hj => ?_) ?_ fun _ _ hfalse => hfalse.elim
    · obtain ⟨r, hr, hfalse⟩ := (hf.exact.partitioned.active j).1 (SortedSet.mem_toList.1 hj)
      exact ⟨r, hr, hr, hfalse⟩
    · rintro _ o' ⟨hf', hk⟩
      refine wp_pure.2 ⟨?_, hk.stays⟩
      change Faithful retention { h with retired := h.retired ++ o.retires (.discardStale currentEpoch) } o'
      rw [hf.exact.retires_discardStale]
      exact hf'

theorem Faithful.step (hf : Faithful retention h o) (c : OutboxCall) :
    ∃ o', o.step c = some o' ∧ Faithful retention (h.record o c) o' ∧ Stays o o' := by
  have hcall := wp_call hf c
  unfold Act.wp at hcall
  unfold Outbox.step
  rcases hrun : c.run o with ⟨f | _, o'⟩ <;> rw [hrun] at hcall
  · cases f with
    | refused => exact ⟨o', rfl, hcall.2⟩
    | panicked => exact absurd rfl hcall.1
  · exact ⟨o', rfl, hcall⟩

theorem Faithful.run (hf : Faithful retention h o) (calls : List OutboxCall) :
    ∃ o' h', o.run h calls = some (o', h') ∧ Faithful retention h' o' := by
  induction calls generalizing o h with
  | nil => exact ⟨o, h, rfl, hf⟩
  | cons c calls ih =>
    obtain ⟨o₁, hstep, hf₁, -⟩ := hf.step c
    obtain ⟨o', h', hrun, hf'⟩ := ih hf₁
    exact ⟨o', h', by rw [Outbox.run, hstep]; exact hrun, hf'⟩

theorem faithful_new (retention : ℕ) :
    Faithful retention History.empty (Outbox.withTerminalRetention retention) := by
  have hnone : ∀ {P : EventRecord → Prop} (id : EventId),
      ¬ ∃ r, (Outbox.withTerminalRetention retention).records.get id = some r ∧ P r := by
    rintro P id ⟨r, hr, -⟩
    cases hr
  refine ⟨⟨fun id r hr => (nomatch hr), ⟨fun t id => ?_, .empty fun key => ?_, fun t id => ?_, fun t id => ?_⟩,
    ⟨fun id => ?_, fun id => ?_, nodup_nil⟩, fun id => ?_, Nat.zero_le _⟩,
    ⟨fun id queue hq => (nomatch hq), ⟨[], rfl, rfl⟩, rfl⟩, rfl⟩
  · exact iff_of_false (not_mem_empty _) (hnone id)
  · exact not_mem_empty key
  · exact iff_of_false (not_mem_empty _) (hnone id)
  · exact iff_of_false (fun h => (nomatch h)) (hnone id)
  · exact iff_of_false (not_mem_empty _) (hnone id)
  · exact iff_of_false not_mem_nil (hnone id)
  · exact iff_of_false (fun h => (nomatch h)) (not_mem_empty _)

/-- Merging the heads of the queues visits the dispatchable events in order. -/
theorem Exact.mergeQueues (ho : Exact o) {visits : ℕ} (hv : o.pending.size ≤ visits) :
    (o.mergeQueues visits).map (fun visit => (o.records.get (ofLex visit.1).2).map EventRecord.event) =
      o.dispatchable.map some := by
  have hm : o.mergeQueues visits = o.pending.toList.map fun key => (key, o.queueOf key) :=
    ho.indexed.byQueue.merge_heads hv
  have hp : ∀ key ∈ o.pending.toList, ((o.records.get (ofLex key).2).map EventRecord.event).isSome := by
    intro key hkey
    obtain ⟨r, hr, -⟩ := (ho.indexed.pending (ofLex key).1 (ofLex key).2).1 (SortedSet.mem_toList.1 hkey)
    rw [hr]
    rfl
  rw [hm, map_map]
  unfold Outbox.dispatchable
  exact Library.map_eq_map_some_filterMap hp

end

/-- The indexes of the outbox are exact after every run, and merging its queues visits what is dispatchable. -/
theorem outbox_indexes_exact (retention : ℕ) (calls : List OutboxCall) :
    ∃ o h, (Outbox.withTerminalRetention retention).run History.empty calls = some (o, h) ∧
      (∀ t id, toLex (t, id) ∈ o.pending ↔
        ∃ r, o.records.get id = some r ∧ r.state = .pending ∧ r.event.logicalTime = t) ∧
      (∀ queue key, key ∈ o.pendingByQueue.group queue ↔ key ∈ o.pending ∧ h.queues (ofLex key).2 = some queue) ∧
      (∀ queue keys, o.pendingByQueue.get queue = some keys → ∃ key, key ∈ keys) ∧
      (∀ t id, toLex (t, id) ∈ o.retrying ↔ ∃ r, o.records.get id = some r ∧ r.state = .retryWaiting t) ∧
      (∀ t id, o.retryAtById.get id = some t ↔ ∃ r, o.records.get id = some r ∧ r.state = .retryWaiting t) ∧
      (∀ id, id ∈ o.active ↔ ∃ r, o.records.get id = some r ∧ r.isTerminal = false) ∧
      (∀ id, (o.queueById.get id).isSome ↔ id ∈ o.active) ∧
      (∀ id, id ∈ o.terminal ↔ ∃ r, o.records.get id = some r ∧ r.isTerminal = true) ∧
      o.terminal.Nodup ∧ o.terminal.length ≤ max retention 1 ∧ o.terminal = h.retired.drop o.evicted ∧
      h.accepted = o.records.size + o.evicted ∧
      (∀ c, ∃ o', o.step c = some o' ∧ ∀ id r, o.records.get id = some r → r.isTerminal = true →
        o'.records.get id = some r ∨ o'.records.get id = none) ∧ ∀ visits, o.pending.size ≤ visits →
        (o.mergeQueues visits).map (fun visit => (o.records.get (ofLex visit.1).2).map EventRecord.event) =
          o.dispatchable.map some := by
  obtain ⟨o, h, hrun, hfaithful⟩ := (faithful_new retention).run calls
  refine ⟨o, h, hrun, hfaithful.exact.indexed.pending, fun queue key => ?_, hfaithful.exact.indexed.byQueue.ne_empty,
    hfaithful.exact.indexed.retrying, hfaithful.exact.indexed.retryAt, hfaithful.exact.partitioned.active,
    hfaithful.exact.queues, hfaithful.exact.partitioned.terminal, hfaithful.exact.partitioned.nodup,
    hfaithful.retention ▸ hfaithful.exact.retention, ?_, hfaithful.tracked.accepted, fun c => ?_,
    fun visits hvisits => hfaithful.exact.mergeQueues hvisits⟩
  · rw [hfaithful.exact.indexed.byQueue.mem_group, and_comm]
    refine and_congr_right fun hkey => ?_
    -- a pending record has a queue, and it is the one of its enqueue
    obtain ⟨r, hr, hstate, -⟩ := (hfaithful.exact.indexed.pending (ofLex key).1 (ofLex key).2).1 hkey
    have hactive : (ofLex key).2 ∈ o.active :=
      (hfaithful.exact.partitioned.active _).2 ⟨r, hr, by rw [EventRecord.isTerminal, hstate]; rfl⟩
    obtain ⟨queue', hqueue⟩ := Option.isSome_iff_exists.1 ((hfaithful.exact.queues _).2 hactive)
    rw [hfaithful.tracked.queues _ _ hqueue, Option.some.injEq]
    change (o.queueById.get (ofLex key).2).getD [] = queue ↔ _
    rw [hqueue]
    rfl
  · obtain ⟨gone, hretired, hlength⟩ := hfaithful.tracked.retired
    rw [hretired, ← hlength, List.drop_left]
  · obtain ⟨o', hstep, -, hstays⟩ := hfaithful.step c
    exact ⟨o', hstep, hstays⟩

end Fireemu.Events
