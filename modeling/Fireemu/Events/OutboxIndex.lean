import Fireemu.Events.Outbox
import Fireemu.Library.MapUnion

/-!
# The indexes of the outbox are exact

`Exact` says what each index of an outbox holds.  A change of a record leaves the indexes of the old record
(`Dirty`); the re-indexing step makes them exact again (`wp_reindex`).
-/

namespace Fireemu.Events

open Library (SortedMap SortedSet GroupedIndex Act)
open List Library.SortedMap Library.SortedSet Function

/-- The dispatch queue of a key. -/
def Outbox.queueOf (o : Outbox) (key : DispatchKey) : Str := (o.queueById.get (ofLex key).2).getD []

/-- The pending and the retry indexes hold exactly the records of a view. -/
structure Indexed (σ : EventId → Option EventRecord) (o : Outbox) : Prop where
  pending : ∀ t id, toLex (t, id) ∈ o.pending ↔
    ∃ r, σ id = some r ∧ r.state = .pending ∧ r.event.logicalTime = t
  byQueue : GroupedIndex.Exact o.queueOf (· ∈ o.pending) o.pendingByQueue
  retrying : ∀ t id, toLex (t, id) ∈ o.retrying ↔ ∃ r, σ id = some r ∧ r.state = .retryWaiting t
  retryAt : ∀ t id, o.retryAtById.get id = some t ↔ ∃ r, σ id = some r ∧ r.state = .retryWaiting t

/-- The active and the terminal ids are exactly those of the records of a view. -/
structure Partitioned (σ : EventId → Option EventRecord) (o : Outbox) : Prop where
  active : ∀ id, id ∈ o.active ↔ ∃ r, σ id = some r ∧ r.isTerminal = false
  terminal : ∀ id, id ∈ o.terminal ↔ ∃ r, σ id = some r ∧ r.isTerminal = true
  nodup : o.terminal.Nodup

/-- The indexes of an outbox are exact. -/
structure Exact (o : Outbox) : Prop where
  ids : ∀ id r, o.records.get id = some r → r.event.eventId = id
  indexed : Indexed o.records.get o
  partitioned : Partitioned o.records.get o
  queues : ∀ id, (o.queueById.get id).isSome ↔ id ∈ o.active
  retention : o.terminal.length ≤ o.terminalRetention

/-- A record of an outbox with exact indexes has been changed, or added. -/
structure Dirty (σ : EventId → Option EventRecord) (id : EventId) (r : EventRecord) (o : Outbox) : Prop where
  records : ∀ j, o.records.get j = if j = id then some r else σ j
  ids : ∀ j s, o.records.get j = some s → s.event.eventId = j
  indexed : Indexed σ o
  partitioned : Partitioned σ o
  queues : ∀ j, j ≠ id → ((o.queueById.get j).isSome ↔ j ∈ o.active)
  retention : o.terminal.length ≤ o.terminalRetention
  /-- A record that was there keeps its event, and its state if that is terminal. -/
  old : ∀ s, σ id = some s → r.event = s.event ∧ (s.isTerminal = true → r = s) ∧
    ((o.queueById.get id).isSome ↔ id ∈ o.active)
  /-- A record that was added is pending. -/
  fresh : σ id = none → r.state = .pending ∧ (o.queueById.get id).isSome

section

variable {σ : EventId → Option EventRecord} {o : Outbox} {id : EventId}

/-- A record leaves the pending and the retry indexes. -/
theorem Indexed.unindex (h : Indexed σ o) {t : LogicalInstant}
    (htime : ∀ r, σ id = some r → r.event.logicalTime = t)
    (hqueue : toLex (t, id) ∈ o.pending → (o.queueById.get id).isSome) :
    Indexed (Function.update σ id none) (o.unindex (toLex (t, id))) := by
  refine ⟨fun t' id' => ?_, ?_, fun t' id' => ?_, fun t' id' => ?_⟩
  · change toLex (t', id') ∈ o.pending.erase (toLex (t, id)) ↔ _
    rw [mem_erase, h.pending, update_apply]
    split_ifs with hid
    · subst hid
      refine iff_of_false ?_ (by simp)
      rintro ⟨hne, r, hr, -, rfl⟩
      exact hne (by rw [htime r hr])
    · exact and_iff_right fun heq => hid (congrArg (fun key => (ofLex key).2) heq)
  · change GroupedIndex.Exact o.queueOf (· ∈ o.pending.erase (toLex (t, id))) _
    simp only [Outbox.unindex, ofLex_toLex]
    cases hq : o.queueById.get id with
    | none =>
      have hnot : toLex (t, id) ∉ o.pending := fun hmem => by
        have := hqueue hmem
        rw [hq] at this
        cases this
      rw [erase_of_not_mem hnot]
      exact h.byQueue
    | some queue =>
      have hkey : o.queueOf (toLex (t, id)) = queue := by
        change (o.queueById.get id).getD [] = queue
        rw [hq]
        rfl
      rw [← hkey]
      exact h.byQueue.removeFrom _ fun key => mem_erase
  · simp only [Outbox.unindex, ofLex_toLex, update_apply]
    cases hretry : o.retryAtById.get id with
    | none =>
      rw [h.retrying]
      split_ifs with hid
      · subst hid
        refine iff_of_false ?_ (by simp)
        intro he
        rw [← h.retryAt, hretry] at he
        cases he
      · rfl
    | some retryAt =>
      rw [mem_erase, h.retrying]
      split_ifs with hid
      · subst hid
        refine iff_of_false ?_ (by simp)
        rintro ⟨hne, he⟩
        rw [← h.retryAt, hretry] at he
        cases he
        exact hne rfl
      · exact and_iff_right fun heq => hid (congrArg (fun key => (ofLex key).2) heq)
  · change (o.retryAtById.erase id).get id' = some t' ↔ _
    rw [get_erase, update_apply]
    split_ifs with hid
    · simp
    · exact h.retryAt t' id'

/-- Only the queues of pending keys matter, and only the pending and the retry indexes. -/
theorem Indexed.congr {o' : Outbox} (h : Indexed σ o) (hp : o'.pending = o.pending)
    (hb : o'.pendingByQueue = o.pendingByQueue) (hretrying : o'.retrying = o.retrying)
    (hretryAt : o'.retryAtById = o.retryAtById) (hq : ∀ key ∈ o.pending, o'.queueOf key = o.queueOf key) :
    Indexed σ o' := by
  refine ⟨?_, ?_, ?_, ?_⟩
  · rw [hp]
    exact h.pending
  · rw [hp, hb]
    exact h.byQueue.congr_key hq
  · rw [hretrying]
    exact h.retrying
  · rw [hretryAt]
    exact h.retryAt

/-- A record is in one of the pending and retry indexes. -/
def Waits (r : EventRecord) : Prop := r.state = .pending ∨ ∃ t, r.state = .retryWaiting t

/-- Another view with the same pending and waiting records. -/
theorem Indexed.congr_view {τ : EventId → Option EventRecord} (h : Indexed σ o)
    (hview : ∀ id r, Waits r → (σ id = some r ↔ τ id = some r)) : Indexed τ o := by
  refine ⟨fun t id => (h.pending t id).trans ?_, h.byQueue, fun t id => (h.retrying t id).trans ?_,
    fun t id => (h.retryAt t id).trans ?_⟩
  · exact exists_congr fun r => and_congr_left fun hr => hview id r (.inl hr.1)
  · exact exists_congr fun r => and_congr_left fun hr => hview id r (.inr ⟨t, hr⟩)
  · exact exists_congr fun r => and_congr_left fun hr => hview id r (.inr ⟨t, hr⟩)

/-- What is found of a record that enters a view. -/
theorem exists_update_iff (hid : σ id = none) (r : EventRecord) (P : EventRecord → Prop) (j : EventId) :
    (∃ s, Function.update σ id (some r) j = some s ∧ P s) ↔ (j = id ∧ P r) ∨ ∃ s, σ j = some s ∧ P s := by
  rw [update_apply]
  split_ifs with hj
  · subst hj
    simp [hid]
  · simp [hj]

variable {r : EventRecord}

/-- A pending record enters the indexes. -/
theorem Indexed.addPending (h : Indexed σ o) (hid : σ id = none) (hstate : r.state = .pending) {queue : Str}
    (hq : o.queueById.get id = some queue) (active : SortedSet EventId) :
    Indexed (Function.update σ id (some r)) { o with
      pending := o.pending.add (toLex (r.event.logicalTime, id))
      pendingByQueue := o.pendingByQueue.addTo queue (toLex (r.event.logicalTime, id))
      active } := by
  refine ⟨fun t j => ?_, ?_, fun t j => ?_, fun t j => ?_⟩
  · rw [exists_update_iff hid, mem_add, h.pending, toLex_inj, Prod.mk.injEq]
    refine or_congr_left ?_
    rw [and_comm, and_iff_right hstate, eq_comm (a := t)]
  · have hkey : o.queueOf (toLex (r.event.logicalTime, id)) = queue := by
      change (o.queueById.get id).getD [] = queue
      rw [hq]
      rfl
    have hadd := h.byQueue.addTo (toLex (r.event.logicalTime, id)) fun key => mem_add
    rw [hkey] at hadd
    exact hadd
  · rw [exists_update_iff hid, h.retrying]
    simp [hstate]
  · rw [exists_update_iff hid, h.retryAt]
    simp [hstate]

/-- A record in no index enters the view. -/
theorem Indexed.addOther (h : Indexed σ o) (hid : σ id = none) (hr : ¬ Waits r) (active : SortedSet EventId) :
    Indexed (Function.update σ id (some r)) { o with active } := by
  refine Indexed.congr_view ⟨h.pending, h.byQueue, h.retrying, h.retryAt⟩ fun j s hs => ?_
  rw [update_apply]
  split_ifs with hj
  · refine iff_of_false (fun hsome => ?_) fun hsome => ?_
    · rw [hj, hid] at hsome
      cases hsome
    · cases hsome
      exact hr hs
  · rfl

/-- A record that waits for a retry enters the indexes. -/
theorem Indexed.addRetry (h : Indexed σ o) (hid : σ id = none) {retryAt : LogicalInstant}
    (hstate : r.state = .retryWaiting retryAt) (active : SortedSet EventId) :
    Indexed (Function.update σ id (some r)) { o with
      retrying := o.retrying.add (toLex (retryAt, id))
      retryAtById := o.retryAtById.insert id retryAt
      active } := by
  refine ⟨fun t j => ?_, h.byQueue, fun t j => ?_, fun t j => ?_⟩
  · rw [exists_update_iff hid, h.pending]
    simp [hstate]
  · rw [exists_update_iff hid, mem_add, h.retrying, toLex_inj, Prod.mk.injEq, hstate,
      EventState.retryWaiting.injEq]
    refine or_congr_left ?_
    rw [and_comm, eq_comm (a := t)]
  · rw [exists_update_iff hid, get_insert, hstate, EventState.retryWaiting.injEq]
    split_ifs with hj
    · subst hj
      simp [hid]
    · rw [h.retryAt]
      simp [hj]

/-! ### Eviction -/

theorem size_erase {m : SortedMap EventId EventRecord} {j : EventId} (h : m.get j = some r) :
    (m.erase j).size + 1 = m.size := by
  have := sum_erase m (fun _ _ => 1) j
  rw [term_of_get h, ← length_entries, ← length_entries] at this
  unfold SortedMap.size
  omega

theorem evictLoop_spec (retention : ℕ) {terminal : List EventId} (records : SortedMap EventId EventRecord)
    (evicted : ℕ) (hn : terminal.Nodup) (hp : ∀ j ∈ terminal, ∃ r, records.get j = some r) :
    ∃ gone, terminal = gone ++ (Outbox.evictLoop retention terminal records evicted).1 ∧
      (Outbox.evictLoop retention terminal records evicted).1.length ≤ retention ∧
      (∀ j, (Outbox.evictLoop retention terminal records evicted).2.1.get j =
        if j ∈ gone then none else records.get j) ∧
      (Outbox.evictLoop retention terminal records evicted).2.1.size + gone.length = records.size ∧
      (Outbox.evictLoop retention terminal records evicted).2.2 = evicted + gone.length := by
  induction terminal generalizing records evicted with
  | nil => exact ⟨[], rfl, Nat.zero_le _, fun _ => rfl, rfl, rfl⟩
  | cons oldest terminal ih =>
    obtain ⟨hnotMem, hn⟩ := nodup_cons.1 hn
    obtain ⟨r, hr⟩ := hp oldest mem_cons_self
    rw [Outbox.evictLoop]
    split_ifs with hlong
    · have hp' : ∀ j ∈ terminal, ∃ r, (records.erase oldest).get j = some r := fun j hj => by
        rw [get_erase_of_ne _ (ne_of_mem_of_not_mem hj hnotMem)]
        exact hp j (mem_cons_of_mem _ hj)
      obtain ⟨gone, ht, hl, hget, hsize, he⟩ := ih _ (evicted + 1) hn hp'
      refine ⟨oldest :: gone, congrArg (oldest :: ·) ht, hl, fun j => ?_, ?_, ?_⟩
      · rw [hget, get_erase]
        by_cases hj : j = oldest
        · simp [hj]
        · simp [hj]
      · have := size_erase hr
        rw [length_cons]
        omega
      · rw [he, length_cons]
        omega
    · exact ⟨[], rfl, not_lt.1 hlong, fun _ => rfl, rfl, rfl⟩

/-! ### The re-indexing step -/

/-- What the re-indexing step makes of a changed outbox: exact indexes, without the terminal records that it
has dropped. -/
structure Reindexed (retired : List EventId) (o : Outbox) (gone : List EventId) (o' : Outbox) : Prop where
  exact : Exact o'
  queue : ∀ j queue, o'.queueById.get j = some queue → o.queueById.get j = some queue
  terminal : o.terminal ++ retired = gone ++ o'.terminal
  evicted : o'.evicted = o.evicted + gone.length
  get : ∀ j, o'.records.get j = if j ∈ gone then none else o.records.get j
  size : o'.records.size + gone.length = o.records.size
  retention : o'.terminalRetention = o.terminalRetention

namespace Dirty

variable {r : EventRecord}

theorem time (h : Dirty σ id r o) {s : EventRecord} (hs : σ id = some s) :
    s.event.logicalTime = r.event.logicalTime := by
  rw [(h.old s hs).1]

theorem records_eq (h : Dirty σ id r o) : o.records.get = Function.update σ id (some r) := by
  funext j
  rw [h.records, update_apply]

/-- A changed record that is not terminal has a queue. -/
theorem queue (h : Dirty σ id r o) (hr : r.isTerminal = false) : ∃ queue, o.queueById.get id = some queue := by
  refine Option.isSome_iff_exists.1 ?_
  cases hs : σ id with
  | none => exact (h.fresh hs).2
  | some s =>
    obtain ⟨-, ht, hq⟩ := h.old s hs
    refine hq.2 ((h.partitioned.active id).2 ⟨s, hs, Bool.eq_false_iff.2 fun htrue => ?_⟩)
    rw [ht htrue, htrue] at hr
    cases hr

theorem unindexed (h : Dirty σ id r o) :
    Indexed (Function.update σ id none) (o.unindex (toLex (r.event.logicalTime, id))) := by
  refine h.indexed.unindex (fun s hs => h.time hs) fun hmem => ?_
  obtain ⟨s, hs, hstate, -⟩ := (h.indexed.pending _ id).1 hmem
  refine (h.old s hs).2.2.2 ((h.partitioned.active id).2 ⟨s, hs, ?_⟩)
  unfold EventRecord.isTerminal
  rw [hstate]
  rfl

variable {o' : Outbox}

/-- A changed record that is not terminal is active afterwards. -/
theorem settled (h : Dirty σ id r o) (hr : r.isTerminal = false)
    (hi : Indexed (Function.update σ id (some r)) o') (hrecords : o'.records = o.records)
    (ha : o'.active = o.active.add id) (hqueues : o'.queueById = o.queueById) (ht : o'.terminal = o.terminal)
    (hretention : o'.terminalRetention = o.terminalRetention) (he : o'.evicted = o.evicted) :
    Reindexed [] o [] o' := by
  have hnot : ∀ s, σ id = some s → s.isTerminal = false := fun s hs => Bool.eq_false_iff.2 fun htrue => by
    rw [(h.old s hs).2.1 htrue, htrue] at hr
    cases hr
  refine ⟨⟨fun j s hs => h.ids j s (hrecords ▸ hs), ?_, ⟨fun j => ?_, fun j => ?_, ht ▸ h.partitioned.nodup⟩,
    fun j => ?_, ?_⟩, fun j queue hq => hqueues ▸ hq, ?_, he, fun j => ?_, ?_, hretention⟩
  · rw [hrecords, h.records_eq]
    exact hi
  · rw [ha, mem_add, h.partitioned.active, hrecords, h.records]
    split_ifs with hj
    · simp [hj, hr]
    · simp [hj]
  · rw [ht, h.partitioned.terminal, hrecords, h.records]
    split_ifs with hj
    · subst hj
      refine iff_of_false ?_ (by simp [hr])
      rintro ⟨s, hs, htrue⟩
      rw [hnot s hs] at htrue
      cases htrue
    · rfl
  · rw [hqueues, ha, mem_add]
    by_cases hj : j = id
    · subst hj
      obtain ⟨queue, hqueue⟩ := h.queue hr
      simp [hqueue]
    · rw [h.queues j hj]
      simp [hj]
  · rw [ht, hretention]
    exact h.retention
  · rw [ht]
    simp
  · rw [hrecords]
    simp
  · rw [hrecords]
    rfl

/-- The indexes after a terminal record has left them, whatever terminal records are dropped. -/
theorem indexed_retired (h : Dirty σ id r o) (hr : r.isTerminal = true) {gone : List EventId}
    (hgone : ∀ j ∈ gone, j = id ∨ j ∈ o.terminal)
    (hget : ∀ j, o'.records.get j = if j ∈ gone then none else o.records.get j)
    (hp : o'.pending = (o.unindex (toLex (r.event.logicalTime, id))).pending)
    (hb : o'.pendingByQueue = (o.unindex (toLex (r.event.logicalTime, id))).pendingByQueue)
    (hretrying : o'.retrying = (o.unindex (toLex (r.event.logicalTime, id))).retrying)
    (hretryAt : o'.retryAtById = (o.unindex (toLex (r.event.logicalTime, id))).retryAtById)
    (hq : o'.queueById = o.queueById.erase id) : Indexed o'.records.get o' := by
  have hi := h.unindexed
  have hw : ∀ s : EventRecord, Waits s → s.isTerminal = false := fun s hs => by
    unfold EventRecord.isTerminal
    rcases hs with hstate | ⟨t, hstate⟩ <;> rw [hstate] <;> rfl
  refine (hi.congr hp hb hretrying hretryAt fun key hkey => ?_).congr_view fun j s hs => ?_
  · -- the record has no pending key left
    have hne : (ofLex key).2 ≠ id := by
      rintro rfl
      obtain ⟨s, hs, -⟩ := (hi.pending (ofLex key).1 (ofLex key).2).1 hkey
      rw [update_self] at hs
      cases hs
    unfold Outbox.queueOf
    rw [hq, get_erase_of_ne _ hne]
    rfl
  · rw [hget, update_apply, h.records]
    by_cases hj : j = id
    · rw [if_pos hj, if_pos hj]
      refine iff_of_false (fun hnone => (nomatch hnone)) fun hsome => ?_
      split_ifs at hsome
      cases hsome
      rw [hw r hs] at hr
      cases hr
    · rw [if_neg hj, if_neg hj]
      split_ifs with hmem
      · refine iff_of_false (fun hsome => ?_) fun hnone => (nomatch hnone)
        obtain ⟨s', hs', htrue⟩ := (h.partitioned.terminal j).1 ((hgone j hmem).resolve_left hj)
        rw [hsome] at hs'
        cases hs'
        rw [hw s hs] at htrue
        cases htrue
      · rfl

/-- A record that has become terminal leaves the active ones, and the oldest terminal records are dropped. -/
theorem retired (h : Dirty σ id r o) (hr : r.isTerminal = true) (hactive : id ∈ o.active) :
    ∃ gone, Reindexed [id] o gone ((o.unindex (toLex (r.event.logicalTime, id))).retire id) := by
  have hnotMem : id ∉ o.terminal := fun hmem => by
    obtain ⟨s, hs, hf⟩ := (h.partitioned.active id).1 hactive
    obtain ⟨s', hs', htrue⟩ := (h.partitioned.terminal id).1 hmem
    rw [hs] at hs'
    cases hs'
    rw [hf] at htrue
    cases htrue
  have hn : (o.terminal ++ [id]).Nodup := by
    rw [nodup_append]
    refine ⟨h.partitioned.nodup, nodup_singleton id, fun a ha b hb => ?_⟩
    rw [mem_singleton.1 hb]
    exact ne_of_mem_of_not_mem ha hnotMem
  have hget : ∀ j, j ∈ o.terminal ++ [id] ↔ ∃ s, o.records.get j = some s ∧ s.isTerminal = true := fun j => by
    rw [mem_append, mem_singleton, h.partitioned.terminal, h.records]
    split_ifs with hj
    · simp [hj, hr]
    · simp [hj]
  obtain ⟨gone, ht, hl, hrecords, hsize, he⟩ := evictLoop_spec o.terminalRetention o.records o.evicted hn fun j hj => ((hget j).1 hj).imp fun _ hs => hs.1
  have hretire : (o.unindex (toLex (r.event.logicalTime, id))).retire id =
      Outbox.evict { o.unindex (toLex (r.event.logicalTime, id)) with
        queueById := o.queueById.erase id
        active := o.active.erase id
        terminal := o.terminal ++ [id] } := if_pos hactive
  rw [hretire]
  unfold Outbox.evict
  change ∃ gone, Reindexed [id] o gone { o.unindex (toLex (r.event.logicalTime, id)) with
    queueById := o.queueById.erase id
    active := o.active.erase id
    terminal := (Outbox.evictLoop o.terminalRetention (o.terminal ++ [id]) o.records o.evicted).1
    records := (Outbox.evictLoop o.terminalRetention (o.terminal ++ [id]) o.records o.evicted).2.1
    evicted := (Outbox.evictLoop o.terminalRetention (o.terminal ++ [id]) o.records o.evicted).2.2 }
  generalize Outbox.evictLoop o.terminalRetention (o.terminal ++ [id]) o.records o.evicted = result at *
  rw [ht] at hn
  refine ⟨gone, ⟨fun j s hs => ?_, ?_, ⟨fun j => ?_, fun j => ?_, (nodup_append.1 hn).2.1⟩, fun j => ?_,
    hl⟩, fun j queue hq => ?_, ht, he, hrecords, hsize, rfl⟩
  · change result.2.1.get j = some s at hs
    rw [hrecords] at hs
    split_ifs at hs
    exact h.ids j s hs
  · refine h.indexed_retired hr (fun j hj => ?_) hrecords rfl rfl rfl rfl rfl
    have hmem : j ∈ o.terminal ++ [id] := by
      rw [ht]
      exact mem_append_left _ hj
    exact (mem_append.1 hmem).symm.imp_left mem_singleton.1
  · change j ∈ o.active.erase id ↔ ∃ s, result.2.1.get j = some s ∧ _
    rw [mem_erase, h.partitioned.active, hrecords]
    split_ifs with hgone
    · refine iff_of_false ?_ (by simp)
      rintro ⟨hj, s, hs, hf⟩
      have hmem : j ∈ o.terminal ++ [id] := by
        rw [ht]
        exact mem_append_left _ hgone
      obtain ⟨s', hs', htrue⟩ := (hget j).1 hmem
      rw [h.records, if_neg hj, hs] at hs'
      cases hs'
      rw [hf] at htrue
      cases htrue
    · rw [h.records]
      split_ifs with hj
      · simp [hj, hr]
      · simp [hj]
  · change j ∈ result.1 ↔ ∃ s, result.2.1.get j = some s ∧ _
    rw [hrecords]
    split_ifs with hgone
    · exact iff_of_false (fun hmem => disjoint_of_nodup_append hn hgone hmem) (by simp)
    · rw [← hget, ht, mem_append, or_iff_right hgone]
  · change ((o.queueById.erase id).get j).isSome ↔ j ∈ o.active.erase id
    rw [get_erase, mem_erase]
    split_ifs with hj
    · simp [hj]
    · rw [h.queues j hj]
      simp [hj]
  · change (o.queueById.erase id).get j = some queue at hq
    rw [get_erase] at hq
    split_ifs at hq
    exact hq

/-- A record that was terminal stays as it is. -/
theorem kept (h : Dirty σ id r o) (hr : r.isTerminal = true) (ha : id ∉ o.active) :
    Reindexed [] o [] ((o.unindex (toLex (r.event.logicalTime, id))).retire id) := by
  have hretire : (o.unindex (toLex (r.event.logicalTime, id))).retire id =
      { o.unindex (toLex (r.event.logicalTime, id)) with queueById := o.queueById.erase id } := if_neg ha
  obtain ⟨s, hs⟩ : ∃ s, σ id = some s := Option.ne_none_iff_exists'.1 fun hnone => by
    unfold EventRecord.isTerminal at hr
    rw [(h.fresh hnone).1] at hr
    cases hr
  have ht : s.isTerminal = true := by
    by_contra hf
    exact ha ((h.partitioned.active id).2 ⟨s, hs, Bool.eq_false_iff.2 hf⟩)
  obtain ⟨-, hsame, hqueue⟩ := h.old s hs
  obtain rfl := hsame ht
  have hget : ∀ j, o.records.get j = σ j := fun j => by
    rw [h.records]
    split_ifs with hj
    · rw [hj, hs]
    · rfl
  have hp : Partitioned o.records.get o := (funext hget : o.records.get = σ) ▸ h.partitioned
  have hnil : ∀ j, o.records.get j = if j ∈ ([] : List EventId) then none else o.records.get j :=
    fun j => (if_neg not_mem_nil).symm
  rw [hretire]
  refine ⟨⟨h.ids, ?_, ⟨hp.active, hp.terminal, hp.nodup⟩, fun j => ?_, h.retention⟩,
    fun j queue hq => ?_, append_nil _, rfl, hnil, rfl, rfl⟩
  · exact h.indexed_retired hr (fun j hj => (not_mem_nil hj).elim) hnil rfl rfl rfl rfl rfl
  · change ((o.queueById.erase id).get j).isSome ↔ j ∈ o.active
    rw [get_erase]
    split_ifs with hj
    · simp [hj, ha]
    · exact h.queues j hj
  · change (o.queueById.erase id).get j = some queue at hq
    rw [get_erase] at hq
    split_ifs at hq
    exact hq

end Dirty

/-- The records that become terminal when a record of a view is changed. -/
def retiredBy (σ : EventId → Option EventRecord) (id : EventId) (r : EventRecord) : List EventId :=
  if r.isTerminal && (σ id).any (!·.isTerminal) then [id] else []

theorem retiredBy_eq_nil (hr : r.isTerminal = false) : retiredBy σ id r = [] := by
  unfold retiredBy
  rw [hr]
  rfl

/-- The re-indexing step makes the indexes exact, and its expectation holds. -/
theorem wp_reindex (h : Dirty σ id r o) :
    Act.wp (reindex id) (fun _ o' => ∃ gone, Reindexed (retiredBy σ id r) o gone o') (fun _ _ => False) o := by
  have hget : o.records.get id = some r := by rw [h.records, if_pos rfl]
  have hi := h.unindexed
  have hnone : Function.update σ id none id = none := update_self ..
  have hu : Function.update (Function.update σ id none) id (some r) = Function.update σ id (some r) :=
    update_idem ..
  -- a record that is not terminal enters the indexes of its state
  have ha {o' : Outbox} (hr : r.isTerminal = false) (hreindexed : r.isTerminal = false → Reindexed [] o [] o') :
      ∃ gone, Reindexed (retiredBy σ id r) o gone o' := by
    rw [retiredBy_eq_nil hr]
    exact ⟨[], hreindexed hr⟩
  have ht (hr : r.isTerminal = true) :
      ∃ gone, Reindexed (retiredBy σ id r) o gone ((o.unindex (toLex (r.event.logicalTime, id))).retire id) := by
    have hany : (σ id).any (!·.isTerminal) = true ↔ id ∈ o.active := by
      rw [h.partitioned.active]
      cases σ id <;> simp
    unfold retiredBy
    by_cases hmem : id ∈ o.active
    · rw [hr, hany.2 hmem]
      exact h.retired hr hmem
    · rw [hr, Bool.eq_false_iff.2 fun htrue => hmem (hany.1 htrue)]
      exact ⟨[], h.kept hr hmem⟩
  simp only [reindex, Act.wp_bind, Act.wp_get, hget, Act.wp_modify]
  cases hstate : r.state with
  | pending =>
    have hr : r.isTerminal = false := by rw [EventRecord.isTerminal, hstate]; rfl
    obtain ⟨queue, hqueue⟩ := h.queue hr
    simp only [Act.wp_bind, Act.wp_modify, Act.wp_orElse, hqueue, Option.some.injEq, reduceCtorEq]
    refine ⟨fun _ hq => ha hr fun hr => ?_, fun hf => hf.elim⟩
    subst hq
    refine h.settled hr ?_ rfl rfl rfl rfl rfl rfl
    rw [← hu]
    exact hi.addPending hnone hstate hqueue _
  | leased | running =>
    refine ha (by rw [EventRecord.isTerminal, hstate]; rfl) fun hr => ?_
    refine h.settled hr ?_ rfl rfl rfl rfl rfl rfl
    rw [← hu]
    refine hi.addOther hnone ?_ _
    simp [Waits, hstate]
  | retryWaiting =>
    refine ha (by rw [EventRecord.isTerminal, hstate]; rfl) fun hr => ?_
    refine h.settled hr ?_ rfl rfl rfl rfl rfl rfl
    rw [← hu]
    exact hi.addRetry hnone hstate _
  | succeeded | deadLettered | cancelled | discardedStaleEpoch =>
    exact ht (by rw [EventRecord.isTerminal, hstate]; rfl)

end

end Fireemu.Events
