import Fireemu.Events.Event
import Fireemu.Library.Act
import Fireemu.Library.HeadMerge

/-!
# The outbox

The event records of a session (`outbox.rs`), indexed by delivery state: the pending records in dispatch order and
by dispatch queue, the records that wait for a retry, the active ones, and the terminal ones in eviction order.
Every change of a record is followed by one re-indexing step.
-/

namespace Fireemu.Events

open Library (SortedMap SortedSet GroupedIndex Act)

/-- Outbox errors. -/
inductive OutboxError
  | duplicateEventId (id : EventId)
  | unknownEventId (id : EventId)
  deriving DecidableEq

/-- How a call can fail: it is refused, or an expectation does not hold. -/
inductive OutboxFailure
  | refused (error : OutboxError)
  | panicked
  deriving DecidableEq

/-- The dispatch order: logical time, then event id. -/
abbrev DispatchKey := LogicalInstant ×ₗ EventId

/-- Deterministic event container. -/
structure Outbox where
  records : SortedMap EventId EventRecord
  /-- Pending records in dispatch order. -/
  pending : SortedSet DispatchKey
  /-- The same pending keys grouped by dispatch queue. -/
  pendingByQueue : GroupedIndex Str DispatchKey
  /-- Queue ownership stays with active records across leases, interruptions and retries. -/
  queueById : SortedMap EventId Str
  /-- Retry-waiting records ordered by the instant their timer elapses. -/
  retrying : SortedSet DispatchKey
  retryAtById : SortedMap EventId LogicalInstant
  /-- Records that are not terminal. -/
  active : SortedSet EventId
  /-- Terminal records in the order they became terminal. -/
  terminal : List EventId
  terminalRetention : ℕ
  evicted : ℕ

/-- A call on an outbox. -/
abbrev OutboxM (α : Type) := Act OutboxFailure Outbox α

namespace Outbox

/-- Empty outbox keeping a number of terminal records (at least one). -/
def withTerminalRetention (retention : ℕ) : Outbox where
  records := SortedMap.empty
  pending := SortedMap.empty
  pendingByQueue := SortedMap.empty
  queueById := SortedMap.empty
  retrying := SortedMap.empty
  retryAtById := SortedMap.empty
  active := SortedMap.empty
  terminal := []
  terminalRetention := max retention 1
  evicted := 0

/-- Takes a record out of the pending and the retry indexes. -/
def unindex (o : Outbox) (key : DispatchKey) : Outbox :=
  let id := (ofLex key).2
  { o with
    pending := o.pending.erase key
    pendingByQueue := match o.queueById.get id with
      | none => o.pendingByQueue
      | some queue => o.pendingByQueue.removeFrom queue key
    retrying := match o.retryAtById.get id with
      | none => o.retrying
      | some retryAt => o.retrying.erase (toLex (retryAt, id))
    retryAtById := o.retryAtById.erase id }

/-- The records after the oldest terminal ones beyond a retention are dropped, with the terminal ones that are
left and the count of those that were dropped. -/
def evictLoop (retention : ℕ) : List EventId → SortedMap EventId EventRecord → ℕ →
    List EventId × SortedMap EventId EventRecord × ℕ
  | [], records, evicted => ([], records, evicted)
  | oldest :: terminal, records, evicted =>
      if retention < (oldest :: terminal).length then
        evictLoop retention terminal (records.erase oldest) (evicted + 1)
      else (oldest :: terminal, records, evicted)

/-- Drops the oldest terminal records beyond the retention window. -/
def evict (o : Outbox) : Outbox :=
  let (terminal, records, evicted) := evictLoop o.terminalRetention o.terminal o.records o.evicted
  { o with terminal, records, evicted }

/-- Takes a record that has become terminal out of the active ones. -/
def retire (o : Outbox) (id : EventId) : Outbox :=
  let o := { o with queueById := o.queueById.erase id }
  if id ∈ o.active then
    evict { o with active := o.active.erase id, terminal := o.terminal ++ [id] }
  else o

end Outbox

/-- Puts a record back in the index its current state belongs to. -/
def reindex (id : EventId) : OutboxM Unit := do
  let o ← Act.get
  match o.records.get id with
  | none => return ()
  | some record => do
      let key : DispatchKey := toLex (record.event.logicalTime, id)
      let queue := o.queueById.get id
      Act.modify (·.unindex key)
      match record.state with
      | .pending => do
          Act.modify fun o => { o with pending := o.pending.add key }
          let queue ← Act.orElse queue .panicked
          Act.modify fun o => { o with
            pendingByQueue := o.pendingByQueue.addTo queue key
            active := o.active.add id }
      | .leased | .running => Act.modify fun o => { o with active := o.active.add id }
      | .retryWaiting retryAt =>
          Act.modify fun o => { o with
            retrying := o.retrying.add (toLex (retryAt, id))
            retryAtById := o.retryAtById.insert id retryAt
            active := o.active.add id }
      | .succeeded | .deadLettered _ | .cancelled | .discardedStaleEpoch => Act.modify (·.retire id)

/-- Appends a pending event to a dispatch queue. -/
def enqueueInQueue (event : LogicalEvent) (queue : Str) : OutboxM Unit := do
  let o ← Act.get
  let id := event.eventId
  Act.require (o.records.contains id = false) (.refused (.duplicateEventId id))
  Act.modify fun o => { o with
    records := o.records.insert id (EventRecord.new event)
    queueById := o.queueById.insert id queue }
  reindex id

/-- Appends a pending event. -/
def enqueue (event : LogicalEvent) : OutboxM Unit := enqueueInQueue event []

/-- Applies a function to a record and re-indexes it by the state it is left in. -/
def update {α : Type} (id : EventId) (f : EventRecord → α × EventRecord) : OutboxM α := do
  let o ← Act.get
  let record ← Act.orElse (o.records.get id) (.refused (.unknownEventId id))
  let (out, record) := f record
  Act.modify fun o => { o with records := o.records.insert id record }
  reindex id
  return out

/-- A record after it is discarded, if it can be; and whether it was. -/
def discardOne (currentEpoch : Epoch) (r : EventRecord) : Bool × EventRecord :=
  match r.discardStale currentEpoch with
  | .ok r' => (true, r')
  | .error _ => (false, r)

/-- Discards a record from an older epoch; whether it was done. -/
def discardRecord (currentEpoch : Epoch) (id : EventId) : OutboxM Bool := fun o =>
  match update id (discardOne currentEpoch) o with
  | (.error (.refused _), o') => (.ok false, o')
  | result => result

/-- Discards the records of a list that are from an older epoch; how many. -/
def discardEach (currentEpoch : Epoch) : List EventId → OutboxM ℕ
  | [] => return 0
  | id :: ids => do
      let done ← discardRecord currentEpoch id
      let discarded ← discardEach currentEpoch ids
      return discarded + done.toNat

/-- Marks every non-terminal record from an older epoch as discarded; how many. -/
def discardStale (currentEpoch : Epoch) : OutboxM ℕ := do
  let o ← Act.get
  discardEach currentEpoch o.active.toList

namespace Outbox

/-- Pending events in dispatch order. -/
def dispatchable (o : Outbox) : List LogicalEvent :=
  o.pending.toList.filterMap fun key => (o.records.get (ofLex key).2).map EventRecord.event

/-- The first pending key of each nonempty dispatch queue. -/
def dispatchableQueueHeads (o : Outbox) : List (Str × DispatchKey) := o.pendingByQueue.heads

/-- The next pending key in one queue after a candidate. -/
def nextDispatchableInQueue (o : Outbox) (queue : Str) (after : DispatchKey) : Option DispatchKey :=
  o.pendingByQueue.nextAfter queue after

/-- A dispatch pass: the least head is visited and replaced by the next pending key of its queue, at most a
number of times. -/
def mergeQueues (o : Outbox) (visits : ℕ) : List (DispatchKey × Str) :=
  GroupedIndex.merge o.nextDispatchableInQueue visits
    (SortedSet.ofList (o.dispatchableQueueHeads.map fun head => toLex (head.2, head.1)))

end Outbox

/-- The calls on an outbox; an update runs transition methods on a record. -/
inductive OutboxCall
  | enqueue (event : LogicalEvent)
  | enqueueInQueue (event : LogicalEvent) (queue : Str)
  | update (id : EventId) (transitions : List Transition)
  | discardStale (currentEpoch : Epoch)

/-- Transition methods one after the other. -/
def transition (transitions : List Transition) (r : EventRecord) : EventRecord :=
  transitions.foldl (fun r t => t.apply r) r

/-- Runs a call for its effect. -/
def OutboxCall.run : OutboxCall → OutboxM Unit
  | .enqueue event => Events.enqueue event
  | .enqueueInQueue event queue => Events.enqueueInQueue event queue
  | .update id transitions => Events.update id fun r => ((), transition transitions r)
  | .discardStale currentEpoch => do
      let _ ← Events.discardStale currentEpoch

/-- The outbox after a call; `none` if it panics. -/
def Outbox.step (o : Outbox) (c : OutboxCall) : Option Outbox :=
  match c.run o with
  | (.error .panicked, _) => none
  | (_, o') => some o'

end Fireemu.Events
