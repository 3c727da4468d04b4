import Fireemu.Firestore.Commit
import Fireemu.Firestore.Ledger

/-!
# A Firestore database

The store, the transaction table and the configuration together, and the operations that begin, use,
end and commit transactions.  An operation returns its answer with the state it leaves, since what was
done on the way stays when the answer is an error.

The table never depends on documents and documents depend on the table only through `Pins`, so a
commit first works out what the table will be, and then commits to the store.
-/

namespace Fireemu

open Library (SortedMap SortedSet)

/-- One Firestore database. -/
structure FirestoreState where
  config : Config
  store : Store
  ledger : Ledger

/-- What a commit depends on besides the database: which pending requests are not cancelled, what a
recorded query gives when it is run again, and the admission of the result. -/
structure CommitContext where
  live : CommitWaitOwner → Bool
  requery : Store → TransactionQueryObservation → Except FirestoreError QueryObservation
  admission : CommitResult → HistoryProjection → Except FirestoreError Unit

def maxActiveTransactions : ℕ := 4096

def transactionNoLongerValid : String := "The referenced transaction has expired or is no longer valid."

def transactionConcurrentModification : String :=
  "Transaction was aborted due to a concurrent modification."

def tooMuchContention : String := "Too much contention on these documents. Please try again."

def crossTransactionContention : String :=
  "Aborted due to cross-transaction contention. This occurs when multiple transactions attempt to access the same data, requiring Firestore to abort at least one in order to enforce serializability."

def invalidTransaction : FirestoreError := .invalidArgument "Invalid transaction."

namespace FirestoreState

/-- An empty database. -/
def new (config : Config) (transactionIdOffset : ℕ) : FirestoreState :=
  ⟨config, .empty, .empty transactionIdOffset⟩

/-- The profile the limits are enforced under. -/
abbrev scope (s : FirestoreState) : LimitScope := s.config.limitScope

/-- The answer of an operation with the state it leaves. -/
abbrev Outcome (α : Type) := Except FirestoreError α × FirestoreState

variable (s : FirestoreState) (context : CommitContext) (id : TransactionId) (writes : List Write)
  (own : Option TransactionId) (now : LogicalInstant) (owner : Option CommitWaitOwner)

/-! ### Maintenance -/

/-- Finishes and forgets transactions; also whether anything changed. -/
def pruneTransactions : Bool × FirestoreState :=
  let (changed, ledger) := s.ledger.pruneTransactions s.scope now
  (changed, { s with ledger })

/-- Drops every version no retention root can reach. -/
def compact : FirestoreState :=
  let s := (s.pruneTransactions now).2
  { s with store := s.store.compact s.ledger.oldestActiveVersion now }

/-- Ends a transaction in a given state. -/
def finishTransaction (state : TransactionState) : FirestoreState :=
  { s with ledger := s.ledger.finishTransaction s.scope id state }

/-- Changes a transaction in place. -/
def update (f : Transaction → Transaction) : FirestoreState :=
  { s with ledger := s.ledger.update id f }

/-! ### Begin -/

/-- Time reported for a live read. -/
def readTime : LogicalInstant :=
  match s.store.lastCommitTime with
  | some last => if last > now then last else now
  | none => now

/-- Refuses more active transactions than there may be. -/
def ensureTransactionCapacity : Except FirestoreError Unit :=
  if s.ledger.activeTransactionCount ≥ maxActiveTransactions then
    .error (.failedPrecondition "too many active transactions")
  else .ok ()

/-- Adds an active transaction; `f` is what the request that begins it sets afterwards. -/
def insertTransaction (readOnly : Bool) (readVersion : CommitVersion) (readTime : LogicalInstant)
    (f : Transaction → Transaction) : Outcome TransactionId :=
  let s := (s.pruneTransactions now).2
  match s.ensureTransactionCapacity with
  | .error e => (.error e, s)
  | .ok () =>
      let id := s.ledger.nextTransaction + 1
      (.ok id, { s with
        ledger := (s.ledger.addActive s.scope (.begin readOnly readVersion readTime now)).update id f })

/-- Begins a transaction that reads in the same request, at the current version. -/
def beginTransaction (readOnly : Bool) : Outcome TransactionId :=
  s.insertTransaction now readOnly s.store.version (s.readTime now) fun t =>
    { t with firstReadTime := some (s.readTime now) }

/-- Begins a read-only transaction; production takes its snapshot at its first use. -/
def beginReadOnlyTransaction : Outcome TransactionId :=
  s.insertTransaction now true s.store.version (s.readTime now) fun t =>
    { t with firstReadTime := none, snapshotPending := s.scope = .production }

/-- Begins a read-write transaction, whose snapshot is taken at its first use. -/
def beginReadWriteTransaction : Outcome TransactionId :=
  s.insertTransaction now false s.store.version (s.readTime now) fun t =>
    { t with firstReadTime := none, snapshotPending := true }

/-- Begins a read-only transaction over the snapshot at a read time. -/
def beginTransactionAt (readTime : LogicalInstant) : Outcome TransactionId :=
  match s.store.versionAtRetained readTime with
  | none => (.error (.failedPrecondition "read_time is no longer retained by this database"), s)
  | some version => s.insertTransaction now true version readTime fun t => t

/-- Begins a retry of an attempt that has ended. -/
def retryEnded (retriedWhileLive : Bool) : Outcome TransactionId :=
  -- finishing the attempt may have evicted it
  match s.ledger.get id with
  | none => (.error invalidTransaction, s)
  | some attempt =>
      if attempt.state ≠ .finished ∧ !attempt.state.retryable then
        (.error (.invalidArgument "Invalid retry transaction."), s)
      else match s.ensureTransactionCapacity with
        | .error e => (.error e, s)
        | .ok () =>
            -- an expired token keeps answering as one
            let s := s.update id fun t =>
              if t.state = .finished then t else { t with state := .retried, retriedWhileLive }
            s.insertTransaction now false s.store.version (s.readTime now) fun t =>
              { t with snapshotPending := true }

/-- Begins a retry of a previous attempt, which is rolled back if it is still active. -/
def retryTransaction : Outcome TransactionId :=
  let s := (s.pruneTransactions now).2
  match s.ledger.get id with
  | none => (.error invalidTransaction, s)
  | some attempt =>
      if attempt.readOnly then (.error (.invalidArgument "Cannot retry a read-only transaction"), s)
      else if attempt.state = .active then
        (s.finishTransaction id .rolledBack).retryEnded id now true
      else s.retryEnded id now false

/-! ### Use -/

/-- Whether a read of a transaction is served although a retry named it. -/
def servesRetriedRead : Bool :=
  s.scope = .officialEmulator && (s.ledger.get id).any fun t =>
    t.state = .retried && t.retriedWhileLive && s.store.compactionFloor ≤ t.readVersion

/-- The transaction, if it is active and its snapshot is retained. -/
def transaction : Except FirestoreError Transaction :=
  match s.ledger.get id with
  | none => .error invalidTransaction
  | some t =>
      if t.state = .active ∧ s.store.compactionFloor ≤ t.readVersion then .ok t
      else if t.state = .commitRefused ∧ s.scope = .production then
        .error (.invalidArgument transactionNoLongerValid)
      else if t.state = .retryableAborted ∧ t.deadlockVictim then
        .error (.aborted crossTransactionContention)
      else .error (.aborted transactionNoLongerValid)

/-- The error a read gets: past the total lifetime the emulator profile answers differently. -/
def readErrorAfterLifetime : FirestoreError → FirestoreError
  | .aborted message =>
      if s.scope = .officialEmulator &&
          (s.ledger.get id).any fun t => t.lifetimeExpired && t.state = .finished then
        .invalidArgument transactionNoLongerValid
      else .aborted message
  | error => error

/-- Pins a pending snapshot. -/
def pinned (version : CommitVersion) (time : LogicalInstant) (t : Transaction) : Transaction :=
  if t.snapshotPending then
    { t with snapshotPending := false, readVersion := version, readTime := time }
  else t

/-- A transaction after a use: its idle budget starts again, and a pending snapshot is pinned. -/
def touched (version : CommitVersion) (time now : LogicalInstant) (t : Transaction) : Transaction :=
  let t := pinned version time { t with lastActivity := now }
  { t with firstReadTime := some (t.firstReadTime.getD (if t.readOnly then t.readTime else time)) }

/-- Finishes a transaction that a request found past its deadline; also whether it was past its total
lifetime. -/
def expireTransaction (deadline : LogicalInstant) : Bool × FirestoreState :=
  let s := s.finishTransaction id .finished
  let kept := s.ledger.keepLifetimeExpiredTransaction s.scope id deadline
  (kept.1, { s with ledger := kept.2 }.compact now)

/-- Production forgets what has elapsed before it looks at a transaction. -/
def pruneInProduction : FirestoreState :=
  if s.scope = .production then (s.pruneTransactions now).2 else s

/-- Checks that a transaction is usable and records the activity. -/
def touchTransaction : Outcome Unit :=
  let s := if s.scope = .production ∧ (s.pruneTransactions now).1 then
      (s.pruneTransactions now).2.compact now
    else s.pruneInProduction now
  let version := s.store.version
  let time := s.readTime now
  if s.servesRetriedRead id then (.ok (), s.update id (pinned version time))
  else match s.transaction id with
    | .error e => (.error (s.readErrorAfterLifetime id e), s)
    | .ok t =>
        let deadline := t.deadline s.scope
        if now ≥ deadline then
          let expired := s.expireTransaction id now deadline
          (.error (if expired.1 then .invalidArgument transactionNoLongerValid
            else .aborted transactionNoLongerValid), expired.2)
        else (.ok (), { s with ledger := s.ledger.rekey s.scope id t (touched version time now t) })

/-- Replaces what a transaction has observed, as the reads that are recorded for it do, with the bytes it
and all active transactions are charged for. -/
def observe (readSet : SortedMap DocumentPath (Option CommitVersion))
    (queries : List TransactionQueryObservation) (conflictLedgerBytes total : ℕ) : FirestoreState :=
  { s with ledger :=
    { s.ledger.update id fun t => { t with readSet, queries, conflictLedgerBytes } with
      activeTransactionConflictLedgerBytes := total } }

/-! ### Rollback -/

/-- Rolls a transaction back; one that has ended without a commit stays as it is. -/
def rollback : Outcome Unit :=
  let done := (s.ledger.get id).any fun t => (t.state = .retryableAborted && t.deadlockVictim) ||
    t.state = .rolledBack || t.state = .finished || t.state = .commitRefused
  if done then
    if s.scope = .production && (s.ledger.get id).any fun t => t.lifetimeExpired && t.state = .finished then
      (.error (.aborted transactionNoLongerValid), s)
    else (.ok (), s)
  else if s.scope = .officialEmulator && (s.ledger.get id).any fun t => t.state = .retried then (.ok (), s)
  else match s.transaction id with
    | .error e => (.error e, s)
    | .ok _ => (.ok (), s.finishTransaction id .rolledBack)

/-- Rolls a transaction back, unless it is remembered past its total lifetime. -/
def rollbackInTime : Outcome Unit :=
  if (s.ledger.get id).any fun t => t.state = .finished && t.lineageDeadline ≤ now then
    (.error (.aborted transactionNoLongerValid), s)
  else s.rollback id

/-- Rolls a transaction back; production first finishes one past its total lifetime, or forgets those
whose retention has ended. -/
def rollbackAt : Outcome Unit :=
  if s.scope ≠ .production then s.rollback id
  else if (s.ledger.get id).any fun t => t.state = .active && t.lineageDeadline ≤ now then
    (s.pruneTransactions now).2.rollbackInTime id now
  else
    { s with ledger := (s.ledger.forgetElapsedFinishedTransactions s.scope now).2 }.rollbackInTime id now

/-! ### Locks -/

/-- The writes of a commit by document, in order. -/
def groupWrites : SortedMap DocumentPath (List Write) :=
  writes.foldl (fun grouped write =>
    grouped.insert write.op.path
      ((grouped.get write.op.path).getD [] ++ [write])) SortedMap.empty

/-- Whether writes to one document touch the range of a query: its stored version or the one they
leave passes the filter. -/
def rangeCoversDocument (store : Store) (query : Query) (path : DocumentPath) : Bool :=
  query.scope.contains path &&
    match query.filter with
    | none => true
    | some filter =>
        let passes := Option.any fun doc => evalFilter doc filter
        writes.any (fun write => !write.transforms.isEmpty) || passes (store.get path) ||
          match writes.foldlM (fun current write => (applyWrite write current 0 0).map Prod.fst)
            (store.get path) with
          | .error _ => true
          | .ok current => passes current

/-- Whether the locks of a transaction cover a commit. -/
def holderLocksWrites (store : Store) (holder : Transaction) : Bool :=
  (groupWrites writes).entries.any fun (path, writes) =>
    holder.readSet.contains path ||
      holder.queries.any fun entry => rangeCoversDocument writes store entry.query path

/-- Whether a lock holder waits on the locks of the requester. -/
def waitsOn (holder : Transaction) : Bool :=
  (own.bind s.ledger.get).any fun requester =>
    (holder.waitingToCommit.toList ++
      (holder.ownedCommitWaits.filter fun wait => context.live wait.1).map Prod.snd).any
        fun writes => holderLocksWrites writes s.store requester

/-- The lock holders a commit collides with, each with its age and whether it waits on the locks of
the requester. -/
def contentionHolders : List (TransactionId × LogicalInstant × Bool) :=
  s.ledger.activeReadWriteTransactions.toList.filterMap fun id => (s.ledger.get id).bind fun holder =>
    if holder.state = .active ∧ ¬ holder.readOnly ∧ s.store.compactionFloor ≤ holder.readVersion ∧
        own ≠ some id ∧ holderLocksWrites writes s.store holder then
      some (id, holder.startedAt, s.waitsOn context own holder)
    else none

/-- Sets whether a request waits to commit; waits that were cancelled are forgotten. -/
def setWait (pending : Option (List Write)) : FirestoreState :=
  s.update id fun t =>
    match owner with
    | none => { t with waitingToCommit := pending }
    | some owner => { t with
        ownedCommitWaits := (t.ownedCommitWaits.filter fun wait => context.live wait.1 && wait.1 != owner) ++
          (pending.filter fun _ => context.live owner).toList.map fun writes => (owner, writes) }

/-- Aborts a transaction to break a deadlock. -/
def abortVictim : FirestoreState :=
  (s.update id fun t => { t with deadlockVictim := true }).finishTransaction id .retryableAborted

/-- Whether a transaction is active. -/
def transactionIsActive : Bool :=
  (s.ledger.get id).any fun t => t.state = .active

/-- Refuses a commit that runs into the locks of other transactions, unless a deadlock is broken in
its favour. -/
def checkContention : Outcome Unit :=
  let s := own.elim s fun id => s.setWait context id owner none
  if writes.isEmpty then (.ok (), s)
  else
  let s := (s.pruneTransactions now).2
  let holders := s.contentionHolders context writes own
  if holders.isEmpty then (.ok (), s)
  else match own with
    | none => (.error (.aborted tooMuchContention), s)
    | some id =>
        match s.transaction id with
        | .error e => (.error e, s)
        | .ok t =>
            -- the younger transaction of a deadlock gives way
            if holders.any fun (holder, age, cycle) =>
                cycle && toLex (age, holder) < toLex (t.startedAt, id) then
              (.error (.aborted crossTransactionContention), s.abortVictim id)
            else
              let s := ((holders.filter fun (_, _, waiting) => waiting).map Prod.fst).foldl abortVictim s
              if holders.all fun (holder, _, _) => !s.transactionIsActive holder then (.ok (), s)
              else (.error (.aborted tooMuchContention), s.setWait context id owner (some writes))

/-! ### Commit -/

/-- Whether one of the completed queries gives other rows now. -/
def queriesConflicted (requery : TransactionQueryObservation → Except FirestoreError QueryObservation) :
    List TransactionQueryObservation → Except FirestoreError Bool
  | [] => .ok false
  | entry :: entries =>
      if !entry.complete then queriesConflicted requery entries
      else do
        if (← requery entry) ≠ entry.observation then return true
        queriesConflicted requery entries

/-- Whether something a transaction observed is different now. -/
def transactionConflicted (t : Transaction) : Except FirestoreError Bool :=
  if t.readSet.entries.any fun (path, observed) => (s.store.get path).map Document.version ≠ observed then
    .ok true
  else queriesConflicted (context.requery s.store) t.queries

/-- Checks the transaction of a commit. -/
def validateTransactionCommit : Outcome Unit :=
  let s := s.pruneInProduction now
  match s.transaction id with
  | .error e => (.error e, s)
  | .ok t =>
  let deadline := t.deadline s.scope
  if now ≥ deadline then
    (.error (.aborted transactionNoLongerValid), (s.expireTransaction id now deadline).2)
  else if t.readOnly then
    if writes.isEmpty then (.ok (), s)
    else (.error (.invalidArgument "Cannot modify entities in a read-only transaction."),
      if s.scope = .production then s.finishTransaction id .commitRefused else s)
  else match s.transactionConflicted context t with
    | .error e => (.error e, s)
    | .ok true => (.error (.aborted transactionConcurrentModification),
        s.finishTransaction id .retryableAborted)
    | .ok false => (.ok (), s)

/-- Validates the transaction of a commit, if it has one, and checks the locks of others. -/
def prepareCommit : Outcome Unit :=
  match own.elim (.ok (), s) fun id => s.validateTransactionCommit context id writes now with
  | (.error e, s) => (.error e, s)
  | (.ok (), s) => s.checkContention context writes own now owner

/-- The table after the transaction of a commit, if it has one, has ended in a given state. -/
def endedBy (state : TransactionState) : Ledger :=
  own.elim s.ledger fun id => s.ledger.finishTransaction s.scope id state

/-- The table after a commit is published: its transaction has ended, and what has elapsed is pruned. -/
def committedLedger : Ledger := ((s.endedBy own .committed).pruneTransactions s.scope now).2

/-- What the table contributes to a commit. -/
def pinsOf : Pins where
  firstReadTime := (own.bind s.ledger.get).bind Transaction.firstReadTime
  projectedOldest := s.ledger.oldestVersionAfter s.scope now
  oldest := (s.committedLedger own now).oldestActiveVersion

/-- Applies writes atomically, after the admission has accepted the result and the history it will
use.  A commit that is refused for a precondition ends its transaction too. -/
def commitWithHistoryAdmissionOwned : Outcome CommitResult :=
  match s.prepareCommit context writes own now owner with
  | (.error e, s) => (.error e, s)
  | (.ok (), s) =>
      match s.store.commit s.config writes (s.pinsOf own now) now context.admission with
      | (.ok result, store) => (.ok result, { s with store, ledger := s.committedLedger own now })
      | (.error refusal, store) => (.error refusal.error, { s with
          store, ledger := if refusal.precondition then s.endedBy own .commitRefused else s.ledger })

/-! ### Import and snapshot -/

/-- Installs documents as one commit. -/
def importDocuments (documents : List Store.ImportedDocument) : Outcome CommitResult :=
  let pruned := (s.ledger.pruneTransactions s.scope now).2
  match s.store.importDocuments s.config documents pruned.oldestActiveVersion now with
  | (.ok result, store) =>
      -- an import of nothing does not compact
      (.ok result, { s with store, ledger := if result.changes.isEmpty then s.ledger else pruned })
  | (.error e, store) => (.error e, { s with store })

/-- The visible documents as a database of their own, without transactions. -/
def visibleSnapshot : FirestoreState :=
  { s with store := s.store.visibleSnapshot, ledger := .empty s.ledger.nextTransaction }

end FirestoreState

end Fireemu
