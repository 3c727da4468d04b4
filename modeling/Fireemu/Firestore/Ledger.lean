import Fireemu.Firestore.Filter
import Fireemu.Firestore.Write
import Fireemu.Library.RefCount

/-!
# The transaction table

The transactions of a database and the structures that index them: active ones by deadline, by the
version of their snapshot and by whether they hold locks; finished ones by the end of their retention
and by whether they may be evicted.  Nothing here looks at documents.

Counters that are only reported (activity, visits, releases) are left out, and identifiers are natural
numbers: the source would have to begin `2 ^ 64` transactions before one is used again.
-/

namespace Fireemu

open Library (SortedMap SortedSet RefCounts)

abbrev TransactionId := ℕ

/-- Identity of a pending commit request. -/
abbrev CommitWaitOwner := ℕ

/-- The states of a transaction; `finished` is the end by a deadline, `commitRefused` the end by a
commit that was refused. -/
inductive TransactionState
  | active | retryableAborted | rolledBack | committed | commitRefused | retried | finished
  deriving DecidableEq, Repr

/-- Whether a finished attempt may be named by a retry. -/
def TransactionState.retryable : TransactionState → Bool
  | .retryableAborted | .rolledBack | .committed | .commitRefused => true
  | _ => false

/-- How the rows of a query are consumed. -/
inductive Consumption
  | ordered | unordered

/-- The rows of a query result: which document, at which version.  The source keeps a digest. -/
abbrev QueryObservation := List (DocumentPath × CommitVersion)

/-- A query execution inside a transaction. -/
structure TransactionQueryObservation where
  query : Query
  requiredFields : List FieldPath
  observation : QueryObservation
  consumption : Consumption
  /-- Whether all rows were delivered; only then they are compared at commit. -/
  complete : Bool

/-- A transaction. -/
structure Transaction where
  readOnly : Bool
  readVersion : CommitVersion
  readTime : LogicalInstant
  startedAt : LogicalInstant
  /-- Observed version by path, `none` for a document that was absent. -/
  readSet : SortedMap DocumentPath (Option CommitVersion)
  queries : List TransactionQueryObservation
  conflictLedgerBytes : ℕ
  lastActivity : LogicalInstant
  state : TransactionState
  waitingToCommit : Option (List Write)
  ownedCommitWaits : List (CommitWaitOwner × List Write)
  deadlockVictim : Bool
  /-- The snapshot is taken at the first use. -/
  snapshotPending : Bool
  lifetimeExpired : Bool
  firstReadTime : Option LogicalInstant
  retriedWhileLive : Bool

/-- Transactions by an instant. -/
abbrev Deadlines := SortedSet (LogicalInstant ×ₗ TransactionId)

/-- The transactions of a database and the structures derived from them. -/
structure Ledger where
  nextTransaction : ℕ
  transactions : SortedMap TransactionId Transaction
  activeTransactionCount : ℕ
  activeTransactionDeadlines : Deadlines
  activeTransactionVersions : RefCounts CommitVersion
  activeReadWriteTransactions : SortedSet TransactionId
  activeTransactionConflictLedgerBytes : ℕ
  finishedTransactions : SortedSet TransactionId
  evictableFinishedTransactions : SortedSet TransactionId
  finishedTransactionDeadlines : Deadlines

def maxFinishedTransactionLineage : ℕ := 8192
def transactionTtl : LogicalDuration := LogicalDuration.fromSeconds 270
def transactionIdleTtl : LogicalDuration := LogicalDuration.fromSeconds 60
def transactionIdleAllowance : LogicalDuration := LogicalDuration.fromSeconds 60
def expiredTokenMemory : LogicalDuration := LogicalDuration.fromSeconds 30
def emulatorExpiredTokenRetention : LogicalDuration := LogicalDuration.fromSeconds 600

namespace Transaction

variable (scope : LimitScope) (t : Transaction)

/-- The end of the total lifetime. -/
def lineageDeadline : LogicalInstant :=
  (LogicalInstant.checkedAdd t.startedAt transactionTtl).getD LogicalInstant.max

/-- The end of the total lifetime or of the idle budget, whichever is first. -/
def deadline : LogicalInstant :=
  let idle := (LogicalInstant.checkedAdd t.lastActivity transactionIdleTtl).bind fun deadline =>
    if scope = .production then LogicalInstant.checkedAdd deadline transactionIdleAllowance
    else some deadline
  min t.lineageDeadline (idle.getD LogicalInstant.max)

/-- The end of the retention of a finished transaction. -/
def finishedLineageDeadline : LogicalInstant :=
  if t.lifetimeExpired ∨ scope = .production ∧ t.state = .finished then
    let memory := if scope = .production then expiredTokenMemory else emulatorExpiredTokenRetention
    (LogicalInstant.checkedAdd t.lineageDeadline memory).getD LogicalInstant.max
  else t.lineageDeadline

/-- Forgets what was observed. -/
def clearObservations : Transaction :=
  { t with conflictLedgerBytes := 0, readSet := .empty, queries := [] }

/-- The transaction after a deadline ended it. -/
def expired (deadline : LogicalInstant) : Transaction :=
  { t.clearObservations with
    state := .finished, lifetimeExpired := decide (deadline = t.lineageDeadline) }

/-- The transaction after it ended in a given state. -/
def ended (state : TransactionState) : Transaction :=
  { t.clearObservations with state, waitingToCommit := none, ownedCommitWaits := [] }

/-- A new active transaction. -/
def begin (readOnly : Bool) (readVersion : CommitVersion) (readTime now : LogicalInstant) : Transaction where
  readOnly
  readVersion
  readTime
  startedAt := now
  readSet := .empty
  queries := []
  conflictLedgerBytes := 0
  lastActivity := now
  state := .active
  waitingToCommit := none
  ownedCommitWaits := []
  deadlockVictim := false
  snapshotPending := false
  lifetimeExpired := false
  firstReadTime := none
  retriedWhileLive := false

end Transaction

/-- The entries of a deadline index not after an instant. -/
def dueEntries (deadlines : Deadlines) (now : LogicalInstant) : List (LogicalInstant ×ₗ TransactionId) :=
  deadlines.toList.takeWhile fun entry => (ofLex entry).1 ≤ now

namespace Ledger

/-- No transactions; identifiers start after an offset. -/
def empty (offset : ℕ) : Ledger where
  nextTransaction := offset
  transactions := .empty
  activeTransactionCount := 0
  activeTransactionDeadlines := .empty
  activeTransactionVersions := .empty
  activeReadWriteTransactions := .empty
  activeTransactionConflictLedgerBytes := 0
  finishedTransactions := .empty
  evictableFinishedTransactions := .empty
  finishedTransactionDeadlines := .empty

variable (scope : LimitScope) (now : LogicalInstant) (l : Ledger) (id : TransactionId)

/-- A transaction of the table, whatever its state. -/
def get : Option Transaction := l.transactions.get id

/-- The oldest snapshot of an active transaction. -/
def oldestActiveVersion : Option CommitVersion :=
  (l.activeTransactionVersions.keys).head?

/-- The oldest snapshot of a transaction whose deadline is after an instant. -/
def oldestVersionAfter : Option CommitVersion :=
  let later := l.activeTransactionDeadlines.toList.filter fun entry => toLex (now, u64Max) < entry
  (later.filterMap fun entry => (l.get (ofLex entry).2).bind fun t =>
    if t.state = .active ∧ now < t.deadline scope then some t.readVersion else none).min?

/-- Changes a transaction in place. -/
def update (f : Transaction → Transaction) : Ledger :=
  { l with transactions := l.transactions.modify id f }

/-- Adds an active transaction under the next identifier. -/
def addActive (t : Transaction) : Ledger :=
  let id := l.nextTransaction + 1
  { l with
    nextTransaction := id
    activeTransactionDeadlines := l.activeTransactionDeadlines.add (toLex (t.deadline scope, id))
    activeTransactionVersions := l.activeTransactionVersions.acquire 1 t.readVersion
    activeTransactionCount := l.activeTransactionCount + 1
    activeReadWriteTransactions :=
      if t.readOnly then l.activeReadWriteTransactions else l.activeReadWriteTransactions.add id
    transactions := l.transactions.insert id t }

/-- Replaces an active transaction by what a use made of it. -/
def rekey (t t' : Transaction) : Ledger :=
  { l with
    transactions := l.transactions.insert id t'
    activeTransactionVersions :=
      if t'.readVersion = t.readVersion then l.activeTransactionVersions
      else (l.activeTransactionVersions.release t.readVersion).acquire 1 t'.readVersion
    activeTransactionDeadlines := SortedSet.add
      (l.activeTransactionDeadlines.erase (toLex (t.deadline scope, id)))
      (toLex (t'.deadline scope, id)) }

/-! ### Finishing and forgetting -/

/-- Drops a transaction unless it is active. -/
def removeFinished : Ledger :=
  if (l.get id).any fun t => t.state ≠ .active then
    { l with transactions := l.transactions.erase id }
  else l

/-- Takes a transaction out of the finished ones. -/
def dropFinished (deadlines : Deadlines) : Ledger :=
  { l with
    finishedTransactions := l.finishedTransactions.erase id
    evictableFinishedTransactions := l.evictableFinishedTransactions.erase id
    finishedTransactionDeadlines := deadlines }

/-- Whether production still remembers a transaction as one that a deadline ended. -/
def rememberedAsExpired : Bool :=
  scope = .production && (l.get id).any fun t => t.state = .finished

/-- Keeps the evictable tokens in step with one finished transaction. -/
def syncEvictableFinishedTransaction : Ledger :=
  if scope ≠ .production then l
  else { l with
    evictableFinishedTransactions :=
      if id ∈ l.finishedTransactions ∧ ¬ l.rememberedAsExpired scope id then
        l.evictableFinishedTransactions.add id
      else l.evictableFinishedTransactions.erase id }

/-- Evicts one finished transaction. -/
def evict : Ledger :=
  let deadlines := match l.get id with
    | some t => l.finishedTransactionDeadlines.erase (toLex (t.finishedLineageDeadline scope, id))
    | none => l.finishedTransactionDeadlines
  (l.dropFinished id deadlines).removeFinished id

/-- Evicts the lowest finished transactions while there are too many and one may go. -/
def evictLoop (scope : LimitScope) : ℕ → Ledger → Ledger
  | 0, l => l
  | fuel + 1, l =>
      if l.finishedTransactions.size ≤ maxFinishedTransactionLineage then l
      else
        let candidates := if scope = .production then l.evictableFinishedTransactions
          else l.finishedTransactions
        match candidates.toList.head? with
        | none => l
        | some id => evictLoop scope fuel (l.evict scope id)

/-- Brings the finished lineage back within its bound.  Every round takes a token out of one of the
two sets. -/
def evictFinishedTransactions : Ledger :=
  evictLoop scope
    (l.finishedTransactions.size + l.evictableFinishedTransactions.size) l

/-- Forgets one finished transaction whose retention has ended. -/
def forget (entry : LogicalInstant ×ₗ TransactionId) : Ledger :=
  (l.dropFinished (ofLex entry).2 (l.finishedTransactionDeadlines.erase entry)).removeFinished
    (ofLex entry).2

/-- Forgets the finished transactions whose retention has ended; also whether there were any. -/
def forgetElapsedFinishedTransactions : Bool × Ledger :=
  let due := dueEntries l.finishedTransactionDeadlines now
  (!due.isEmpty, (due.foldl forget l).evictFinishedTransactions scope)

/-- Takes an active transaction out of the structures of the active ones, and leaves something else,
or nothing, in its place. -/
def releaseActive (t : Transaction) (t' : Option Transaction) : Ledger :=
  { l with
    transactions := match t' with
      | some t' => l.transactions.insert id t'
      | none => l.transactions.erase id
    activeTransactionDeadlines :=
      l.activeTransactionDeadlines.erase (toLex (t.deadline scope, id))
    activeReadWriteTransactions := l.activeReadWriteTransactions.erase id
    activeTransactionCount := l.activeTransactionCount - 1
    activeTransactionVersions := l.activeTransactionVersions.release t.readVersion
    activeTransactionConflictLedgerBytes :=
      l.activeTransactionConflictLedgerBytes - t.conflictLedgerBytes }

/-- Keeps a transaction among the finished ones until an instant. -/
def retain (deadline : LogicalInstant) : Ledger :=
  { l with
    finishedTransactionDeadlines := l.finishedTransactionDeadlines.add (toLex (deadline, id))
    finishedTransactions := l.finishedTransactions.add id }

/-- Finishes one transaction whose deadline has passed; also whether it did. -/
def expire (scope : LimitScope) (acc : Bool × Ledger) (entry : LogicalInstant ×ₗ TransactionId) :
    Bool × Ledger :=
  let (deadline, id) := ofLex entry
  let l := { acc.2 with
    activeTransactionDeadlines := acc.2.activeTransactionDeadlines.erase entry }
  -- an entry that a later use of the transaction has replaced is only dropped
  match (l.get id).filter fun t => t.state = .active ∧ t.deadline scope = deadline with
  | none => (acc.1, l)
  | some t =>
      let t' := t.expired deadline
      (true, (l.releaseActive scope id t (some t')).retain id (t'.finishedLineageDeadline scope))

/-- Finishes the active transactions whose deadline has passed and forgets the finished ones whose
retention has ended; also whether anything changed. -/
def pruneTransactions : Bool × Ledger :=
  let (expired, l) := (dueEntries l.activeTransactionDeadlines now).foldl (expire scope) (false, l)
  let (forgot, l) := l.forgetElapsedFinishedTransactions scope now
  (expired || forgot, l)

/-- Ends a transaction in a given state. -/
def finishTransaction (state : TransactionState) : Ledger :=
  match (l.get id).filter fun t => t.state = .active with
  | none => (l.update id fun t => { t with state }).syncEvictableFinishedTransaction scope id
  | some t =>
      let l := (l.releaseActive scope id t (some (t.ended state))).retain id t.lineageDeadline
      (l.syncEvictableFinishedTransaction scope id).evictFinishedTransactions scope

/-- Keeps a transaction that a request found past its total lifetime (emulator profile only); also
whether it was that. -/
def keepLifetimeExpiredTransaction (deadline : LogicalInstant) : Bool × Ledger :=
  match (l.get id).filter fun t => scope = .officialEmulator ∧ deadline = t.lineageDeadline with
  | none => (false, l)
  | some t =>
      let plain := toLex (t.finishedLineageDeadline scope, id)
      let kept := toLex (Transaction.finishedLineageDeadline scope { t with lifetimeExpired := true }, id)
      (true, { l.update id fun t => { t with lifetimeExpired := true } with
        finishedTransactionDeadlines :=
          if plain ∈ l.finishedTransactionDeadlines then
            SortedSet.add (l.finishedTransactionDeadlines.erase plain) kept
          else l.finishedTransactionDeadlines })

/-- Forgets a transaction that was never handed to a client. -/
def abandonTransaction : Ledger :=
  match l.get id with
  | none => l
  | some t =>
      if t.state = .active then l.releaseActive scope id t none
      else
        { l.dropFinished id (l.finishedTransactionDeadlines.erase
            (toLex (t.finishedLineageDeadline scope, id))) with
          transactions := l.transactions.erase id }

end Ledger

end Fireemu
