import Fireemu.Firestore.Store
import Fireemu.Firestore.Write

/-!
# Commits

A commit stages its writes one after another against a working copy, projects what history will
use, asks for admission and publishes; then history out of reach is dropped.  Import and the
visible snapshot are the other two ways documents get into a database.

Transactions enter here only by what they contribute: the time an empty commit answers with, and
the oldest snapshot that is still in use.  Both are arguments, so what is shown for all of them
holds whatever transactions there are.
-/

namespace Fireemu

open Library (SortedMap SortedSet)

/-- The request a commit arrives through. -/
inductive WriteRoute
  | commit | deleteDocument | batchWrite | internal
  deriving DecidableEq, Repr

/-- The checks of the installed indexes on written and deleted documents. -/
structure IndexCatalog where
  documentIndexUsageIn : DocumentPath → Fields → LimitScope → Except FirestoreError Unit
  deleteTransactionCheck : DocumentPath → Fields → WriteRoute → Except FirestoreError Unit

/-- Whole-database history limits. -/
structure HistoryLimits where
  maxBytes : ℕ
  maxVersions : ℕ

/-- What a database is set up with. -/
structure Config where
  limitScope : LimitScope
  writeRoute : WriteRoute
  indexCatalog : IndexCatalog
  maxVersionsPerPath : ℕ
  /-- Zero is normalized to one, since the newest version is never discarded. -/
  maxVersionsPerPath_pos : 0 < maxVersionsPerPath
  historyLimits : HistoryLimits

/-- A document a commit changed. -/
structure DocumentChange where
  path : DocumentPath
  before : Option Document
  after : Option Document

/-- The result of a commit. -/
structure CommitResult where
  commitTime : LogicalInstant
  writeResults : List WriteResult
  version : CommitVersion
  changes : List DocumentChange
  /-- Whether the answer to the client carries the commit time. -/
  stamped : Bool

/-- Usage before a commit, and a ceiling for the usage after it. -/
structure HistoryProjection where
  before : HistoryUsage
  after : HistoryUsage

/-- The working copy of a document. -/
structure StagedDocument where
  before : Option RetainedDocument
  current : Option RetainedDocument
  changed : Bool

/-- Working copies by path. -/
abbrev Staged := SortedMap DocumentPath StagedDocument

/-- Why a commit is refused; a refused precondition ends the transaction of the commit. -/
structure CommitRefusal where
  error : FirestoreError
  precondition : Bool

/-- A check other than of a precondition. -/
def refusing {α : Type} (x : Except FirestoreError α) : Except CommitRefusal α := x.mapError (⟨·, false⟩)

/-- Refuses more field transforms on one document than there may be. -/
def checkTransformBudget (writes : List Write) : Except FirestoreError Unit :=
  discard <| writes.foldlM
    (fun (counts : SortedMap DocumentPath ℕ) write => do
      let count := (counts.get write.op.path).getD 0 + write.transforms.length
      checkLimit .fieldTransformsPerDocument count
      return counts.insert write.op.path count)
    SortedMap.empty

/-! ### Staging -/

/-- Whether a write is a verify. -/
def WriteOp.isVerify : WriteOp → Bool
  | .verify _ => true
  | _ => false

/-- The document a write leaves with the bytes it is charged for; only documents a set writes are
checked. -/
def checkedResult (config : Config) (write : Write) (next : Option Document) :
    Except FirestoreError (Option RetainedDocument) :=
  match write.op, next with
  | .set _ _ _, some doc => do
      let bytes ← validateDocument config.limitScope doc
      config.indexCatalog.documentIndexUsageIn doc.path doc.fields config.limitScope
      return some ⟨doc, bytes⟩
  | _, _ => return none

/-- In production a delete of a stored document is priced. -/
def checkDelete (config : Config) (write : Write) (current : Option Document) : Except FirestoreError Unit :=
  match write.op, current, config.limitScope with
  | .delete _, some stored, .production =>
      config.indexCatalog.deleteTransactionCheck stored.path stored.fields config.writeRoute
  | _, _, _ => .ok ()

/-- Whether two states of a document agree in existence and in stored content. -/
def sameContent : Option Document → Option Document → Bool
  | some c, some n => Value.storedFieldsEq c.fields n.fields
  | none, none => true
  | _, _ => false

/-- Whether a write leaves the stored content as it is. -/
def unchangedBy (write : Write) (current next : Option Document) : Bool :=
  write.op.isVerify || sameContent current next

/-- The result a write reports: a verify and a write without effect report the update time of the
document as it is. -/
def reportedResult (write : Write) (current : Option Document) (unchanged : Bool)
    (result : WriteResult) : WriteResult :=
  if write.op.isVerify then { result with updateTime := current.map Document.updateTime }
  else if unchanged then
    match current with
    | some c => { result with updateTime := some c.updateTime }
    | none => result
  else result

/-- The working copy of a path; the newest document until something is staged for it. -/
def Staged.stageOf (staged : Staged) (store : Store) (path : DocumentPath) : StagedDocument :=
  (staged.get path).getD ⟨store.newest path, store.newest path, false⟩

/-- Stages one write. -/
def stageWrite (config : Config) (store : Store) (commitTime : LogicalInstant)
    (nextVersion : CommitVersion) (staged : Staged) (write : Write) :
    Except CommitRefusal (Staged × WriteResult) := do
  let path := write.op.path
  let stage := staged.stageOf store path
  let current := stage.current.map RetainedDocument.document
  (checkPrecondition write.precondition current path).mapError (⟨·, true⟩)
  refusing (checkDelete config write current)
  let (next, result) ← refusing (applyWrite write current commitTime nextVersion)
  let retained ← refusing (checkedResult config write next)
  let unchanged := unchangedBy write current next
  let stage := if unchanged then stage else { stage with current := retained, changed := true }
  return (staged.insert path stage, reportedResult write current unchanged result)

/-- Stages writes in order. -/
def stageWrites (config : Config) (store : Store) (commitTime : LogicalInstant)
    (nextVersion : CommitVersion) (staged : Staged) :
    List Write → Except CommitRefusal (Staged × List WriteResult)
  | [] => .ok (staged, [])
  | write :: writes => do
      let (staged, result) ← stageWrite config store commitTime nextVersion staged write
      let (staged, results) ← stageWrites config store commitTime nextVersion staged writes
      return (staged, result :: results)

/-- The changes of a working copy, in path order. -/
def stagedChanges (staged : Staged) : List StagedChange :=
  staged.entries.filterMap fun (path, stage) =>
    if stage.changed then some ⟨path, stage.before, stage.current⟩ else none

/-- A staged change as it is reported. -/
def StagedChange.toDocumentChange (change : StagedChange) : DocumentChange :=
  ⟨change.path, change.before.map RetainedDocument.document, change.after.map RetainedDocument.document⟩

/-! ### Commit -/

/-- What the transactions of a database contribute to a commit. -/
structure Pins where
  /-- The time of the first read of the committing transaction. -/
  firstReadTime : Option LogicalInstant
  /-- The oldest snapshot of a transaction that outlives the commit, as projected. -/
  projectedOldest : Option CommitVersion
  /-- The oldest snapshot in use when history is dropped. -/
  oldest : Option CommitVersion

namespace Store

/-- Drops every version no retention root can reach. -/
def compact (s : Store) (oldest : Option CommitVersion) (now : LogicalInstant) : Store :=
  s.compactTo (s.retentionFloor oldest now)

/-- Refuses usage over the history limits. -/
def checkHistoryLimits (limits : HistoryLimits) (usage : HistoryUsage) : Except FirestoreError Unit :=
  if usage.counts .versions > limits.maxVersions then
    .error (.historyCapacity ⟨"versions", usage.counts .versions, limits.maxVersions⟩)
  else if usage.totalBytes > limits.maxBytes then
    .error (.historyCapacity ⟨"bytes", usage.totalBytes, limits.maxBytes⟩)
  else .ok ()

/-- Applies writes atomically, after `admission` has accepted the result and the history it will
use.  What was forecast about compaction stays when the commit is refused. -/
def commit (config : Config) (s : Store) (writes : List Write) (pins : Pins) (now : LogicalInstant)
    (admission : CommitResult → HistoryProjection → Except FirestoreError Unit) :
    Except CommitRefusal CommitResult × Store :=
  match checkTransformBudget writes with
  | .error e => (.error ⟨e, false⟩, s)
  | .ok () =>
  -- an empty commit of a transaction that has read answers with the time of its first read
  let snapshotTime := if writes.isEmpty then pins.firstReadTime else none
  let commitTime := snapshotTime.getD (s.nextCommitTime now)
  let nextVersion := s.version + 1
  match stageWrites config s commitTime nextVersion SortedMap.empty writes with
  | .error e => (.error e, s)
  | .ok (working, writeResults) =>
  let staged := stagedChanges working
  let result : CommitResult :=
    { commitTime, writeResults
      version := if staged.isEmpty then s.version else nextVersion
      changes := staged.map StagedChange.toDocumentChange
      stamped := !writes.isEmpty || snapshotTime.isSome ||
        decide (config.limitScope ≠ .production) }
  let ((uncompacted, after, exact), s') :=
    s.projectedHistoryUsage config.maxVersionsPerPath staged pins.projectedOldest now
  match checkHistoryLimits config.historyLimits after with
  | .error e => (.error ⟨e, false⟩, s')
  | .ok () =>
  match admission result ⟨s.historyUsage, after⟩ with
  | .error e => (.error ⟨e, false⟩, s')
  | .ok () =>
      (.ok result, (s'.commitStaged config.maxVersionsPerPath staged commitTime
        snapshotTime.isNone uncompacted exact).compact pins.oldest now)

/-! ### Import -/

/-- A document of an import. -/
structure ImportedDocument where
  path : DocumentPath
  fields : Fields
  createTime : Option LogicalInstant
  updateTime : Option LogicalInstant

/-- Stages documents of an import; a later one replaces an earlier one of the same path. -/
def stageImport (config : Config) (commitTime : LogicalInstant) (nextVersion : CommitVersion)
    (documents : List ImportedDocument) : Except FirestoreError (SortedMap DocumentPath RetainedDocument) :=
  documents.foldlM
    (fun staged imported => do
      let document : Document :=
        { path := imported.path
          fields := Value.normalizeFieldsForStorage imported.fields
          createTime := imported.createTime.getD commitTime
          updateTime := imported.updateTime.getD commitTime
          version := nextVersion }
      let bytes ← validateDocument config.limitScope document
      config.indexCatalog.documentIndexUsageIn document.path document.fields config.limitScope
      return staged.insert imported.path ⟨document, bytes⟩)
    SortedMap.empty

/-- Installs documents as one commit, keeping the times they carry. -/
def importDocuments (config : Config) (s : Store) (documents : List ImportedDocument)
    (oldest : Option CommitVersion) (now : LogicalInstant) : Except FirestoreError CommitResult × Store :=
  let commitTime := s.nextCommitTime now
  let nextVersion := s.version + 1
  match stageImport config commitTime nextVersion documents with
  | .error e => (.error e, s)
  | .ok staged =>
      if staged.entries.isEmpty then
        (.ok ⟨commitTime, [], s.version, [], true⟩,
          { s with lastCommitTime := some commitTime, compactionForecast := none })
      else
        let changes := staged.entries.map fun (path, retained) =>
          (⟨path, s.get path, some retained.document⟩ : DocumentChange)
        (.ok ⟨commitTime, [], nextVersion, changes, true⟩,
          (s.install config.maxVersionsPerPath commitTime staged).compact oldest now)

end Store

end Fireemu
