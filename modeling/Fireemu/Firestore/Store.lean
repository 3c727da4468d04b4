import Fireemu.Firestore.Accounting
import Fireemu.Firestore.ScopeIndex

/-!
# The versioned store

History by path with the indexes derived from it, the commit times of retained versions, the cached
accounting and the thresholds at which each path can be compacted.  What the store needs from the
transactions of the database (the oldest snapshot in use) and from its configuration is passed in.
-/

namespace Fireemu

open Library (SortedMap SortedSet VersionChain.lookup VersionChain.cut partitionPoint)

/-- Version history by path. -/
abbrev DocumentHistory := SortedMap DocumentPath Versions

/-- The reclaim of a compaction at a floor, computed at a version. -/
structure CompactionForecast where
  version : CommitVersion
  floor : CommitVersion
  reclaimed : HistoryUsage

/-- The next version at which a compaction can drop something of each path, by path and by
version. -/
structure ReclaimIndex where
  compactable : SortedMap DocumentPath CommitVersion
  reclaimThresholds : SortedSet (CommitVersion ×ₗ DocumentPath)

/-- The part of a database that transactions do not own. -/
structure Store where
  history : DocumentHistory
  indexes : ScopeIndexes
  version : CommitVersion
  lastCommitTime : Option LogicalInstant
  commitTimes : List (CommitVersion × LogicalInstant)
  compactionFloor : CommitVersion
  capacityFloor : CommitVersion
  historyUsage : HistoryUsage
  historyAccountingExact : Bool
  compactionForecast : Option CompactionForecast
  reclaim : ReclaimIndex

/-- A document a commit changes: what it was and what it becomes. -/
structure StagedChange where
  path : DocumentPath
  before : Option RetainedDocument
  after : Option RetainedDocument

/-! ### Thresholds -/

/-- The version a floor has to reach for something of the path to be dropped: that of its second
entry, or of a tombstone that is its only one. -/
def reclaimThreshold (versions : Versions) : Option CommitVersion :=
  match versions with
  | _ :: (version, _) :: _ => some version
  | [(version, none)] => some version
  | _ => none

namespace ReclaimIndex

/-- No path can be compacted. -/
def empty : ReclaimIndex := ⟨SortedMap.empty, SortedMap.empty⟩

/-- Records the threshold of a path. -/
def refresh (index : ReclaimIndex) (path : DocumentPath) (threshold : Option CommitVersion) : ReclaimIndex :=
  let old := index.compactable.get path
  if old = threshold then index
  else
    let removed : ReclaimIndex := match old with
      | some version =>
          { compactable := index.compactable.erase path
            reclaimThresholds := index.reclaimThresholds.erase (toLex (version, path)) }
      | none => index
    match threshold with
    | some version =>
        { compactable := removed.compactable.insert path version
          reclaimThresholds := removed.reclaimThresholds.add (toLex (version, path)) }
    | none => removed

/-- The paths whose threshold a floor has reached, in path order. -/
def candidates (index : ReclaimIndex) (floor : CommitVersion) : List DocumentPath :=
  match index.reclaimThresholds.toList.getLast? with
  | some last =>
      if (ofLex last).1 ≤ floor then index.compactable.keys
      else reached
  | none => reached
where
  reached : List DocumentPath :=
    ((index.reclaimThresholds.toList.takeWhile fun e => (ofLex e).1 ≤ floor).map
      fun e => (ofLex e).2).insertionSort (· ≤ ·)

end ReclaimIndex

namespace Store

/-- The store of an empty database. -/
def empty : Store where
  history := SortedMap.empty
  indexes := .empty
  version := 0
  lastCommitTime := none
  commitTimes := []
  compactionFloor := 0
  capacityFloor := 0
  historyUsage := .zero
  historyAccountingExact := true
  compactionForecast := none
  reclaim := .empty

/-! ### Reads -/

/-- The retained versions of a path, none if it is not retained. -/
def versionsOf (s : Store) (path : DocumentPath) : Versions :=
  (s.history.get path).getD []

/-- The newest retained document of a path. -/
def newest (s : Store) (path : DocumentPath) : Option RetainedDocument :=
  (s.versionsOf path).getLast?.bind Prod.snd

/-- Latest version of a document. -/
def get (s : Store) (path : DocumentPath) : Option Document :=
  (s.newest path).map RetainedDocument.document

/-- Document as of a version. -/
def getAt (s : Store) (path : DocumentPath) (version : CommitVersion) : Option Document :=
  ((VersionChain.lookup (s.versionsOf path) version).bind Prod.snd).map RetainedDocument.document

/-- The version visible at an instant; instants before the retained history give the compaction
floor. -/
def versionAt (s : Store) (at_ : LogicalInstant) : CommitVersion :=
  match partitionPoint (fun e => decide (e.2 ≤ at_)) s.commitTimes with
  | 0 => s.compactionFloor
  | i + 1 => (s.commitTimes[i]?.map Prod.fst).getD s.compactionFloor

/-- The version visible at an instant, unless the instant is before the retained history. -/
def versionAtRetained (s : Store) (at_ : LogicalInstant) : Option CommitVersion :=
  if s.compactionFloor > 0 ∧ s.commitTimes.head?.all (fun e => decide (at_ < e.2)) then none
  else some (s.versionAt at_)

/-- The commit time of a commit at `now`: microsecond-aligned and after the last commit. -/
def nextCommitTime (s : Store) (now : LogicalInstant) : LogicalInstant :=
  let alignedNow := now - now % 1000
  match s.lastCommitTime with
  | some last => if last ≥ alignedNow then last + 1000 else alignedNow
  | none => alignedNow

/-! ### Accounting -/

/-- Usage of the whole history, and whether every counter stayed exact. -/
def checkedHistoryRecount (s : Store) : HistoryUsage × Bool :=
  let (usage, exact) := s.history.entries.foldl
    (fun (usage, exact) (path, versions) =>
      let pathUsage := historyPathUsage path versions
      (addHistoryUsage usage pathUsage, exact && pathUsage.unsaturated))
    (HistoryUsage.zero, true)
  let commitTimes := min s.commitTimes.length u64Max
  let usage := finishHistoryUsage (Function.update (Function.update usage.counts
    .commitTimes commitTimes) .commitTimeBytes (saturatingMul commitTimes historyCommitTimeBytes))
  (usage, exact && usage.unsaturated)

/-- Recounts the history. -/
def rebuildHistoryUsage (s : Store) : Store :=
  let (usage, exact) := s.checkedHistoryRecount
  { s with historyUsage := usage, historyAccountingExact := exact }

/-- What a compaction at a floor reclaims from one path. -/
def pathReclaim (s : Store) (exact : Bool) (path : DocumentPath) (floor : CommitVersion) : HistoryUsage :=
  let versions := s.versionsOf path
  if exact then historyPathReclaimUnsaturated path versions floor
  else subtractHistoryUsage (historyPathUsage path versions)
    (historyPathUsageAfterFloor path versions floor)

/-- What a compaction at a floor would reclaim, by looking at every path it would visit. -/
def computedReclaim (s : Store) (floor : CommitVersion) : HistoryUsage :=
  let reclaimed := (s.reclaim.candidates floor).foldl
    (fun reclaimed path =>
      addHistoryUsage reclaimed (s.pathReclaim s.historyAccountingExact path floor))
    HistoryUsage.zero
  let removedCommitTimes :=
    min (s.commitTimes.takeWhile fun e => decide (e.1 < floor)).length u64Max
  { reclaimed with
    counts := Function.update (Function.update reclaimed.counts .commitTimes removedCommitTimes)
      .commitTimeBytes (saturatingMul removedCommitTimes historyCommitTimeBytes) }

/-- What a compaction at a floor would reclaim, remembered until the store changes. -/
def baseCompactionReclaim (s : Store) (floor : CommitVersion) : HistoryUsage × Store :=
  if floor ≤ s.compactionFloor then (.zero, s)
  else match s.compactionForecast.filter fun f => f.version = s.version ∧ f.floor = floor with
    | some forecast => (forecast.reclaimed, s)
    | none =>
        let reclaimed := s.computedReclaim floor
        (reclaimed, { s with compactionForecast := some ⟨s.version, floor, reclaimed⟩ })

/-- Charges one staged change to the usage before any compaction. -/
def chargeStaged (s : Store) (usage : CertifiedCounts) (change : StagedChange) : CertifiedCounts :=
  let usage := (usage.add .versions 1).add .versionMetadataBytes historyVersionMetadataBytes
  let usage := match change.before with
    | some before =>
        (usage.sub .liveDocumentBytes before.logicalBytes).add .historicalDocumentBytes
          before.logicalBytes
    | none => usage
  let usage := match change.after with
    | some after => usage.add .liveDocumentBytes after.logicalBytes
    | none => (usage.add .tombstones 1).add .tombstoneBytes historyTombstoneBytes
  if s.history.contains change.path then
    if change.before.isSome && change.after.isNone then
      usage.sub .pathAndIndexBytes (3 * historyIndexReferenceOverhead)
    else if change.before.isNone && change.after.isSome then
      usage.add .pathAndIndexBytes (3 * historyIndexReferenceOverhead)
    else usage
  else (usage.add .paths 1).add .pathAndIndexBytes
    (historyPathAndIndexBytes change.path change.after.isSome)

/-- The capacity floor after one more version of a path. -/
def projectedCapacity (s : Store) (maxVersionsPerPath : ℕ) (floor : CommitVersion)
    (change : StagedChange) : CommitVersion :=
  let existing := s.versionsOf change.path
  let evictedCount := existing.length + 1 - maxVersionsPerPath
  if evictedCount > 0 then
    max floor ((existing[evictedCount]?.map Prod.fst).getD (s.version + 1))
  else floor

/-- Usage and capacity floor after staged changes, before any compaction, and whether the usage is
exact. -/
def projectedUncompactedUsage (s : Store) (maxVersionsPerPath : ℕ) (staged : List StagedChange) :
    HistoryUsage × CommitVersion × Bool :=
  let usage : CertifiedCounts := ⟨s.historyUsage.counts, s.historyAccountingExact⟩
  let usage := if staged.isEmpty then usage
    else (usage.add .commitTimes 1).add .commitTimeBytes historyCommitTimeBytes
  let usage := staged.foldl s.chargeStaged usage
  let uncompacted := finishHistoryUsage usage.counts
  (uncompacted, staged.foldl (s.projectedCapacity maxVersionsPerPath) s.capacityFloor,
    usage.exact && uncompacted.unsaturated)

/-- How long a version stays readable by its time, in seconds. -/
def readTimeRetentionSeconds : ℤ := 3600

/-- The oldest version a retention root can reach: the read window and the oldest snapshot of an
active transaction, with the capacity floor as a hard bound. -/
def floorOfRoots (s : Store) (oldestTransaction : Option CommitVersion)
    (capacityFloor version : CommitVersion) (now : LogicalInstant) : CommitVersion :=
  let oldestRead := LogicalInstant.saturatingSub now
    (LogicalDuration.fromSeconds readTimeRetentionSeconds)
  let floor := max (s.versionAt oldestRead) capacityFloor
  let floor := match oldestTransaction with
    | some oldest => min floor oldest
    | none => floor
  min (max floor capacityFloor) version

/-- The retention floor, given the oldest snapshot of an active transaction. -/
def retentionFloor (s : Store) (oldestTransaction : Option CommitVersion) (now : LogicalInstant) :
    CommitVersion :=
  s.floorOfRoots oldestTransaction s.capacityFloor s.version now

/-- The reclaim patched for one staged change. -/
def patchReclaim (s : Store) (certified : Bool) (floor : CommitVersion) (reclaimed : HistoryUsage)
    (change : StagedChange) : HistoryUsage :=
  let existing := s.versionsOf change.path
  let afterSize := change.after.map RetainedDocument.logicalBytes
  let nextVersion := s.version + 1
  let existingReclaim := s.pathReclaim certified change.path floor
  let projectedReclaim :=
    if certified then
      projectedHistoryPathReclaimUnsaturated change.path existing afterSize nextVersion floor
    else projectedHistoryPathReclaim change.path existing afterSize nextVersion floor
  addHistoryUsage (subtractHistoryUsage reclaimed existingReclaim) projectedReclaim

/-- Usage after staged changes before and after the compaction that follows them, and whether it is
exact.  `oldestTransaction` is the oldest snapshot of a transaction that is active after `now`. -/
def projectedHistoryUsage (s : Store) (maxVersionsPerPath : ℕ) (staged : List StagedChange)
    (oldestTransaction : Option CommitVersion) (now : LogicalInstant) :
    (HistoryUsage × HistoryUsage × Bool) × Store :=
  let (uncompacted, projectedCapacityFloor, exact) :=
    s.projectedUncompactedUsage maxVersionsPerPath staged
  let certified := exact && uncompacted.unsaturated
  let projectedVersion := if staged.isEmpty then s.version else s.version + 1
  let floor := s.floorOfRoots oldestTransaction projectedCapacityFloor projectedVersion now
  let (reclaimed, s') := s.baseCompactionReclaim floor
  let reclaimed := staged.foldl (s'.patchReclaim certified floor) reclaimed
  ((uncompacted, subtractHistoryUsage uncompacted reclaimed, certified), s')

/-! ### Publication -/

/-- Brings the thresholds of a path up to date. -/
def refreshReclaimThreshold (s : Store) (path : DocumentPath) : Store :=
  { s with
    reclaim := s.reclaim.refresh path ((s.history.get path).bind reclaimThreshold) }

/-- Raises the capacity floor when a path has more versions than it may keep. -/
def recordCapacityPressure (s : Store) (maxVersionsPerPath : ℕ) (path : DocumentPath) : Store :=
  match s.history.get path with
  | none => s
  | some versions =>
      if versions.length ≤ maxVersionsPerPath then s
      else match versions[versions.length - maxVersionsPerPath]? with
        | some (oldestKept, _) => { s with capacityFloor := max s.capacityFloor oldestKept }
        | none => s

/-- The indexes before a version is pushed: the path is retained, and live if it becomes so. -/
def indexChange (s : Store) (change : StagedChange) : ScopeIndexes :=
  let path := change.path
  let ix := if s.history.contains path then s.indexes
    else s.indexes.insertScopePath path
  let ix := if change.before.isNone && change.after.isSome then ix.insertLiveScopePath path
    else if change.before.isSome && change.after.isNone then ix.removeLiveScopePath path
    else ix
  ix.updateTtlExpiryPath path (s.get path) false

/-- Publishes one changed document at a version. -/
def publishChange (maxVersionsPerPath : ℕ) (nextVersion : CommitVersion) (s : Store)
    (change : StagedChange) : Store :=
  let path := change.path
  let s := { s with
    indexes := s.indexChange change
    history := s.history.insert path (s.versionsOf path ++ [(nextVersion, change.after)]) }
  let s := s.recordCapacityPressure maxVersionsPerPath path
  let s := { s with indexes := s.indexes.updateTtlExpiryPath path (s.get path) true }
  s.refreshReclaimThreshold path

/-- Publishes staged changes as one version. -/
def publish (s : Store) (maxVersionsPerPath : ℕ) (commitTime : LogicalInstant)
    (staged : List StagedChange) : Store :=
  let nextVersion := s.version + 1
  let s := { s with
    version := nextVersion
    commitTimes := s.commitTimes ++ [(nextVersion, commitTime)] }
  staged.foldl (publishChange maxVersionsPerPath nextVersion) s

/-- Makes staged changes visible, with the usage projected for them.  A commit without effect only
consumes its time, unless it answered with the time of an earlier read. -/
def commitStaged (s : Store) (maxVersionsPerPath : ℕ) (staged : List StagedChange)
    (commitTime : LogicalInstant) (consumesTime : Bool) (uncompacted : HistoryUsage) (exact : Bool) : Store :=
  let s := { s with
    lastCommitTime := if consumesTime then some commitTime else s.lastCommitTime
    compactionForecast := none
    historyUsage := uncompacted
    historyAccountingExact := exact }
  if staged.isEmpty then s else s.publish maxVersionsPerPath commitTime staged

/-- Publishes one imported document. -/
def publishImported (maxVersionsPerPath : ℕ) (nextVersion : CommitVersion) (s : Store)
    (entry : DocumentPath × RetainedDocument) : Store :=
  s.publishChange maxVersionsPerPath nextVersion ⟨entry.1, s.newest entry.1, some entry.2⟩

/-- Installs imported documents as one version. -/
def install (s : Store) (maxVersionsPerPath : ℕ) (commitTime : LogicalInstant)
    (staged : SortedMap DocumentPath RetainedDocument) : Store :=
  let nextVersion := s.version + 1
  let s := { s with
    lastCommitTime := some commitTime
    compactionForecast := none
    version := nextVersion
    commitTimes := s.commitTimes ++ [(nextVersion, commitTime)] }
  rebuildHistoryUsage (staged.entries.foldl (publishImported maxVersionsPerPath nextVersion) s)

/-! ### Compaction -/

/-- A compaction under way: the paths it emptied and the usage it took from each. -/
structure Compaction where
  store : Store
  removedPaths : List DocumentPath
  usageChanges : List (HistoryUsage × HistoryUsage)

/-- Whether a compaction leaves nothing of a path worth keeping. -/
def emptied (remaining : Versions) (floor : CommitVersion) : Bool :=
  remaining.isEmpty || onlyTombstone remaining floor

/-- Compacts one path.  With exact accounting the usage is charged from what is dropped, otherwise
from the path before and after. -/
def compactPath (prefixAccounting : Bool) (floor : CommitVersion) (acc : Compaction)
    (path : DocumentPath) : Compaction :=
  let s := acc.store
  match s.history.get path with
  | none => { acc with store := s.refreshReclaimThreshold path }
  | some versions =>
      let cut := VersionChain.cut versions floor
      let remaining := versions.drop cut
      let gone := emptied remaining floor
      if prefixAccounting && cut == 0 && !gone then
        { acc with store := s.refreshReclaimThreshold path }
      else
        let change :=
          if prefixAccounting then
            (historyPathReclaimUnsaturated path versions floor, HistoryUsage.zero)
          else (historyPathUsage path versions,
            if gone then HistoryUsage.zero else historyPathUsage path remaining)
        let history := if gone then s.history.erase path
          else s.history.insert path remaining
        { store := { s with history }.refreshReclaimThreshold path
          removedPaths := if gone then acc.removedPaths ++ [path] else acc.removedPaths
          usageChanges := acc.usageChanges ++ [change] }

/-- Takes commit times before the floor out of the deque and out of the accounting. -/
def trimCommitTimes (s : Store) (floor : CommitVersion) : Store :=
  let removed := min (s.commitTimes.takeWhile fun e => decide (e.1 < floor)).length u64Max
  let usage : CertifiedCounts := ⟨s.historyUsage.counts, s.historyAccountingExact⟩
  let usage := usage.sub .commitTimes removed
  let usage := { usage with
    exact := usage.exact && decide (removed * historyCommitTimeBytes ≤ u64Max) }
  let usage := usage.sub .commitTimeBytes (min (removed * historyCommitTimeBytes) u64Max)
  { s with
    commitTimes := s.commitTimes.dropWhile fun e => decide (e.1 < floor)
    historyUsage := finishHistoryUsage usage.counts
    historyAccountingExact := usage.exact }

/-- Books the usage a compaction took from one path. -/
def bookUsageChange (s : Store) (change : HistoryUsage × HistoryUsage) : Store :=
  { s with
    historyAccountingExact :=
      s.historyAccountingExact && checkedHistoryChange s.historyUsage change.1 change.2
    historyUsage := addHistoryUsage (subtractHistoryUsage s.historyUsage change.1) change.2 }

/-- Drops a path that is no longer retained from the scope indexes. -/
def dropScopePath (s : Store) (path : DocumentPath) : Store :=
  { s with indexes := s.indexes.removeScopePath path }

/-- Drops every version a snapshot at or after the floor cannot see. -/
def compactTo (s : Store) (floor : CommitVersion) : Store :=
  if floor ≤ s.compactionFloor then s
  else
    let s := { s with compactionForecast := none, compactionFloor := floor }
    let s := s.trimCommitTimes floor
    let prefixAccounting := s.historyAccountingExact
    let candidates := if prefixAccounting then s.reclaim.candidates floor
      else s.reclaim.compactable.keys
    let acc := candidates.foldl (compactPath prefixAccounting floor) ⟨s, [], []⟩
    let s := acc.usageChanges.foldl bookUsageChange acc.store
    acc.removedPaths.foldl dropScopePath s

/-! ### Snapshots -/

/-- A store with only what is visible now. -/
def visibleSnapshot (s : Store) : Store :=
  let history : DocumentHistory := SortedMap.mapValues
    (s.history.filter fun _ versions => (versions.getLast?.bind Prod.snd).isSome)
    fun _ versions => versions.getLast?.toList
  rebuildHistoryUsage
    { history
      indexes := ScopeIndexes.rebuildScopePaths (history.entries.map fun (path, versions) =>
        (path, (versions.getLast?.bind Prod.snd).isSome))
      version := s.version
      lastCommitTime := s.lastCommitTime
      commitTimes := s.commitTimes.getLast?.toList
      compactionFloor := s.version
      capacityFloor := s.version
      historyUsage := .zero
      historyAccountingExact := false
      compactionForecast := none
      reclaim := .empty }

/-- Makes the expiry indexes those of a catalog. -/
def syncTtlExpiryIndexes (s : Store) (catalog : TtlCatalog) : Store :=
  { s with indexes := s.indexes.syncTtlExpiryIndexes s.get catalog }

end Store

end Fireemu
