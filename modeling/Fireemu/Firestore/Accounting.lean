import Fireemu.Firestore.Document
import Fireemu.Library.VersionChain
import Mathlib.Algebra.Group.Pi.Basic

/-!
# Logical accounting of retained history

Retained history is charged in ten components of saturating 64-bit counters and a total of the six
that are bytes.  The functions here charge one path, before and after a compaction at a floor and
before and after a prospective write; nothing in them depends on the rest of the store.
-/

namespace Fireemu

open Library (VersionChain.cut partitionPoint)

/-- What retained history is charged for. -/
inductive HistoryComponent
  /-- Newest live document payloads. -/
  | liveDocumentBytes
  /-- Older retained document payloads. -/
  | historicalDocumentBytes
  /-- Path keys and lookup-index references. -/
  | pathAndIndexBytes
  /-- Version tuple metadata. -/
  | versionMetadataBytes
  /-- Tombstone markers. -/
  | tombstoneBytes
  /-- Commit-time lookup entries. -/
  | commitTimeBytes
  /-- Retained versions, including tombstones. -/
  | versions
  /-- Retained tombstones. -/
  | tombstones
  /-- Distinct retained paths. -/
  | paths
  /-- Retained commit-time entries. -/
  | commitTimes
  deriving DecidableEq, Repr

/-- All components. -/
def HistoryComponent.all : List HistoryComponent :=
  [.liveDocumentBytes, .historicalDocumentBytes, .pathAndIndexBytes, .versionMetadataBytes,
    .tombstoneBytes, .commitTimeBytes, .versions, .tombstones, .paths, .commitTimes]

/-- The value of each component. -/
abbrev HistoryCounts := HistoryComponent → ℕ

/-- Logical usage: the components and the total of the bytes. -/
structure HistoryUsage where
  counts : HistoryCounts
  totalBytes : ℕ

def historyPathKeyOverhead : ℕ := 32
def historyIndexReferenceOverhead : ℕ := 16
def historyVersionMetadataBytes : ℕ := 16
def historyTombstoneBytes : ℕ := 1
def historyCommitTimeBytes : ℕ := 24

/-- Counts with the total of their bytes. -/
def finishHistoryUsage (counts : HistoryCounts) : HistoryUsage where
  counts
  totalBytes := saturatingAdd (saturatingAdd (saturatingAdd (saturatingAdd (saturatingAdd
    (counts .liveDocumentBytes) (counts .historicalDocumentBytes)) (counts .pathAndIndexBytes))
    (counts .versionMetadataBytes)) (counts .tombstoneBytes)) (counts .commitTimeBytes)

namespace HistoryUsage

/-- No usage. -/
def zero : HistoryUsage := ⟨0, 0⟩

/-- Whether the total and every component are below the largest 64-bit integer. -/
def unsaturated (u : HistoryUsage) : Bool :=
  u.totalBytes < u64Max && HistoryComponent.all.all fun c => u.counts c < u64Max

end HistoryUsage

/-- Component-wise sum. -/
def addHistoryUsage (left right : HistoryUsage) : HistoryUsage :=
  finishHistoryUsage fun c => saturatingAdd (left.counts c) (right.counts c)

/-- Component-wise difference, stopping at zero. -/
def subtractHistoryUsage (left right : HistoryUsage) : HistoryUsage :=
  finishHistoryUsage fun c => left.counts c - right.counts c

/-- Whether replacing `before` by `after` in `left` stays exact in every component. -/
def checkedHistoryChange (left before after : HistoryUsage) : Bool :=
  left.unsaturated && before.unsaturated && after.unsaturated &&
    HistoryComponent.all.all fun c =>
      before.counts c ≤ left.counts c && left.counts c - before.counts c + after.counts c < u64Max

/-- Counts under construction and whether every step so far was exact. -/
structure CertifiedCounts where
  counts : HistoryCounts
  exact : Bool

namespace CertifiedCounts

/-- Adds to a component; exact if the sum is below the largest 64-bit integer. -/
def add (u : CertifiedCounts) (c : HistoryComponent) (n : ℕ) : CertifiedCounts where
  counts := Function.update u.counts c (saturatingAdd (u.counts c) n)
  exact := u.exact && u.counts c + n < u64Max

/-- Takes from a component; exact if there is that much. -/
def sub (u : CertifiedCounts) (c : HistoryComponent) (n : ℕ) : CertifiedCounts where
  counts := Function.update u.counts c (u.counts c - n)
  exact := u.exact && n ≤ u.counts c

end CertifiedCounts

/-! ### One path -/

/-- Charge for a path key and its references from the retained and the live indexes. -/
def historyPathAndIndexBytes (path : DocumentPath) (live : Bool) : ℕ :=
  let retainedRoots := 4
  let liveRoots := if live then 3 else 0
  saturatingAdd (saturatingAdd path.resourceName.utf8Len historyPathKeyOverhead)
    (saturatingMul (retainedRoots + liveRoots) historyIndexReferenceOverhead)

/-- Adds to a component, saturating. -/
def bump (counts : HistoryCounts) (c : HistoryComponent) (n : ℕ) : HistoryCounts :=
  Function.update counts c (saturatingAdd (counts c) n)

/-- Charges one retained version that is not a payload of a live document. -/
def bumpVersion (counts : HistoryCounts) (size : Option ℕ) : HistoryCounts :=
  let counts := bump (bump counts .versions 1) .versionMetadataBytes historyVersionMetadataBytes
  match size with
  | some bytes => bump counts .historicalDocumentBytes bytes
  | none => bump (bump counts .tombstones 1) .tombstoneBytes historyTombstoneBytes

/-- Charges the versions of a path from the oldest on; only the newest payload is a live one. -/
def historyPathCounts (path : DocumentPath) (counts : HistoryCounts) : List (Option ℕ) → HistoryCounts
  | [] => counts
  | [size] =>
      let counts := match size with
        | some bytes =>
            bump (bump (bump counts .versions 1) .versionMetadataBytes historyVersionMetadataBytes)
              .liveDocumentBytes bytes
        | none => bumpVersion counts none
      Function.update counts .pathAndIndexBytes (historyPathAndIndexBytes path size.isSome)
  | size :: sizes => historyPathCounts path (bumpVersion counts size) sizes

/-- Usage of a path whose versions have given sizes, `none` for a tombstone. -/
def historyPathUsageFromSizes (path : DocumentPath) (sizes : List (Option ℕ)) : HistoryUsage :=
  if sizes.isEmpty then .zero
  else finishHistoryUsage (historyPathCounts path (Function.update 0 .paths 1) sizes)

/-- The retained versions of one path, oldest first; `none` is a tombstone. -/
abbrev Versions := List (CommitVersion × Option RetainedDocument)

/-- The sizes of retained versions. -/
def historyDocumentSizes (versions : Versions) : List (Option ℕ) :=
  versions.map fun (_, document) => document.map RetainedDocument.logicalBytes

/-- Usage of a path. -/
def historyPathUsage (path : DocumentPath) (versions : Versions) : HistoryUsage :=
  historyPathUsageFromSizes path (historyDocumentSizes versions)

/-- Whether all that is left of a path is a tombstone not after the floor. -/
def onlyTombstone (remaining : Versions) (floor : CommitVersion) : Bool :=
  match remaining with
  | [(version, none)] => version ≤ floor
  | _ => false

/-- Usage of a path after a compaction at a floor. -/
def historyPathUsageAfterFloor (path : DocumentPath) (versions : Versions)
    (floor : CommitVersion) : HistoryUsage :=
  let remaining := versions.drop (VersionChain.cut versions floor)
  if onlyTombstone remaining floor then .zero else historyPathUsage path remaining

/-- The entries a compaction drops after one more version is written. -/
def projectedCut (existing : Versions) (nextVersion floor : CommitVersion) : ℕ :=
  partitionPoint (fun e => decide (e.1 ≤ floor)) existing + (if nextVersion ≤ floor then 1 else 0)
    - 1

/-- What a compaction would reclaim from a path after one more version of given size, by charging
the path before and after. -/
def projectedHistoryPathReclaim (path : DocumentPath) (existing : Versions) (afterSize : Option ℕ)
    (nextVersion floor : CommitVersion) : HistoryUsage :=
  let projectedUsage := historyPathUsageFromSizes path (historyDocumentSizes existing ++ [afterSize])
  let cut := projectedCut existing nextVersion floor
  let projectedAfterFloor :=
    if cut = existing.length ∧ afterSize.isNone ∧ nextVersion ≤ floor then .zero
    else historyPathUsageFromSizes path (historyDocumentSizes (existing.drop cut) ++ [afterSize])
  subtractHistoryUsage projectedUsage projectedAfterFloor

/-- Usage of versions a compaction drops from the beginning of a path. -/
def historyDroppedPrefixUsage (sizes : List (Option ℕ)) : HistoryUsage :=
  finishHistoryUsage (sizes.foldl bumpVersion 0)

/-- What a compaction reclaims from a path, charged from the dropped versions alone. -/
def historyPathReclaimUnsaturated (path : DocumentPath) (versions : Versions)
    (floor : CommitVersion) : HistoryUsage :=
  let cut := VersionChain.cut versions floor
  if onlyTombstone (versions.drop cut) floor then historyPathUsage path versions
  else historyDroppedPrefixUsage (historyDocumentSizes (versions.take cut))

/-- `projectedHistoryPathReclaim`, charged from the dropped versions alone. -/
def projectedHistoryPathReclaimUnsaturated (path : DocumentPath) (existing : Versions)
    (afterSize : Option ℕ) (nextVersion floor : CommitVersion) : HistoryUsage :=
  let cut := projectedCut existing nextVersion floor
  if cut = existing.length ∧ afterSize.isNone ∧ nextVersion ≤ floor then
    historyPathUsageFromSizes path (historyDocumentSizes existing ++ [afterSize])
  else historyDroppedPrefixUsage (historyDocumentSizes (existing.take cut))

end Fireemu
