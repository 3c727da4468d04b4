import Fireemu.Firestore.Query
import Fireemu.Firestore.StoreRun
import Fireemu.Library.EvenCuts

/-!
# Partitions of a collection group

The cut paths of a partition query are picked in one pass over the visible documents of a
collection group, found through the live index at the latest version and through the retained index
at an older one.
-/

namespace Fireemu

open Library List Library.SortedSet

namespace Store

/-- Whether a path holds a document of a scope at a version. -/
def visibleInScope (s : Store) (scope : QueryScope) (version : CommitVersion) (path : DocumentPath) : Bool :=
  (s.getAt path version).any fun document => scope.contains document.path

/-- Name-ordered cut paths for a collection-group partition query. -/
def collectionGroupPartitionPathsAt (s : Store) (parent : Option DocumentPath)
    (collectionId : Str) (version : CommitVersion) (partitionCount : ℕ) : List DocumentPath :=
  match tryNew validatePathSegment collectionId with
  | .error _ => []
  | .ok collectionId =>
      let groupPaths := if version = s.version then s.indexes.liveCollectionGroupPaths
        else s.indexes.collectionGroupPaths
      match groupPaths.get collectionId with
      | none => []
      | some paths =>
          let visible := paths.toList.filter
            (s.visibleInScope (.collectionGroup parent collectionId) version)
          let count := visible.length
          let cuts := min partitionCount (count - 1)
          if cuts = 0 then [] else pickCuts count cuts 0 1 visible

/-- The documents of a scope that are visible at a version, in path order. -/
def visiblePaths (s : Store) (scope : QueryScope) (version : CommitVersion) : List DocumentPath :=
  s.retained.toList.filter (s.visibleInScope scope version)

variable {database : ProjectId × DatabaseId} {s : Store}

variable {scope : QueryScope} {version : CommitVersion}

theorem mem_visiblePaths {path : DocumentPath} :
    path ∈ s.visiblePaths scope version ↔ s.visibleInScope scope version path = true := by
  rw [visiblePaths, mem_filter, mem_toList, and_iff_right_iff_imp]
  intro h
  obtain ⟨d, hd, -⟩ := (Option.any_eq_true _ _).1 h
  exact mem_retained_of_getAt hd

theorem visiblePaths_sorted (s : Store) :
    (s.visiblePaths scope version).Pairwise (· < ·) := (toList_sorted _).filter _

/-- Both indexes give the visible documents of the group. -/
theorem Coherent.filter_group (h : s.Coherent database) (parent : Option DocumentPath)
    (group : CollectionId) (version : CommitVersion) :
    (GroupedIndex.group (if version = s.version then s.indexes.liveCollectionGroupPaths
      else s.indexes.collectionGroupPaths) group).toList.filter
        (s.visibleInScope (.collectionGroup parent group) version) =
      s.visiblePaths (.collectionGroup parent group) version := by
  refine ((toList_sorted _).filter _).eq_of_mem_iff (s.visiblePaths_sorted)
    fun p => ?_
  rw [mem_visiblePaths, mem_filter, and_iff_right_iff_imp, mem_toList]
  intro hp
  obtain ⟨d, hd, hs⟩ := (Option.any_eq_true _ _).1 hp
  simp only [QueryScope.contains, Bool.and_eq_true, beq_iff_eq] at hs
  rw [h.path_of_getAt hd] at hs
  split_ifs with hv
  · refine (h.indexes.liveGroup.mem_group group p).2 ⟨hs.1, mem_live_iff_get.2 ?_⟩
    rw [← h.getAt_version, ← hv, hd]
    rfl
  · exact (h.indexes.group.mem_group group p).2 ⟨hs.1, mem_retained_of_getAt hd⟩

/-- The cuts are picked from the visible documents. -/
theorem Coherent.partitionPaths_eq (h : s.Coherent database) {parent : Option DocumentPath}
    {group : CollectionId} {partitionCount : ℕ} :
    s.collectionGroupPartitionPathsAt parent group.1 version partitionCount =
      if min partitionCount ((s.visiblePaths (.collectionGroup parent group) version).length - 1) = 0
      then [] else pickCuts (s.visiblePaths (.collectionGroup parent group) version).length
        (min partitionCount ((s.visiblePaths (.collectionGroup parent group) version).length - 1)) 0 1
        (s.visiblePaths (.collectionGroup parent group) version) := by
  have hv := h.filter_group parent group version
  unfold collectionGroupPartitionPathsAt
  rw [tryNew_val]
  dsimp only
  rw [← hv, GroupedIndex.group]
  cases (if version = s.version then s.indexes.liveCollectionGroupPaths
    else s.indexes.collectionGroupPaths).get group with
  | none => exact (if_pos (Nat.min_zero _)).symm
  | some paths => rfl

/-- The cuts of a partition query are as many as asked for and possible, and the ranges they
delimit differ in size by one document at most. -/
theorem partition_cuts_balanced (requests : List (DatabaseRequest database)) (parent : Option DocumentPath)
    (group : CollectionId) (version : CommitVersion) (partitionCount : ℕ) :
    let s := empty.run requests
    let visible := s.visiblePaths (.collectionGroup parent group) version
    let cuts := s.collectionGroupPartitionPathsAt parent group.1 version partitionCount
    cuts.length = min partitionCount (visible.length - 1) ∧ cuts.Pairwise (· < ·) ∧
      (∀ p ∈ cuts, p ∈ visible ∧ visible.head? ≠ some p) ∧
      (∀ a ∈ rangeSizes cuts visible, ∀ b ∈ rangeSizes cuts visible, a ≤ b + 1) ∧
      (rangeSizes cuts visible).sum = visible.length := by
  intro s visible cuts
  have hsorted : visible.Pairwise (· < ·) := s.visiblePaths_sorted
  have hcuts : cuts = if min partitionCount (visible.length - 1) = 0 then [] else
      pickCuts visible.length (min partitionCount (visible.length - 1)) 0 1 visible :=
    ((coherent_empty database).run requests).partitionPaths_eq
  by_cases hzero : min partitionCount (visible.length - 1) = 0
  · rw [if_pos hzero] at hcuts
    rw [hcuts, hzero]
    exact ⟨rfl, List.Pairwise.nil, nofun, by simp [rangeSizes], sum_rangeSizes _ _⟩
  · rw [if_neg hzero] at hcuts
    have hlt : min partitionCount (visible.length - 1) < visible.length := by omega
    have htail := pickCuts_sublist_tail hlt
    have hbalanced := rangeSizes_balanced hsorted hlt
    rw [← hcuts] at htail hbalanced
    refine ⟨hcuts ▸ length_pickCuts hsorted hlt,
      hsorted.sublist (htail.trans (tail_sublist visible)), fun p hp => ?_,
      fun a ha b hb => ?_, sum_rangeSizes _ _⟩
    · have hmem := htail.subset hp
      refine ⟨mem_of_mem_tail hmem, fun hhead => ?_⟩
      obtain ⟨rest, hrest⟩ := List.head?_eq_some_iff.1 hhead
      rw [hrest] at hmem hsorted
      exact ((pairwise_cons.1 hsorted).1 p hmem).false
    · exact (hbalanced a ha).2.trans (Nat.succ_le_succ (hbalanced b hb).1)

end Store

end Fireemu
