import Fireemu.Firestore.Accounting

/-!
# Reclaim charged from the dropped versions

What a compaction reclaims from a path is the charge of the path less the charge of what is left of
it.  The charges of the newest version are in both and cancel, so the versions dropped, charged as
historical ones, are the whole difference: unless a counter saturates.
-/

namespace Fireemu

open Library (VersionChain.cut)

variable {counts : HistoryCounts} {path : DocumentPath} {sizes dropped kept : List (Option ℕ)}
  {size : Option ℕ}

/-- The charges of a version that is not the newest of its path. -/
def historicalCharge (size : Option ℕ) : HistoryCounts
  | .versions => 1
  | .versionMetadataBytes => historyVersionMetadataBytes
  | .historicalDocumentBytes => size.getD 0
  | .tombstones => if size.isNone then 1 else 0
  | .tombstoneBytes => if size.isNone then historyTombstoneBytes else 0
  | _ => 0

/-- The charges of the newest version, its path apart. -/
def newestCharge (size : Option ℕ) : HistoryCounts
  | .liveDocumentBytes => size.getD 0
  | .historicalDocumentBytes => 0
  | c => historicalCharge size c

/-- The charges of versions that are not the newest of their path. -/
def historicalCharges (sizes : List (Option ℕ)) (c : HistoryComponent) : ℕ :=
  (sizes.map (historicalCharge · c)).sum

theorem saturatingAdd_le {a b : ℕ} : saturatingAdd a b ≤ u64Max := min_le_right _ _

theorem saturatingAdd_assoc {a b c : ℕ} : saturatingAdd (saturatingAdd a b) c = saturatingAdd a (b + c) := by
  unfold saturatingAdd
  omega

theorem bumpVersion_eq (h : ∀ c, counts c ≤ u64Max) (size : Option ℕ) :
    bumpVersion counts size = fun c => saturatingAdd (counts c) (historicalCharge size c) := by
  funext c
  have hc := h c
  cases size <;> cases c <;> simp [bumpVersion, bump, historicalCharge, saturatingAdd, hc]

theorem foldl_bumpVersion (h : ∀ c, counts c ≤ u64Max) (sizes : List (Option ℕ)) :
    sizes.foldl bumpVersion counts = fun c => saturatingAdd (counts c) (historicalCharges sizes c) := by
  induction sizes generalizing counts with
  | nil => funext c; simpa [historicalCharges, saturatingAdd] using h c
  | cons size sizes ih =>
    rw [List.foldl_cons, bumpVersion_eq h, ih fun c => saturatingAdd_le]
    funext c
    exact saturatingAdd_assoc

theorem historyPathCounts_append :
    historyPathCounts path counts (sizes ++ [size]) =
      historyPathCounts path (sizes.foldl bumpVersion counts) [size] := by
  induction sizes generalizing counts with
  | nil => rfl
  | cons a sizes ih =>
    rw [List.foldl_cons, ← ih]
    cases sizes <;> rfl

variable {c : HistoryComponent}

theorem historyPathCounts_singleton (h : ∀ c, counts c ≤ u64Max) (hc : c ≠ .pathAndIndexBytes)
    (size : Option ℕ) :
    historyPathCounts path counts [size] c = saturatingAdd (counts c) (newestCharge size c) := by
  have hle := h c
  cases size <;> cases c <;>
    simp_all [historyPathCounts, bumpVersion, bump, newestCharge, historicalCharge, saturatingAdd]

/-- The counts a path is charged from. -/
def onePath : HistoryCounts := Function.update 0 .paths 1

theorem onePath_le (c : HistoryComponent) : onePath c ≤ u64Max := by
  cases c <;> decide

theorem usageFromSizes_append (sizes : List (Option ℕ)) (size : Option ℕ) :
    historyPathUsageFromSizes path (sizes ++ [size]) =
      finishHistoryUsage (historyPathCounts path onePath (sizes ++ [size])) := by
  simp [historyPathUsageFromSizes, onePath]

theorem count_eq (path : DocumentPath) (sizes : List (Option ℕ)) (size : Option ℕ)
    (hc : c ≠ .pathAndIndexBytes) :
    (historyPathUsageFromSizes path (sizes ++ [size])).counts c =
      saturatingAdd (onePath c) (historicalCharges sizes c + newestCharge size c) := by
  rw [usageFromSizes_append, ← saturatingAdd_assoc]
  change historyPathCounts path onePath (sizes ++ [size]) c = _
  rw [historyPathCounts_append, foldl_bumpVersion onePath_le]
  exact historyPathCounts_singleton (fun _ => saturatingAdd_le) hc size

theorem count_path (path : DocumentPath) (sizes : List (Option ℕ)) (size : Option ℕ) :
    (historyPathUsageFromSizes path (sizes ++ [size])).counts .pathAndIndexBytes =
      historyPathAndIndexBytes path size.isSome := by
  rw [usageFromSizes_append]
  simp [finishHistoryUsage, historyPathCounts_append, historyPathCounts]

theorem subtract_zero :
    subtractHistoryUsage (historyPathUsageFromSizes path sizes) .zero =
      historyPathUsageFromSizes path sizes := by
  unfold historyPathUsageFromSizes
  split_ifs <;> rfl

theorem HistoryUsage.count_lt {u : HistoryUsage} (h : u.unsaturated) (c : HistoryComponent) :
    u.counts c < u64Max := by
  simp only [unsaturated, Bool.and_eq_true, List.all_eq_true, decide_eq_true_eq] at h
  exact h.2 c (by cases c <;> simp [HistoryComponent.all])

/-- Where the dropped versions are charged, the whole path does not pass the largest counter. -/
def Fits (dropped kept : List (Option ℕ)) (size : Option ℕ) : Prop :=
  ∀ c, historicalCharges dropped c = 0 ∨
    onePath c + (historicalCharges (dropped ++ kept) c + newestCharge size c) ≤ u64Max

theorem historicalCharges_append {sizes' : List (Option ℕ)} :
    historicalCharges (sizes ++ sizes') c = historicalCharges sizes c + historicalCharges sizes' c := by
  simp [historicalCharges]

theorem Fits.reclaim (h : Fits dropped kept size) :
    subtractHistoryUsage (historyPathUsageFromSizes path (dropped ++ kept ++ [size]))
      (historyPathUsageFromSizes path (kept ++ [size])) = historyDroppedPrefixUsage dropped := by
  refine congrArg finishHistoryUsage (funext fun c => ?_)
  have hzero : ∀ c, (0 : HistoryCounts) c ≤ u64Max := fun _ => Nat.zero_le _
  rw [foldl_bumpVersion hzero]
  by_cases hc : c = .pathAndIndexBytes
  · -- The path is charged with the newest version, on both sides.
    subst hc
    rw [count_path, count_path]
    simp [historicalCharges, historicalCharge, saturatingAdd]
  · rw [count_eq _ _ _ hc, count_eq _ _ _ hc]
    have hfits := h c
    simp only [historicalCharges_append, saturatingAdd, Pi.zero_apply] at hfits ⊢
    omega

/-- The whole path is counted without saturation. -/
theorem Fits.of_unsaturated
    (h : (historyPathUsageFromSizes path (dropped ++ kept ++ [size])).unsaturated) :
    Fits dropped kept size := by
  intro c
  by_cases hc : c = .pathAndIndexBytes
  · left
    simp [hc, historicalCharges, historicalCharge]
  · right
    have hlt := HistoryUsage.count_lt h c
    rw [count_eq _ _ _ hc, saturatingAdd] at hlt
    omega

theorem overhead_le_pathAndIndexBytes (path : DocumentPath) (live : Bool) :
    min historyPathKeyOverhead u64Max ≤ historyPathAndIndexBytes path live := by
  simp only [historyPathAndIndexBytes, saturatingAdd]
  omega

/-- The bytes of a path counted without saturation, its tombstones apart. -/
theorem bytes_lt_of_unsaturated {last : Option ℕ}
    (h : (historyPathUsageFromSizes path (sizes ++ [last])).unsaturated) :
    last.getD 0 + historicalCharges sizes .historicalDocumentBytes + historyPathKeyOverhead +
      (historicalCharges sizes .versionMetadataBytes + historyVersionMetadataBytes) < u64Max := by
  have htotal : (historyPathUsageFromSizes path (sizes ++ [last])).totalBytes < u64Max := by
    simp only [HistoryUsage.unsaturated, Bool.and_eq_true, decide_eq_true_eq] at h
    exact h.1
  have hlive := count_eq path sizes last (c := .liveDocumentBytes) (by decide)
  have hold := count_eq path sizes last (c := .historicalDocumentBytes) (by decide)
  have hmeta := count_eq path sizes last (c := .versionMetadataBytes) (by decide)
  have hpath := (overhead_le_pathAndIndexBytes path last.isSome).trans_eq (count_path path sizes last).symm
  rw [usageFromSizes_append] at htotal hlive hold hmeta hpath
  simp only [finishHistoryUsage, saturatingAdd, newestCharge, historicalCharge] at *
  omega

/-- One more version fits as well: the newest so far turns historical, and the charge of the path
leaves room for the metadata. -/
theorem Fits.of_existing (h : (historyPathUsageFromSizes path (dropped ++ kept)).unsaturated) :
    Fits dropped kept size := by
  intro c
  rcases List.eq_nil_or_concat' (dropped ++ kept) with hnil | ⟨sizes, last, heq⟩
  · left
    rw [(List.append_eq_nil_iff.1 hnil).1]
    rfl
  rw [heq] at h ⊢
  have hbytes := bytes_lt_of_unsaturated h
  have hcount := HistoryUsage.count_lt h c
  rw [historicalCharges_append]
  cases c
  case historicalDocumentBytes | versionMetadataBytes | versions | tombstones | tombstoneBytes =>
    right
    rw [count_eq _ _ _ (by decide)] at hcount
    cases last <;> cases size <;>
      simp [historicalCharges, historicalCharge, newestCharge, onePath, saturatingAdd,
        historyPathKeyOverhead, historyVersionMetadataBytes, historyTombstoneBytes] at * <;>
      omega
  all_goals
    left
    simp [historicalCharges, historicalCharge]

theorem sizes_take_append_drop (versions : Versions) (n : ℕ) :
    historyDocumentSizes (versions.take n) ++ historyDocumentSizes (versions.drop n) =
      historyDocumentSizes versions := by
  rw [historyDocumentSizes, historyDocumentSizes, ← List.map_append, List.take_append_drop]
  rfl

/-- A cut leaves the newest version in the chain. -/
theorem eq_nil_of_drop_cut {versions : Versions} {floor : CommitVersion}
    (h : versions.drop (VersionChain.cut versions floor) = []) : versions = [] := by
  have hle : (versions.takeWhile fun e => decide (e.1 ≤ floor)).length ≤ versions.length :=
    (List.takeWhile_sublist _).length_le
  have hdrop := List.drop_eq_nil_iff.1 h
  rw [← List.length_eq_zero_iff]
  unfold VersionChain.cut Library.partitionPoint at hdrop
  omega

/-- Charging the dropped versions alone is charging the path before and after, for a compaction and
for one after a prospective write. -/
theorem prefix_reclaim_eq_recount (path : DocumentPath) (versions : Versions) (afterSize : Option ℕ)
    (nextVersion floor : CommitVersion) :
    ((historyPathUsage path versions).unsaturated →
      historyPathReclaimUnsaturated path versions floor =
        subtractHistoryUsage (historyPathUsage path versions)
          (historyPathUsageAfterFloor path versions floor)) ∧
    ((historyPathUsage path versions).unsaturated ∨
        (historyPathUsageFromSizes path (historyDocumentSizes versions ++ [afterSize])).unsaturated →
      projectedHistoryPathReclaimUnsaturated path versions afterSize nextVersion floor =
        projectedHistoryPathReclaim path versions afterSize nextVersion floor) := by
  constructor
  · intro h
    simp only [historyPathReclaimUnsaturated, historyPathUsageAfterFloor]
    split_ifs
    · exact subtract_zero.symm
    · have hsizes := sizes_take_append_drop versions (VersionChain.cut versions floor)
      rcases List.eq_nil_or_concat' (historyDocumentSizes
        (versions.drop (VersionChain.cut versions floor))) with hnil | ⟨kept, size, hkept⟩
      · rw [eq_nil_of_drop_cut (List.map_eq_nil_iff.1 hnil)]
        rfl
      · rw [hkept, ← List.append_assoc] at hsizes
        rw [historyPathUsage, ← hsizes] at h ⊢
        rw [historyPathUsage, hkept]
        exact (Fits.of_unsaturated h).reclaim.symm
  · intro h
    simp only [projectedHistoryPathReclaimUnsaturated, projectedHistoryPathReclaim]
    split_ifs
    · exact subtract_zero.symm
    · rw [historyPathUsage] at h
      rw [← sizes_take_append_drop versions (projectedCut versions nextVersion floor)] at h ⊢
      exact (Fits.reclaim (h.elim Fits.of_existing Fits.of_unsaturated)).symm

/-- A path of one collection. -/
def reclaimedPath : DocumentPath :=
  ⟨⟨"p".toList, by decide⟩, ⟨"main".toList, by decide⟩, [(⟨"r".toList, by decide⟩, ⟨"s".toList, by decide⟩)],
    by decide, by decide, by decide⟩

theorem prefix_reclaim_eq_recount_sample :
    let versions : Versions := [(1, none), (2, none), (5, none)]
    historyPathReclaimUnsaturated reclaimedPath versions 3 =
        subtractHistoryUsage (historyPathUsage reclaimedPath versions)
          (historyPathUsageAfterFloor reclaimedPath versions 3) ∧
      projectedHistoryPathReclaimUnsaturated reclaimedPath versions (some 10) 7 3 =
        projectedHistoryPathReclaim reclaimedPath versions (some 10) 7 3 :=
  have h := prefix_reclaim_eq_recount reclaimedPath [(1, none), (2, none), (5, none)] (some 10) 7 3
  ⟨h.1 (by decide +kernel), h.2 (.inl (by decide +kernel))⟩

end Fireemu
