import Mathlib.Tactic

/-!
# Even cuts

Cutting an ascending list of `n` elements at the ranks `n * i / (k + 1)`, for `i` from `1` to `k`,
in one pass that compares a running rank with the next of these ranks.  With `k < n` the pass picks
`k` elements, none of them the first (`length_pickCuts`, `pickCuts_sublist_tail`), and the ranges
between them differ in size by one at most (`rangeSizes_balanced`).
-/

namespace Fireemu.Library

open List

universe u

variable {α : Type u}

/-- The rank at which a range begins. -/
def cutRank (count cuts i : ℕ) : ℕ := count * i / (cuts + 1)

/-- One pass over a list: an element is picked when its rank is that of the next cut. -/
def pickCuts (count cuts : ℕ) : ℕ → ℕ → List α → List α
  | _, _, [] => []
  | rank, next, a :: l =>
      if next ≤ cuts ∧ rank = cutRank count cuts next then
        a :: pickCuts count cuts (rank + 1) (next + 1) l
      else pickCuts count cuts (rank + 1) next l

/-- The sizes of the ranges that cuts delimit: below the first, from each to the next, and from the
last on. -/
def rangeSizes [LinearOrder α] : List α → List α → List ℕ
  | [], l => [l.length]
  | c :: cuts, l => (l.takeWhile (· < c)).length :: rangeSizes cuts (l.dropWhile (· < c))

section rank

variable {count cuts : ℕ}

theorem cutRank_last : cutRank count cuts (cuts + 1) = count :=
  Nat.mul_div_cancel _ (Nat.succ_pos _)

/-- A range has the size of the smallest range, or one element more. -/
theorem cutRank_succ (count cuts i : ℕ) :
    cutRank count cuts i + count / (cuts + 1) ≤ cutRank count cuts (i + 1) ∧
      cutRank count cuts (i + 1) ≤ cutRank count cuts i + count / (cuts + 1) + 1 := by
  unfold cutRank
  rw [Nat.mul_succ, Nat.add_div (show 0 < cuts + 1 from Nat.succ_pos cuts)]
  split_ifs <;> omega

theorem cutRank_lt_succ (h : cuts < count) (i : ℕ) : cutRank count cuts i < cutRank count cuts (i + 1) := by
  have hpos : 0 < count / (cuts + 1) := Nat.div_pos h (Nat.succ_pos _)
  have := (cutRank_succ count cuts i).1
  omega

theorem cutRank_strictMono (h : cuts < count) : StrictMono (cutRank count cuts) :=
  strictMono_nat_of_lt_succ (cutRank_lt_succ h)

end rank

theorem pickCuts_sublist (count cuts : ℕ) (rank next : ℕ) (l : List α) :
    (pickCuts count cuts rank next l).Sublist l := by
  induction l generalizing rank next with
  | nil => exact .slnil
  | cons a l ih =>
    unfold pickCuts
    split_ifs
    · exact (ih _ _).cons_cons a
    · exact (ih _ _).cons a

variable {l : List α}

/-- The first element is not picked. -/
theorem pickCuts_sublist_tail {cuts : ℕ} (hcuts : cuts < l.length) :
    (pickCuts l.length cuts 0 1 l).Sublist l.tail := by
  cases l with
  | nil => exact .slnil
  | cons a l =>
    have hpos : 0 < cutRank (a :: l).length cuts 1 := Nat.zero_lt_of_lt (cutRank_lt_succ hcuts 0)
    rw [pickCuts, if_neg fun h => hpos.ne h.2]
    exact pickCuts_sublist ..

variable [LinearOrder α]

theorem length_rangeSizes {cuts : List α} (l : List α) : (rangeSizes cuts l).length = cuts.length + 1 := by
  induction cuts generalizing l with
  | nil => rfl
  | cons c cuts ih => rw [rangeSizes, length_cons, ih, length_cons]

/-- The ranges cover the list. -/
theorem sum_rangeSizes (cuts l : List α) : (rangeSizes cuts l).sum = l.length := by
  induction cuts generalizing l with
  | nil => simp [rangeSizes]
  | cons c cuts ih =>
    rw [rangeSizes, sum_cons, ih, ← length_append, takeWhile_append_dropWhile]

/-- An element below every cut makes the first range larger by one. -/
theorem rangeSizes_cons {a : α} {cuts : List α} (h : ∀ c ∈ cuts, a < c) (l : List α) :
    rangeSizes cuts (a :: l) = (rangeSizes cuts l).modifyHead (· + 1) := by
  cases cuts with
  | nil => rfl
  | cons c =>
    have hc : decide (a < c) = true := decide_eq_true (h c mem_cons_self)
    rw [rangeSizes, rangeSizes, takeWhile_cons_of_pos (p := fun x => decide (x < c)) hc,
      dropWhile_cons_of_pos (p := fun x => decide (x < c)) hc]
    rfl

/-- The pass cuts at the ranks that are left. -/
theorem rangeSizes_pickCuts {count cuts : ℕ} (hcuts : cuts < count) (rank next : ℕ) (hl : l.Pairwise (· < ·))
    (hcount : rank + l.length = count) (hnext : next ≤ cuts + 1) (hrank : rank ≤ cutRank count cuts next) :
    rangeSizes (pickCuts count cuts rank next l) l =
      (cutRank count cuts next - rank) :: (List.range' next (cuts + 1 - next)).map
        fun i => cutRank count cuts (i + 1) - cutRank count cuts i := by
  induction l generalizing rank next with
  | nil =>
    have hlast : next = cuts + 1 := by
      by_contra hne
      have hlt := cutRank_strictMono hcuts (Nat.lt_of_le_of_ne hnext hne)
      rw [cutRank_last] at hlt
      simp only [length_nil] at hcount
      omega
    subst hlast
    rw [cutRank_last] at hrank ⊢
    simp only [length_nil] at hcount
    simp [pickCuts, rangeSizes]
    omega
  | cons a l ih =>
    obtain ⟨ha, hl⟩ := pairwise_cons.1 hl
    rw [length_cons] at hcount
    have habove : ∀ rank next, ∀ c ∈ pickCuts count cuts rank next l, a < c :=
      fun rank next c hc => ha c ((pickCuts_sublist ..).subset hc)
    unfold pickCuts
    split_ifs with hpick
    · -- the element begins the next range
      have hlt := cutRank_lt_succ hcuts next
      have hrest := ih (rank + 1) (next + 1) hl (by omega) (by omega) (by omega)
      have hlen : cuts + 1 - next = cuts + 1 - (next + 1) + 1 := by omega
      rw [rangeSizes, takeWhile_cons_of_neg (by simp), dropWhile_cons_of_neg (by simp),
        rangeSizes_cons (habove _ _), hrest, hlen, range'_succ, map_cons]
      simp only [length_nil, modifyHead_cons]
      congr 1
      · omega
      · congr 1
        omega
    · have hne : rank ≠ cutRank count cuts next := fun heq => by
        have hlast : next = cuts + 1 := by
          by_contra hne
          exact hpick ⟨by omega, heq⟩
        rw [hlast, cutRank_last] at heq
        omega
      have hrest := ih (rank + 1) next hl (by omega) hnext (by omega)
      rw [rangeSizes_cons (habove _ _), hrest, modifyHead_cons]
      congr 1
      omega

section whole

variable {cuts : ℕ} {l : List α}

/-- As many elements are picked as there are cuts. -/
theorem length_pickCuts (hl : l.Pairwise (· < ·)) (hcuts : cuts < l.length) :
    (pickCuts l.length cuts 0 1 l).length = cuts := by
  have hs := congrArg List.length (rangeSizes_pickCuts hcuts 0 1 hl (Nat.zero_add _)
    (Nat.le_add_left 1 cuts) (Nat.zero_le _))
  rw [length_rangeSizes, length_cons, length_map, length_range'] at hs
  omega

/-- The ranges differ in size by one at most. -/
theorem rangeSizes_balanced (hl : l.Pairwise (· < ·)) (hcuts : cuts < l.length) :
    ∀ a ∈ rangeSizes (pickCuts l.length cuts 0 1 l) l,
      l.length / (cuts + 1) ≤ a ∧ a ≤ l.length / (cuts + 1) + 1 := by
  rw [rangeSizes_pickCuts hcuts 0 1 hl (Nat.zero_add _) (Nat.le_add_left 1 cuts)
    (Nat.zero_le _)]
  have hsize : ∀ i, l.length / (cuts + 1) ≤
      cutRank l.length cuts (i + 1) - cutRank l.length cuts i ∧
      cutRank l.length cuts (i + 1) - cutRank l.length cuts i ≤ l.length / (cuts + 1) + 1 :=
    fun i => by
      obtain ⟨hlower, hu⟩ := cutRank_succ l.length cuts i
      exact ⟨Nat.le_sub_of_add_le' hlower, Nat.sub_le_iff_le_add'.2 hu⟩
  intro a ha
  rcases mem_cons.1 ha with rfl | ha
  · have hf := hsize 0
    rwa [show cutRank l.length cuts 0 = 0 by simp [cutRank]] at hf
  · obtain ⟨i, -, rfl⟩ := mem_map.1 ha
    exact hsize i

end whole

end Fireemu.Library
