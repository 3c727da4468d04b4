import Mathlib.Tactic
import Mathlib.Data.List.Sort

/-!
# Three-way comparators

Code that sorts and searches compares with functions into `Ordering`.  This file collects what is
needed to reason about such functions:

* `linCmp`, the comparator of a linear order;
* `Coherent`, what the three comparisons of three elements say about each other when the
  comparator is a total preorder; it passes through lexicographic composition
  (`Coherent.then`), which is how a comparator defined by recursion is shown to be transitive;
* `sortBy`, a stable sort.
-/

namespace Fireemu.Library

universe u v

variable {α : Type u} {β : Type v}

/-! ### Linear orders -/

/-- The comparator of a linear order. -/
def linCmp [LinearOrder α] (a b : α) : Ordering := compare a b

instance [LinearOrder α] : Std.TransCmp (linCmp (α := α)) :=
  inferInstanceAs (Std.TransCmp (compare : α → α → Ordering))

instance [LinearOrder α] : Std.LawfulEqCmp (linCmp (α := α)) :=
  inferInstanceAs (Std.LawfulEqCmp (compare : α → α → Ordering))

variable {a b : α} {c : α → α → Ordering}

theorem linCmp_eq_lt [LinearOrder α] : linCmp a b = .lt ↔ a < b := compare_lt_iff_lt

theorem linCmp_eq_gt [LinearOrder α] : linCmp a b = .gt ↔ b < a := compare_gt_iff_gt

theorem linCmp_eq_eq [LinearOrder α] : linCmp a b = .eq ↔ a = b :=
  Std.LawfulEqCmp.compare_eq_iff_eq

theorem linCmp_map_of_strictMono [LinearOrder α] [LinearOrder β] {f : α → β} (hf : StrictMono f)
    (a b : α) : linCmp (f a) (f b) = linCmp a b := by
  have h := hf.cmp_map_eq a b
  rwa [cmp_eq_compare, cmp_eq_compare] at h

/-! ### Coherence of three comparisons -/

/-- The comparisons of `a` with `b`, of `b` with `c` and of `a` with `c` can come from one total
preorder. -/
def Coherent (ab bc ac : Ordering) : Prop :=
  (ab = .eq → ac = bc) ∧ (bc = .eq → ac = ab) ∧ (ab = bc → ac = ab)

instance (ab bc ac : Ordering) : Decidable (Coherent ab bc ac) :=
  inferInstanceAs (Decidable (_ ∧ _))

/-- A second comparison only matters where the first one leaves all three elements equal. -/
theorem Coherent.then {ab bc ac ab' bc' ac' : Ordering} (h : Coherent ab bc ac)
    (h' : ab = .eq → bc = .eq → Coherent ab' bc' ac') :
    Coherent (ab.then ab') (bc.then bc') (ac.then ac') := by
  obtain ⟨h1, h2, h3⟩ := h
  by_cases heq : ab = .eq ∧ bc = .eq
  · obtain ⟨rfl, rfl⟩ := heq
    rw [h1 rfl]
    exact h' rfl rfl
  · revert heq h1 h2 h3
    cases ab <;> cases bc <;> cases ac <;> simp [Ordering.then, Coherent, eq_comm]

theorem Coherent.eq : Coherent .eq .eq .eq := by decide

/-- A list that ends first comes first. -/
theorem coherent_of_nil {c : List α → List α → Ordering} (hnil : c [] [] = .eq)
    (hlt : ∀ x l, c [] (x :: l) = .lt) (hgt : ∀ x l, c (x :: l) [] = .gt) {x y z : List α}
    (h : x = [] ∨ y = [] ∨ z = []) : Coherent (c x y) (c y z) (c x z) := by
  cases x <;> cases y <;> cases z <;> simp_all [Coherent]

theorem coherent_of_transCmp [Std.TransCmp c] (x y z : α) : Coherent (c x y) (c y z) (c x z) := by
  refine ⟨fun h => Std.TransCmp.congr_left h, fun h => (Std.TransCmp.congr_right h).symm, fun h => ?_⟩
  cases hxy : c x y with
  | lt => exact Std.TransCmp.lt_trans hxy (h ▸ hxy)
  | eq => exact Std.TransCmp.eq_trans hxy (h ▸ hxy)
  | gt => exact Std.TransCmp.gt_trans hxy (h ▸ hxy)

/-- An oriented comparator whose comparisons are coherent is transitive. -/
theorem transCmp_of_coherent (hswap : ∀ x y, c x y = (c y x).swap)
    (hcoh : ∀ x y z, Coherent (c x y) (c y z) (c x z)) : Std.TransCmp c where
  eq_swap {x y} := hswap x y
  isLE_trans {x y z} hxy hyz := by
    obtain ⟨h1, h2, h3⟩ := hcoh x y z
    revert h1 h2 h3 hxy hyz
    cases c x y <;> cases c y z <;> cases c x z <;> decide

/-! ### Sorting -/

section Sorting

variable (c : α → α → Ordering)

/-- Not after, in the order of a comparator. -/
def LE (a b : α) : Prop := (c a b).isLE = true

instance : DecidableRel (LE c) := fun a b => inferInstanceAs (Decidable ((c a b).isLE = true))

/-- The stable sort of a list. -/
def sortBy (l : List α) : List α := l.insertionSort (LE c)

variable {c}

instance [Std.TransCmp c] : IsTrans α (LE c) := ⟨fun _ _ _ h h' => Std.TransCmp.isLE_trans h h'⟩

theorem swap_cmp [Std.OrientedCmp c] (a b : α) : (c a b).swap = c b a :=
  Std.OrientedCmp.eq_swap.symm

instance [Std.TransCmp c] : Std.Total (LE c) := ⟨fun a b => by
  unfold LE
  rw [← swap_cmp (c := c) a b]
  cases c a b <;> simp⟩

theorem sortBy_perm (l : List α) : (sortBy c l).Perm l := List.perm_insertionSort _ l

theorem pairwise_sortBy [Std.TransCmp c] (l : List α) : (sortBy c l).Pairwise (LE c) :=
  List.pairwise_insertionSort (LE c) l

theorem sortBy_of_pairwise {l : List α} (h : l.Pairwise (LE c)) : sortBy c l = l :=
  h.insertionSort_eq

end Sorting

end Fireemu.Library
