import Mathlib.Tactic

/-!
# 64-bit arithmetic

Counters are natural numbers; the bound of the machine's representation appears where the source
checks for it or saturates.
-/

namespace Fireemu

/-- Bound of unsigned 64-bit integers. -/
def u64Max : ℕ := 2 ^ 64 - 1

/-- Addition that stops at the largest 64-bit integer. -/
def saturatingAdd (a b : ℕ) : ℕ := min (a + b) u64Max

/-- Multiplication that stops at the largest 64-bit integer. -/
def saturatingMul (a b : ℕ) : ℕ := min (a * b) u64Max

/-- Addition that refuses to leave the 64-bit integers. -/
def checkedAdd (a b : ℕ) : Option ℕ := if a + b ≤ u64Max then some (a + b) else none

theorem checkedAdd_eq_some {a b c : ℕ} : checkedAdd a b = some c ↔ a + b ≤ u64Max ∧ a + b = c := by
  unfold checkedAdd
  split_ifs with h <;> simp [h]

/-- Subtraction that refuses to go below zero. -/
def checkedSub (a b : ℕ) : Option ℕ := if b ≤ a then some (a - b) else none

theorem checkedSub_of_le {a b : ℕ} (h : b ≤ a) : checkedSub a b = some (a - b) := if_pos h

/-- Bounds of 64-bit integers. -/
def i64Max : ℤ := 2 ^ 63 - 1

@[inherit_doc i64Max]
def i64Min : ℤ := -2 ^ 63

/-- A 64-bit integer. -/
abbrev I64 := {i : ℤ // i64Min ≤ i ∧ i ≤ i64Max}

/-- The nearest 64-bit integer. -/
def I64.saturate (i : ℤ) : I64 :=
  ⟨max i64Min (min i64Max i), le_max_left _ _, max_le (by decide) (min_le_left _ _)⟩

/-- The 64-bit integer of that value, if there is one. -/
def I64.check (i : ℤ) : Option I64 := if h : i64Min ≤ i ∧ i ≤ i64Max then some ⟨i, h⟩ else none

end Fireemu
