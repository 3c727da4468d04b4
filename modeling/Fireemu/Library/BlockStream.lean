import Mathlib.Tactic

/-!
# Consuming a stream by blocks

A process that takes `n` items at a time is fed a list: `absorb` hands it the complete blocks and
keeps the rest.  Feeding two lists one after the other is feeding their concatenation, as long as the
rest of the first goes before the second (`absorb_append`).
-/

namespace Fireemu.Library

universe u v

variable {β : Type u} {σ : Type v} (f : σ → List β → σ) (n : ℕ)

/-- Feed the complete blocks of a list; what is left is shorter than a block. -/
def absorb (s : σ) (l : List β) : σ × List β :=
  if 0 < n ∧ n ≤ l.length then absorb (f s (l.take n)) (l.drop n) else (s, l)
termination_by l.length
decreasing_by
  rw [List.length_drop]
  omega

variable {f n} {s : σ} {l : List β}

theorem absorb_of_lt (h : l.length < n) : absorb f n s l = (s, l) := by
  rw [absorb, if_neg (fun h' => absurd h'.2 h.not_ge)]

theorem absorb_of_le (hn : 0 < n) (h : n ≤ l.length) :
    absorb f n s l = absorb f n (f s (l.take n)) (l.drop n) := by
  rw [absorb, if_pos ⟨hn, h⟩]

theorem length_absorb_lt (hn : 0 < n) (s : σ) (l : List β) : (absorb f n s l).2.length < n := by
  fun_induction absorb f n s l with
  | case1 s l _ ih => exact ih
  | case2 s l h => exact not_le.1 fun hle => h ⟨hn, hle⟩

/-- Two lists one after the other. -/
theorem absorb_append (hn : 0 < n) (s : σ) (l m : List β) :
    absorb f n s (l ++ m) = absorb f n (absorb f n s l).1 ((absorb f n s l).2 ++ m) := by
  fun_induction absorb f n s l with
  | case1 s l h ih =>
    have hle : n ≤ (l ++ m).length := by
      rw [List.length_append]
      exact Nat.le_add_right_of_le h.2
    rw [absorb_of_le hn hle, List.take_append_of_le_length h.2, List.drop_append_of_le_length h.2, ih]
  | case2 => rfl

end Fireemu.Library
