import Mathlib.Tactic
import Mathlib.Data.List.Lex
import Mathlib.Data.Prod.Lex

/-!
# Lexicographic orders on lists

* appending the least letter gives the next word (`not_between_append_bot`), so the words between
  a word and its successor, taken at the last position of a sequence, are the extensions of the
  sequence (`lt_lt_replaceLast_iff`);
* comparing sequences of pairs is comparing the sequences of their components
  (`flattenPairs_strictMono`).
-/

namespace Fireemu.Library

open List

universe u v

variable {α : Type u} [LinearOrder α]

/-- No word lies strictly between a word and the word with the least letter appended. -/
theorem not_between_append_bot {b : α} (hb : ∀ x, b ≤ x) {d e : List α} (h : d < e)
    (h' : e < d ++ [b]) : False := by
  induction d generalizing e with
  | nil =>
    cases e with
    | nil => exact lt_irrefl _ h
    | cons x =>
      rw [nil_append, cons_lt_cons_iff] at h'
      rcases h' with hlt | ⟨-, hlt⟩
      · exact (hb x).not_gt hlt
      · exact not_lt_nil _ hlt
  | cons y d ih =>
    cases e with
    | nil => exact not_lt_nil _ h
    | cons =>
      rw [cons_append, cons_lt_cons_iff] at h'
      rw [cons_lt_cons_iff] at h
      rcases h with hlt | ⟨heq, hlt⟩
      · rcases h' with hlt' | ⟨heq', -⟩
        · exact hlt.asymm hlt'
        · exact hlt.ne heq'.symm
      · rcases h' with hlt' | ⟨-, hlt'⟩
        · exact hlt'.ne heq.symm
        · exact ih hlt hlt'

theorem nil_lt_iff_ne_nil {l : List α} : [] < l ↔ l ≠ [] := by
  cases l with
  | nil => simp
  | cons => simp [nil_lt_cons]

/-- Sequences above a sequence `l ++ [a]` and below the one whose last entry is the next entry are
the proper extensions. -/
theorem lt_lt_replaceLast_iff {a a' : α} (haa : a < a') (hnext : ∀ x, a < x → ¬ x < a') (l m : List α) :
    (l ++ [a] < m ∧ m < l ++ [a']) ↔ ∃ t, t ≠ [] ∧ m = l ++ [a] ++ t := by
  induction l generalizing m with
  | nil =>
    cases m with
    | nil => simp
    | cons x m =>
      simp only [nil_append, cons_lt_cons_iff, singleton_append, List.cons.injEq]
      constructor
      · rintro ⟨hlt | ⟨rfl, hlt⟩, h2⟩
        · rcases h2 with h2 | ⟨-, h2⟩
          · exact absurd h2 (hnext x hlt)
          · exact absurd h2 (not_lt_nil _)
        · exact ⟨m, nil_lt_iff_ne_nil.1 hlt, rfl, rfl⟩
      · rintro ⟨t, ht, rfl, rfl⟩
        exact ⟨.inr ⟨rfl, nil_lt_iff_ne_nil.2 ht⟩, .inl haa⟩
  | cons y l ih =>
    cases m with
    | nil => simp [not_lt_nil]
    | cons x m =>
      simp only [cons_append, cons_lt_cons_iff, List.cons.injEq]
      constructor
      · rintro ⟨hlt | ⟨rfl, hlt⟩, h2⟩
        · rcases h2 with h2 | ⟨rfl, -⟩
          · exact absurd h2 hlt.asymm
          · exact absurd hlt (lt_irrefl _)
        · have h2' : m < l ++ [a'] := by simpa using h2
          obtain ⟨t, ht, hm⟩ := (ih m).1 ⟨hlt, h2'⟩
          exact ⟨t, ht, rfl, hm⟩
      · rintro ⟨t, ht, rfl, hm⟩
        obtain ⟨h1, h2⟩ := (ih m).2 ⟨t, ht, hm⟩
        exact ⟨.inr ⟨rfl, h1⟩, .inr ⟨rfl, h2⟩⟩

/-- The components of a sequence of pairs, in order. -/
def flattenPairs (l : List (α ×ₗ α)) : List α := l.flatMap fun p => [(ofLex p).1, (ofLex p).2]

theorem flattenPairs_strictMono : StrictMono (flattenPairs : List (α ×ₗ α) → List α) := by
  intro l m h
  induction l generalizing m with
  | nil =>
    cases m with
    | nil => exact absurd h (lt_irrefl _)
    | cons => exact nil_lt_cons _ _
  | cons p l ih =>
    cases m with
    | nil => exact absurd h (not_lt_nil _)
    | cons =>
      rw [cons_lt_cons_iff, Prod.Lex.lt_iff] at h
      simp only [flattenPairs, flatMap_cons, cons_append, nil_append, cons_lt_cons_iff]
      rcases h with (h | ⟨h1, h2⟩) | ⟨rfl, h⟩
      · exact .inl h
      · exact .inr ⟨h1, .inl h2⟩
      · exact .inr ⟨rfl, .inr ⟨rfl, ih h⟩⟩

end Fireemu.Library
