import Mathlib.Data.List.Basic

/-!
# Loops that may give up

A loop over a list that updates a value and a state and may give up at any step; the state is kept
when it does.  `loop_marks` is the rule for a loop that sets a mark: some step sets it, and no step
takes it away.
-/

namespace Fireemu.Library

open List

variable {ι β σ : Type}

/-- Runs the steps of a loop until one gives up. -/
def loop (f : ι → β → σ → Option β × σ) : List ι → β → σ → Option β × σ
  | [], b, st => (some b, st)
  | i :: l, b, st =>
      match f i b st with
      | (none, st) => (none, st)
      | (some b, st) => loop f l b st

variable {f : ι → β → σ → Option β × σ} {l : List ι} {b b' : β} {st st' : σ} {i : ι}

theorem loop_cons_eq_some (h : loop f (i :: l) b st = (some b', st')) :
    ∃ b₁ st₁, f i b st = (some b₁, st₁) ∧ loop f l b₁ st₁ = (some b', st') := by
  rw [loop] at h
  split at h
  · cases h
  · rename_i b₁ st₁ hf
    exact ⟨b₁, st₁, hf, h⟩

/-- An invariant of the value and the state that every step keeps. -/
theorem loop_inv (inv : β → σ → Prop)
    (hinv : ∀ i ∈ l, ∀ b st b' st', f i b st = (some b', st') → inv b st → inv b' st')
    (h : loop f l b st = (some b', st')) (hb : inv b st) : inv b' st' := by
  induction l generalizing b st with
  | nil =>
    cases h
    exact hb
  | cons i l ih =>
    obtain ⟨b₁, st₁, hf, hrest⟩ := loop_cons_eq_some h
    obtain ⟨hi, hl⟩ := forall_mem_cons.1 hinv
    exact ih hl hrest (hi b st b₁ st₁ hf hb)

/-- An invariant of the state is kept whether or not the loop gives up. -/
theorem loop_state {inv : σ → Prop} (hinv : ∀ i ∈ l, ∀ b st, inv st → inv (f i b st).2)
    (hst : inv st) : inv (loop f l b st).2 := by
  induction l generalizing b st with
  | nil => exact hst
  | cons i l ih =>
    obtain ⟨hi, hl⟩ := forall_mem_cons.1 hinv
    have hone := hi b st hst
    rw [loop]
    split
    · rename_i hf
      rwa [hf] at hone
    · rename_i hf
      rw [hf] at hone
      exact ih hl hone

/-- A mark that one step sets and no step takes away is set at the end. -/
theorem loop_marks (inv : β → σ → Prop) (mark : β → Prop)
    (hinv : ∀ i ∈ l, ∀ b st b' st', f i b st = (some b', st') → inv b st → inv b' st')
    (hkeep : ∀ i ∈ l, ∀ b st b' st', f i b st = (some b', st') → inv b st → mark b → mark b') (hi : i ∈ l)
    (hset : ∀ b st b' st', f i b st = (some b', st') → inv b st → mark b')
    (h : loop f l b st = (some b', st')) (hb : inv b st) : mark b' := by
  induction l generalizing b st with
  | nil => cases hi
  | cons j l ih =>
    obtain ⟨b₁, st₁, hf, hrest⟩ := loop_cons_eq_some h
    obtain ⟨hj, hinvl⟩ := forall_mem_cons.1 hinv
    obtain ⟨-, hkeepl⟩ := forall_mem_cons.1 hkeep
    have hb₁ := hj b st b₁ st₁ hf hb
    rcases mem_cons.1 hi with rfl | hi
    · -- set here, kept by the rest
      have hstep : ∀ k ∈ l, ∀ c t c' t', f k c t = (some c', t') → inv c t ∧ mark c →
          inv c' t' ∧ mark c' := fun k hk c t c' t' hk' hc =>
        ⟨hinvl k hk c t c' t' hk' hc.1, hkeepl k hk c t c' t' hk' hc.1 hc.2⟩
      exact (loop_inv (fun c t => inv c t ∧ mark c) hstep hrest
        ⟨hb₁, hset b st b₁ st₁ hf hb⟩).2
    · exact ih hinvl hkeepl hi hrest hb₁

end Fireemu.Library
