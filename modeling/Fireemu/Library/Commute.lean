import Mathlib.Data.List.Perm.Basic

/-!
# Steps that commute

A fold does not depend on the order of its list when neighbouring steps commute.  The steps need to
commute only in the states that are met, so an invariant of the state and the steps still to come is
carried along.
-/

namespace Fireemu.Library

universe u v

variable {α : Type u} {β : Type v}

theorem foldl_eq_of_perm {f : β → α → β} (I : List α → β → Prop)
    (perm : ∀ {l l' b}, l.Perm l' → I l b → I l' b) (step : ∀ {a l b}, I (a :: l) b → I l (f b a))
    (comm : ∀ {a a' l b}, I (a :: a' :: l) b → f (f b a) a' = f (f b a') a) {l l' : List α} (h : l.Perm l')
    {b : β} (hb : I l b) : l.foldl f b = l'.foldl f b := by
  induction h generalizing b with
  | nil => rfl
  | cons a _ ih => exact ih (step hb)
  | swap => rw [List.foldl_cons, List.foldl_cons, List.foldl_cons, List.foldl_cons, comm hb]
  | trans h _ ih ih' => exact (ih hb).trans (ih' (perm h hb))

end Fireemu.Library
