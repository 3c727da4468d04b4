import Mathlib.Data.List.Forall2

/-!
# Computations that can fail

What a computation in `Except` did, read off its result: each lemma takes a computation that
succeeded apart into the steps that succeeded.
-/

namespace Fireemu.Library

open List

universe u v w

variable {ε : Type u} {α β : Type v}

theorem bind_eq_ok {x : Except ε α} {f : α → Except ε β} {b : β} :
    x >>= f = .ok b ↔ ∃ a, x = .ok a ∧ f a = .ok b := by
  cases x with
  | error => exact iff_of_false nofun nofun
  | ok a =>
    constructor
    · exact fun h => ⟨a, rfl, h⟩
    · rintro ⟨_, ⟨⟩, h⟩
      exact h

theorem map_eq_ok {x : Except ε α} {f : α → β} {b : β} : x.map f = .ok b ↔ ∃ a, x = .ok a ∧ f a = b := by
  cases x with
  | error => exact iff_of_false nofun nofun
  | ok a =>
    constructor
    · exact fun h => ⟨a, rfl, Except.ok.inj h⟩
    · rintro ⟨_, ⟨⟩, rfl⟩
      rfl

theorem mapError_eq_ok {ε' : Type u} {x : Except ε α} {f : ε → ε'} {a : α} :
    x.mapError f = .ok a ↔ x = .ok a := by
  cases x <;> simp [Except.mapError]

/-- A check that throws has to fail. -/
theorem ite_throw_eq_ok {c : Prop} [Decidable c] {e : ε} {f : α → Except ε β} {x : Except ε β}
    {b : β} : (if c then (throw e >>= f) else x) = .ok b ↔ ¬ c ∧ x = .ok b := by
  split_ifs with hc
  · exact iff_of_false nofun fun h => h.1 hc
  · exact (and_iff_right hc).symm

variable {α : Type w} {l : List α}

theorem forM_eq_ok {f : α → Except ε PUnit.{v + 1}} : l.forM f = .ok ⟨⟩ ↔ ∀ a ∈ l, f a = .ok ⟨⟩ := by
  induction l with
  | nil => exact iff_of_true rfl nofun
  | cons a l ih =>
    change (f a >>= fun _ => l.forM f) = .ok ⟨⟩ ↔ _
    rw [bind_eq_ok, forall_mem_cons, ← ih]
    exact ⟨fun ⟨_, h, h'⟩ => ⟨h, h'⟩, fun ⟨h, h'⟩ => ⟨⟨⟩, h, h'⟩⟩

variable {l' : List β}

theorem mapM_eq_ok {f : α → Except ε β} : l.mapM f = .ok l' ↔ List.Forall₂ (fun a b => f a = .ok b) l l' := by
  induction l generalizing l' with
  | nil =>
    constructor
    · rintro ⟨⟩
      exact .nil
    · rintro ⟨⟩
      rfl
  | cons a l ih =>
    rw [mapM_cons, bind_eq_ok]
    constructor
    · rintro ⟨b, hb, h⟩
      obtain ⟨bs, hbs, h⟩ := bind_eq_ok.1 h
      cases h
      exact .cons hb (ih.1 hbs)
    · rintro (_ | ⟨hb, hbs⟩)
      exact ⟨_, hb, bind_eq_ok.2 ⟨_, ih.2 hbs, rfl⟩⟩

theorem exists_mem_of_forall₂ {R : α → β → Prop} (h : List.Forall₂ R l l') {b : β} (hb : b ∈ l') :
    ∃ a ∈ l, R a b := by
  induction h with
  | nil => cases hb
  | cons ha _ ih =>
    rcases mem_cons.1 hb with rfl | hb
    · exact ⟨_, mem_cons_self, ha⟩
    · obtain ⟨a, hmem, ha⟩ := ih hb
      exact ⟨a, mem_cons_of_mem _ hmem, ha⟩

/-- Every result of a successful `mapM` is the result of one of its steps. -/
theorem exists_mem_of_mapM_eq_ok {f : α → Except ε β} (h : l.mapM f = .ok l') {b : β}
    (hb : b ∈ l') : ∃ a ∈ l, f a = .ok b :=
  exists_mem_of_forall₂ (mapM_eq_ok.1 h) hb

/-- What every step of a fold that succeeds keeps, the whole fold keeps. -/
theorem foldlM_rule {f : β → α → Except ε β} (P : β → Prop)
    (hstep : ∀ b b', ∀ a ∈ l, P b → f b a = .ok b' → P b') {b b' : β} (hb : P b)
    (h : l.foldlM f b = .ok b') : P b' := by
  induction l generalizing b with
  | nil =>
    cases h
    exact hb
  | cons a l ih =>
    rw [foldlM_cons, bind_eq_ok] at h
    obtain ⟨b₁, h₁, h⟩ := h
    exact ih (fun b b' a' ha' => hstep b b' a' (mem_cons_of_mem _ ha'))
      (hstep b b₁ a mem_cons_self hb h₁) h

end Fireemu.Library
