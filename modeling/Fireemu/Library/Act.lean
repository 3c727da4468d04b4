import Mathlib.Tactic

/-!
# Programs that change a state and can fail

`Act ε σ α` is a program over a state `σ` that ends with a result or an error and, in both cases,
with the state it has reached: what was changed before an error stays changed.

* Inversion: `bind_eq_ok` and `bind_eq_error` take a run apart into its steps.
* Weakest preconditions: `wp m Q E` holds of the states from which `m` ends in `Q` or fails in `E`;
  the rules tagged for `simp` reduce a program to conditions on states.
-/

namespace Fireemu.Library

universe u

/-- A program with errors `ε` over the state `σ`. -/
def Act (ε σ α : Type u) : Type u := σ → Except ε α × σ

namespace Act

variable {ε σ α β : Type u}

instance : Monad (Act ε σ) where
  pure a := fun s => (.ok a, s)
  bind m k := fun s =>
    match m s with
    | (.ok a, s') => k a s'
    | (.error e, s') => (.error e, s')

/-- The current state. -/
def get : Act ε σ σ := fun s => (.ok s, s)

/-- Change the state. -/
def modify (f : σ → σ) : Act ε σ PUnit := fun s => (.ok ⟨⟩, f s)

/-- A computation that reads nothing. -/
def lift (x : Except ε α) : Act ε σ α := fun s => (x, s)

/-- The content of an option, or an error. -/
def orElse (o : Option α) (e : ε) : Act ε σ α :=
  lift (match o with
    | some a => .ok a
    | none => .error e)

/-- A condition, or an error. -/
def require (c : Prop) [Decidable c] (e : ε) : Act ε σ PUnit :=
  lift (if c then .ok ⟨⟩ else .error e)

theorem bind_apply (m : Act ε σ α) (k : α → Act ε σ β) (s : σ) :
    (m >>= k) s = match m s with
      | (.ok a, s') => k a s'
      | (.error e, s') => (.error e, s') := rfl

@[simp] theorem pure_apply (a : α) (s : σ) : (pure a : Act ε σ α) s = (.ok a, s) := rfl

@[simp] theorem get_apply (s : σ) : (get : Act ε σ σ) s = (.ok s, s) := rfl

@[simp] theorem modify_apply (f : σ → σ) (s : σ) : (modify f : Act ε σ PUnit) s = (.ok ⟨⟩, f s) := rfl

@[simp] theorem lift_apply (x : Except ε α) (s : σ) : (lift x : Act ε σ α) s = (x, s) := rfl

/-! ### Taking a run apart -/

variable {k : α → Act ε σ β} {s s' : σ} {b : β}

theorem bind_eq_ok {m : Act ε σ α} :
    (m >>= k) s = (.ok b, s') ↔ ∃ a s₁, m s = (.ok a, s₁) ∧ k a s₁ = (.ok b, s') := by
  rw [bind_apply]
  rcases m s with ⟨e | a, s₁⟩
  · simp
  · simp

variable {e : ε}

theorem bind_eq_error {m : Act ε σ α} :
    (m >>= k) s = (.error e, s') ↔
      m s = (.error e, s') ∨ ∃ a s₁, m s = (.ok a, s₁) ∧ k a s₁ = (.error e, s') := by
  rw [bind_apply]
  rcases m s with ⟨e' | a, s₁⟩
  · simp
  · simp

variable {o : Option α} {a : α}

@[simp] theorem orElse_eq_ok : (orElse o e : Act ε σ α) s = (.ok a, s') ↔ o = some a ∧ s = s' := by
  unfold orElse
  cases o <;> simp

@[simp] theorem orElse_eq_error {e e' : ε} :
    (orElse o e : Act ε σ α) s = (.error e', s') ↔ o = none ∧ e = e' ∧ s = s' := by
  unfold orElse
  cases o <;> simp

variable {c : Prop}

@[simp] theorem require_eq_ok [Decidable c] {u : PUnit} :
    (require c e : Act ε σ PUnit) s = (.ok u, s') ↔ c ∧ s = s' := by
  unfold require
  by_cases hc : c <;> simp [hc]

@[simp] theorem require_eq_error [Decidable c] {e e' : ε} :
    (require c e : Act ε σ PUnit) s = (.error e', s') ↔ ¬ c ∧ e = e' ∧ s = s' := by
  unfold require
  by_cases hc : c <;> simp [hc]

@[simp] theorem get_bind_apply (k : σ → Act ε σ β) (s : σ) : (get >>= k) s = k s s := rfl

@[simp] theorem modify_bind_apply (f : σ → σ) (k : PUnit → Act ε σ β) (s : σ) :
    (modify f >>= k) s = k ⟨⟩ (f s) := rfl

@[simp] theorem pure_bind_apply (a : α) (k : α → Act ε σ β) (s : σ) : (pure a >>= k) s = k a s := rfl

@[simp] theorem require_bind_eq_ok [Decidable c] {k : PUnit → Act ε σ β} :
    (require c e >>= k) s = (.ok b, s') ↔ c ∧ k ⟨⟩ s = (.ok b, s') := by
  rw [bind_eq_ok]
  constructor
  · rintro ⟨⟨⟩, s₁, hrun, hk⟩
    obtain ⟨hc, rfl⟩ := require_eq_ok.1 hrun
    exact ⟨hc, hk⟩
  · rintro ⟨hc, hk⟩
    exact ⟨⟨⟩, s, require_eq_ok.2 ⟨hc, rfl⟩, hk⟩

@[simp] theorem orElse_bind_eq_ok :
    (orElse o e >>= k) s = (.ok b, s') ↔ ∃ a, o = some a ∧ k a s = (.ok b, s') := by
  rw [bind_eq_ok]
  simp [and_assoc]

/-! ### Weakest preconditions -/

/-- The run from a state ends in `Q` if it succeeds, and in `E` if it fails. -/
def wp (m : Act ε σ α) (Q : α → σ → Prop) (E : ε → σ → Prop) (s : σ) : Prop :=
  match m s with
  | (.ok a, s') => Q a s'
  | (.error e, s') => E e s'

variable {m : Act ε σ α} {k : α → Act ε σ β} {Q Q' : α → σ → Prop} {E E' : ε → σ → Prop} {s : σ}

theorem wp_iff : wp m Q E s ↔
    (∀ a s', m s = (.ok a, s') → Q a s') ∧ ∀ e s', m s = (.error e, s') → E e s' := by
  unfold wp
  rcases m s with ⟨e | a, s'⟩ <;> simp

theorem wp_of_ok (h : wp m Q E s) {s' : σ} (hrun : m s = (.ok a, s')) : Q a s' :=
  (wp_iff.1 h).1 a s' hrun

theorem wp_of_error (h : wp m Q E s) {s' : σ} (hrun : m s = (.error e, s')) : E e s' :=
  (wp_iff.1 h).2 e s' hrun

theorem wp_mono (h : wp m Q E s) (hQ : ∀ a s', Q a s' → Q' a s') (hE : ∀ e s', E e s' → E' e s') :
    wp m Q' E' s := by
  obtain ⟨hok, he⟩ := wp_iff.1 h
  exact wp_iff.2 ⟨fun a s' hrun => hQ a s' (hok a s' hrun), fun e s' hrun => hE e s' (he e s' hrun)⟩

@[simp] theorem wp_bind {Q : β → σ → Prop} : wp (m >>= k) Q E s ↔ wp m (fun a s' => wp (k a) Q E s') E s := by
  unfold wp
  rw [bind_apply]
  rcases m s with ⟨e | a, s'⟩ <;> rfl

@[simp] theorem wp_pure : wp (pure a) Q E s ↔ Q a s := Iff.rfl

@[simp] theorem wp_get {Q : σ → σ → Prop} : wp get Q E s ↔ Q s s := Iff.rfl

@[simp] theorem wp_modify {f : σ → σ} {Q : PUnit → σ → Prop} : wp (modify f) Q E s ↔ Q ⟨⟩ (f s) := Iff.rfl

@[simp] theorem wp_lift {x : Except ε α} :
    wp (lift x) Q E s ↔ (∀ a, x = .ok a → Q a s) ∧ ∀ e, x = .error e → E e s := by
  unfold wp
  cases x <;> simp

@[simp] theorem wp_orElse : wp (orElse o e) Q E s ↔ (∀ a, o = some a → Q a s) ∧ (o = none → E e s) := by
  unfold orElse
  cases o <;> simp

@[simp] theorem wp_require [Decidable c] {Q : PUnit → σ → Prop} :
    wp (require c e) Q E s ↔ (c → Q ⟨⟩ s) ∧ (¬ c → E e s) := by
  unfold require wp
  by_cases hc : c <;> simp [hc]

@[simp] theorem wp_ite [Decidable c] {n : Act ε σ α} :
    wp (if c then m else n) Q E s ↔ (c → wp m Q E s) ∧ (¬ c → wp n Q E s) := by
  by_cases hc : c <;> simp [hc]

end Act

end Fireemu.Library
