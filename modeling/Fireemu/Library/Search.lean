import Mathlib.Data.List.Basic

/-!
# Searching with errors

A search tries candidates until one succeeds.  A candidate runs on a state and may raise an error;
an error may stop the search, be put off until nothing succeeds, or only make its candidate fail.

`Decides` says what a run tells about a proposition: success proves it, and failure refutes it if
nothing was put off on the way.
-/

namespace Fireemu.Library

open List

variable {ι σ E : Type}

/-- Tries candidates in order until one succeeds or raises. -/
def search (f : ι → σ → Except E Bool × σ) : List ι → σ → Except E Bool × σ
  | [], st => (.ok false, st)
  | i :: l, st =>
      match f i st with
      | (.ok false, st) => search f l st
      | r => r

/-- How an error is treated where there are alternatives. -/
inductive Severity
  /-- The candidate fails. -/
  | soft
  /-- The error is the answer if nothing succeeds. -/
  | deferred
  /-- The error ends the search. -/
  | stopping
  deriving DecidableEq

/-- One candidate of a search that puts errors off; the first one put off is kept. -/
def deferring (severity : E → Severity) (f : ι → σ → Except E Bool × σ) (i : ι)
    (st : σ × Option E) : Except E Bool × σ × Option E :=
  match f i st.1 with
  | (.ok b, s) => (.ok b, s, st.2)
  | (.error e, s) =>
      match severity e with
      | .soft => (.ok false, s, st.2)
      | .stopping => (.error e, s, st.2)
      | .deferred => (.ok false, s, st.2.or (some e))

/-- The first candidate that succeeds decides; otherwise an error that was put off is the answer. -/
def alternatives (severity : E → Severity) (f : ι → σ → Except E Bool × σ) (l : List ι) (st : σ) :
    Except E Bool × σ :=
  match search (deferring severity f) l (st, none) with
  | (.ok false, s, some e) => (.error e, s)
  | (r, s, _) => (r, s)

theorem search_map {κ : Type} {f : ι → σ → Except E Bool × σ} {g : κ → ι} {l : List κ} (st : σ) :
    search f (l.map g) st = search (fun k => f (g k)) l st := by
  induction l generalizing st with
  | nil => rfl
  | cons k l ih =>
    rw [map_cons, search, search]
    split
    · exact ih _
    · rfl

theorem alternatives_map {κ : Type} (severity : E → Severity) (f : ι → σ → Except E Bool × σ)
    (g : κ → ι) (l : List κ) (st : σ) :
    alternatives severity f (l.map g) st = alternatives severity (fun k => f (g k)) l st := by
  rw [alternatives, search_map]
  rfl

/-! ### What a search decides -/

/-- A run that failed: it returned false or raised a soft error. -/
def Fails (severity : E → Severity) (r : Except E Bool) : Prop :=
  r = .ok false ∨ ∃ e, severity e = .soft ∧ r = .error e

/-- What a run from a state tells about a proposition; it keeps an invariant of the state. -/
structure Decides (severity : E → Severity) (inv clean : σ → Prop) (st : σ) (r : Except E Bool × σ)
    (P : Prop) : Prop where
  inv : inv r.2
  sound : r.1 = .ok true → P
  complete : Fails severity r.1 → clean r.2 → clean st ∧ ¬ P

variable {severity : E → Severity} {inv clean : σ → Prop} {st : σ} {P Q : Prop}

theorem Decides.congr {r : Except E Bool × σ} (h : Decides severity inv clean st r P) (hPQ : P ↔ Q) :
    Decides severity inv clean st r Q :=
  ⟨h.inv, fun hr => hPQ.1 (h.sound hr), fun hr hc => ⟨(h.complete hr hc).1,
    fun hQ => (h.complete hr hc).2 (hPQ.2 hQ)⟩⟩

theorem decides_false (hst : inv st) (hP : ¬ P) : Decides severity inv clean st (.ok false, st) P :=
  ⟨hst, nofun, fun _ hc => ⟨hc, hP⟩⟩

variable {f : ι → σ → Except E Bool × σ} {l : List ι} {holds : ι → Prop}

/-- A result that is no soft error. -/
def Firm (severity : E → Severity) (r : Except E Bool) : Prop := ∀ e, r = .error e → severity e ≠ .soft

theorem Firm.not_fails {e : E} (h : Firm severity (.error e)) : ¬ Fails severity (.error e) := by
  rintro (h' | ⟨e', hsoft, h'⟩)
  · cases h'
  · cases h'
    exact h e rfl hsoft

theorem not_fails_true : ¬ Fails severity (.ok true) := by
  rintro (h | ⟨e, -, h⟩) <;> cases h

/-- A run that decides a proposition and raises no soft error. -/
abbrev Settles (severity : E → Severity) (inv clean : σ → Prop) (st : σ) (r : Except E Bool × σ)
    (P : Prop) : Prop :=
  Decides severity inv clean st r P ∧ Firm severity r.1

section

variable {st' : σ} {r : Except E Bool × σ}

theorem Settles.congr (h : Settles severity inv clean st r P) (hPQ : P ↔ Q) :
    Settles severity inv clean st r Q := ⟨h.1.congr hPQ, h.2⟩

theorem settles_false (hst : inv st) (hP : ¬ P) : Settles severity inv clean st (.ok false, st) P :=
  ⟨decides_false hst hP, nofun⟩

theorem settles_true (hst : inv st') (hP : P) : Settles severity inv clean st (.ok true, st') P :=
  ⟨⟨hst, fun _ => hP, fun hf => absurd hf not_fails_true⟩, nofun⟩

theorem settles_error {e : E} (hst : inv st') (he : Firm severity (.error e)) :
    Settles severity inv clean st (.error e, st') P :=
  ⟨⟨hst, nofun, fun hf => absurd hf he.not_fails⟩, he⟩

end

/-- A search without soft errors decides whether some candidate holds. -/
theorem decides_search (hf : ∀ i ∈ l, ∀ st, inv st → Settles severity inv clean st (f i st) (holds i))
    (hst : inv st) : Settles severity inv clean st (search f l st) (∃ i ∈ l, holds i) := by
  induction l generalizing st with
  | nil => exact settles_false hst (by simp)
  | cons i l ih =>
    obtain ⟨hi, hl⟩ := forall_mem_cons.1 hf
    obtain ⟨hd, hfirm⟩ := hi st hst
    rw [search]
    match hfi : f i st with
    | (.ok false, st₁) =>
      rw [hfi] at hd
      obtain ⟨hrest, hfirmRest⟩ := ih hl hd.inv
      refine ⟨⟨hrest.inv, fun hr => ?_, fun hfails hc => ?_⟩, hfirmRest⟩
      · obtain ⟨j, hj, hholds⟩ := hrest.sound hr
        exact ⟨j, mem_cons_of_mem i hj, hholds⟩
      · obtain ⟨hc₁, hnone⟩ := hrest.complete hfails hc
        obtain ⟨hc₀, hnot⟩ := hd.complete (.inl rfl) hc₁
        refine ⟨hc₀, ?_⟩
        rintro ⟨j, hj, hholds⟩
        rcases mem_cons.1 hj with rfl | hj
        · exact hnot hholds
        · exact hnone ⟨j, hj, hholds⟩
    | (.ok true, st₁) =>
      rw [hfi] at hd
      exact settles_true hd.inv ⟨i, mem_cons_self, hd.sound rfl⟩
    | (.error e, st₁) =>
      rw [hfi] at hd hfirm
      exact settles_error hd.inv hfirm

variable {i : ι}

theorem firm_deferring {st : σ × Option E} : Firm severity (deferring severity f i st).1 := by
  intro e he
  unfold deferring at he
  split at he
  · cases he
  · split at he
    · cases he
    · cases he
      simp_all
    · cases he

/-- A state with an error that was put off and is not soft. -/
def Deferred (severity : E → Severity) (inv : σ → Prop) (st : σ × Option E) : Prop :=
  inv st.1 ∧ ∀ e, st.2 = some e → severity e ≠ .soft

/-- A candidate that puts errors off decides what it decides without, if none was put off. -/
theorem decides_deferring {st : σ × Option E} (hst : Deferred severity inv st)
    (h : Decides severity inv (fun _ => True) st.1 (f i st.1) P) :
    Decides severity (Deferred severity inv) (fun st => st.2 = none) st (deferring severity f i st)
      P := by
  obtain ⟨s, raised⟩ := st
  have hraised := hst.2
  unfold deferring
  match hfi : f i s with
  | (.ok b, s₁) =>
    rw [hfi] at h
    exact ⟨⟨h.inv, hraised⟩, fun hr => h.sound hr, fun hf hc => ⟨hc, (h.complete hf trivial).2⟩⟩
  | (.error e, s₁) =>
    rw [hfi] at h
    dsimp only
    split
    · rename_i hsoft
      exact ⟨⟨h.inv, hraised⟩, nofun, fun _ hc => ⟨hc, (h.complete (.inr ⟨e, hsoft, rfl⟩) trivial).2⟩⟩
    · rename_i hs
      refine ⟨⟨h.inv, hraised⟩, nofun, fun hf => absurd hf (Firm.not_fails ?_)⟩
      rintro e' ⟨⟩ hsoft
      rw [hs] at hsoft
      cases hsoft
    · rename_i hd
      refine ⟨⟨h.inv, fun e' he' => ?_⟩, nofun, fun _ hc => ?_⟩
      · cases raised with
        | none =>
          cases he'
          rw [hd]
          nofun
        | some => exact hraised e' he'
      · -- an error that was put off is not forgotten
        cases raised <;> cases hc

/-- Alternatives decide whether one of them holds, and raise no soft error. -/
theorem decides_alternatives
    (hf : ∀ i ∈ l, ∀ st, inv st → Decides severity inv (fun _ => True) st (f i st) (holds i)) (hst : inv st) :
    Settles severity inv (fun _ => True) st (alternatives severity f l st) (∃ i ∈ l, holds i) := by
  have hd : ∀ i ∈ l, ∀ st, Deferred severity inv st →
      Settles severity (Deferred severity inv) (fun st => st.2 = none) st (deferring severity f i st)
        (holds i) := fun i hi st hst =>
    ⟨decides_deferring hst (hf i hi st.1 hst.1), firm_deferring⟩
  obtain ⟨hs, hfirm⟩ := decides_search hd
    (show Deferred severity inv (st, none) from ⟨hst, nofun⟩)
  unfold alternatives
  match hr : search (deferring severity f) l (st, none) with
  | (.ok false, s, some e) =>
    rw [hr] at hs
    refine settles_error hs.inv.1 ?_
    rintro e' ⟨⟩
    exact hs.inv.2 e rfl
  | (.ok false, s, none) =>
    rw [hr] at hs
    exact ⟨⟨hs.inv.1, nofun, fun hfails _ => ⟨trivial, (hs.complete hfails rfl).2⟩⟩, nofun⟩
  | (.ok true, s, raised) =>
    rw [hr] at hs
    exact settles_true hs.inv.1 (hs.sound rfl)
  | (.error e, s, raised) =>
    rw [hr] at hs hfirm
    exact settles_error hs.inv.1 hfirm

end Fireemu.Library
