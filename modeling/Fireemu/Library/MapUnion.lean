import Fireemu.Library.SortedMap

/-!
# Unions and parts of ordered maps

`union m n` stores the entries of `n` over those of `m`.  The entries a test accepts and those it does
not accept make up a map (`sum_filter_add_sum_filter_not`).
-/

namespace Fireemu.Library

open List

universe u v w

variable {K : Type u} {V : Type v} [LinearOrder K]

namespace SortedMap

/-- The entries of a map stored over those of another one. -/
def union (m n : SortedMap K V) : SortedMap K V := n.entries.foldl (fun m e => m.insert e.1 e.2) m

theorem get_foldl_insert {l : List (K × V)} (hl : OrdList.Sorted l) (m : SortedMap K V) {k : K} :
    (l.foldl (fun m e => m.insert e.1 e.2) m).get k = (OrdList.get k l).or (m.get k) := by
  induction l generalizing m with
  | nil => rfl
  | cons e l ih =>
    obtain ⟨hf, hrest⟩ := pairwise_cons.1 hl
    rw [foldl_cons, ih hrest, OrdList.get_cons, get_insert]
    by_cases hk : k = e.1
    · have hnone : OrdList.get k l = none := by
        rw [← Option.not_isSome_iff_eq_none, OrdList.get_isSome_iff]
        intro hmem
        obtain ⟨d, hd, hde⟩ := mem_map.1 hmem
        exact absurd (hf d hd) (by rw [hde, hk]; exact lt_irrefl _)
      rw [if_pos hk, if_pos hk, hnone]
      rfl
    · rw [if_neg hk, if_neg hk]

theorem get_union (m n : SortedMap K V) (k : K) : (m.union n).get k = (n.get k).or (m.get k) :=
  get_foldl_insert n.sorted m

variable {k : K}

/-- What is read at a key after steps that each may store there. -/
theorem foldl_or {S : Type*} {E : Type*} {f : S → E → S} {key : E → K} (read : S → Option V)
    {stored : Option V} (hstep : ∀ s e, read (f s e) = if k = key e then stored.or (read s) else read s)
    (l : List E) (s : S) : read (l.foldl f s) = if k ∈ l.map key then stored.or (read s) else read s := by
  induction l generalizing s with
  | nil => simp
  | cons e l ih =>
    rw [foldl_cons, ih, hstep]
    by_cases hk : k = key e
    · cases stored <;> simp [hk]
    · simp [hk]

theorem insert_insert (m : SortedMap K V) (k : K) (x y : V) : (m.insert k x).insert k y = m.insert k y := by
  refine ext_get fun k' => ?_
  simp only [get_insert]
  split_ifs <;> rfl

theorem erase_insert {m : SortedMap K V} (x : V) (h : m.get k = none) : (m.insert k x).erase k = m := by
  refine ext_get fun k' => ?_
  rw [get_erase, get_insert]
  split_ifs with hk
  · rw [hk, h]
  · rfl

theorem length_entries (m : SortedMap K V) : m.entries.length = m.sum fun _ _ => 1 := by
  simp [sum]

theorem get_filter_eq_some {m : SortedMap K V} {p : K → V → Bool} {x : V} :
    (m.filter p).get k = some x ↔ m.get k = some x ∧ p k x = true := by
  rw [get_filter, Option.filter_eq_some_iff]

theorem get_filter_key (m : SortedMap K V) (p : K → Bool) (k : K) :
    (m.filter fun k _ => p k).get k = if p k then m.get k else none := by
  rw [get_filter]
  cases m.get k with
  | none => split_ifs <;> rfl
  | some =>
    rw [Option.filter_some]

theorem get_foldl_erase (keys : List K) (m : SortedMap K V) (k : K) :
    (keys.foldl erase m).get k = if k ∈ keys then none else m.get k := by
  induction keys generalizing m with
  | nil => simp
  | cons k' keys ih =>
    rw [foldl_cons, ih, get_erase]
    by_cases hk : k = k'
    · simp [hk]
    · simp [hk]

/-- Erasing the keys that a test accepts leaves those it does not accept. -/
theorem foldl_erase_keys_filter (m : SortedMap K V) (p : K → Bool) :
    (m.filter fun k _ => p k).keys.foldl erase m = m.filter fun k _ => !p k := by
  refine ext_get fun k => ?_
  simp only [get_foldl_erase, get_filter_key, mem_keys]
  cases p k <;> cases m.get k <;> simp

theorem get_filter_of_pos (m : SortedMap K V) {p : K → Bool} (h : p k = true) :
    (m.filter fun k _ => p k).get k = m.get k :=
  (get_filter_key m p k).trans (if_pos h)

/-- The entries a test accepts are replaced by those of another map. -/
theorem get_replace (m c : SortedMap K V) (p : K → Bool) (k : K) :
    ((m.filter fun k _ => !p k).union (c.filter fun k _ => p k)).get k = if p k then c.get k else m.get k := by
  simp only [get_union, get_filter_key]
  cases p k <;> simp

/-- One entry taken over from another map, if it has it. -/
def adopt (m c : SortedMap K V) (k : K) : SortedMap K V :=
  match c.get k with
  | none => m
  | some x => m.insert k x

theorem get_adopt (m c : SortedMap K V) (k k' : K) :
    (m.adopt c k').get k = if k = k' then (c.get k).or (m.get k) else m.get k := by
  unfold adopt
  cases hget : c.get k' with
  | none =>
    split_ifs with hk
    · rw [hk, hget]
      rfl
    · rfl
  | some =>
    refine (get_insert _ _ _ _).trans ?_
    split_ifs with hk
    · rw [hk, hget]
      rfl
    · rfl

variable {M : Type w} [AddCommMonoid M]

theorem sum_filter_add_sum_filter_not (m : SortedMap K V) (p : K → V → Bool) (f : K → V → M) :
    (m.filter p).sum f + (m.filter fun k x => !p k x).sum f = m.sum f := by
  dsimp only [sum, filter]
  induction m.entries with
  | nil => simp
  | cons e l ih =>
    rw [map_cons, sum_cons, ← ih]
    cases hp : p e.1 e.2
    · simp only [filter_cons, hp, Bool.false_eq_true, if_false, Bool.not_false, if_true, map_cons, sum_cons]
      exact add_left_comm _ _ _
    · simp only [filter_cons, hp, if_true, Bool.not_true, Bool.false_eq_true, if_false, map_cons, sum_cons]
      exact add_assoc _ _ _

end SortedMap

end Fireemu.Library
