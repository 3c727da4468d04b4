import Fireemu.Library.SortedMap

/-!
# Grouped indexes

A grouped index keeps a set of elements in one set per group key and no empty sets.  `Exact` says
that an index holds exactly the elements of a given collection, each under its own key;
`Exact.addTo`, `Exact.removeFrom` and `Exact.erase` keep it when an element enters or leaves the
collection, and when a group does.
-/

namespace Fireemu.Library

open Library.SortedMap Library.SortedSet

universe u v

variable {K : Type u} {A : Type v} [LinearOrder K] [LinearOrder A]

/-- An index of elements by group. -/
abbrev GroupedIndex (K : Type u) (A : Type v) [LinearOrder K] [LinearOrder A] :=
  SortedMap K (SortedSet A)

namespace GroupedIndex

/-- The elements of a group. -/
def group (m : GroupedIndex K A) (k : K) : SortedSet A := (SortedMap.get m k).getD SortedMap.empty

/-- Put an element into a group, which is made if it does not exist. -/
def addTo (m : GroupedIndex K A) (k : K) (a : A) : GroupedIndex K A :=
  SortedMap.insert m k ((group m k).add a)

/-- Take an element out of a group; a group left empty is dropped. -/
def removeFrom (m : GroupedIndex K A) (k : K) (a : A) : GroupedIndex K A :=
  match SortedMap.get m k with
  | none => m
  | some s =>
      let s := SortedMap.erase s a
      if s.entries.isEmpty then SortedMap.erase m k else SortedMap.insert m k s

variable {k k' : K} {a : A}

theorem group_addTo {m : GroupedIndex K A} :
    group (addTo m k a) k' = if k' = k then (group m k).add a else group m k' := by
  unfold addTo
  rw [group, get_insert]
  split_ifs with h
  · rfl
  · rfl

theorem eq_empty_of_entries {s : SortedSet A} (h : s.entries.isEmpty = true) : s = SortedMap.empty := by
  cases s with
  | mk entries =>
    have : entries = [] := List.isEmpty_iff.1 h
    subst this
    rfl

theorem group_removeFrom {m : GroupedIndex K A} :
    group (removeFrom m k a) k' = if k' = k then (group m k).erase a else group m k' := by
  unfold removeFrom
  cases hk : m.get k with
  | none =>
    split_ifs with h
    · subst h
      unfold group
      rw [hk]
      rfl
    · rfl
  | some s =>
    have hg : group m k = s := by simp [group, hk]
    dsimp only
    split_ifs with he h h
    · rw [group, h, get_erase_self, hg, eq_empty_of_entries he]
      rfl
    · rw [group, get_erase_of_ne m h]
      rfl
    · rw [group, h, get_insert_self, hg]
      rfl
    · rw [group, get_insert_of_ne m _ h]
      rfl

/-- The index holds exactly the elements of a collection, each under its key, and no empty
group. -/
structure Exact (key : A → K) (P : A → Prop) (m : GroupedIndex K A) : Prop where
  mem_group : ∀ k a, a ∈ group m k ↔ key a = k ∧ P a
  ne_empty : ∀ k s, SortedMap.get m k = some s → ∃ a, a ∈ s

variable {key : A → K} {P Q : A → Prop} {m : GroupedIndex K A}

theorem Exact.empty (hP : ∀ a, ¬ P a) : Exact key P (SortedMap.empty : GroupedIndex K A) where
  mem_group k a := by
    simp [group, hP a]
  ne_empty k s h := by simp at h

theorem Exact.congr (h : Exact key P m) (hPQ : ∀ a, P a ↔ Q a) : Exact key Q m where
  mem_group k a := by rw [h.mem_group, hPQ]
  ne_empty := h.ne_empty

/-- The key of an element that is not in the collection does not matter. -/
theorem Exact.congr_key (h : Exact key P m) {key' : A → K} (hkey : ∀ a, P a → key' a = key a) :
    Exact key' P m where
  mem_group k a := by
    rw [h.mem_group]
    exact and_congr_left fun ha => by rw [hkey a ha]
  ne_empty := h.ne_empty

theorem Exact.addTo (h : Exact key P m) (a : A) (hQ : ∀ b, Q b ↔ b = a ∨ P b) :
    Exact key Q (addTo m (key a) a) where
  mem_group k b := by
    rw [group_addTo, hQ]
    split_ifs with hk
    · subst hk
      rw [mem_add, h.mem_group]
      grind
    · rw [h.mem_group]
      grind
  ne_empty k s hs := by
    unfold GroupedIndex.addTo at hs
    rw [get_insert] at hs
    split_ifs at hs with hk
    · cases hs
      exact ⟨a, mem_add.2 (.inl rfl)⟩
    · exact h.ne_empty k s hs

theorem exists_mem_of_entries {s : SortedSet A} (h : ¬ s.entries.isEmpty = true) : ∃ a, a ∈ s := by
  cases hs : s.entries with
  | nil => simp [hs] at h
  | cons e =>
    refine ⟨e.1, mem_def.2 (mem_entries.1 ?_)⟩
    rw [hs]
    exact List.mem_cons_self

theorem Exact.removeFrom (h : Exact key P m) (a : A) (hQ : ∀ b, Q b ↔ b ≠ a ∧ P b) :
    Exact key Q (removeFrom m (key a) a) where
  mem_group k b := by
    rw [group_removeFrom, hQ]
    split_ifs with hk
    · subst hk
      rw [mem_erase, h.mem_group]
      grind
    · rw [h.mem_group]
      grind
  ne_empty k s hs := by
    unfold GroupedIndex.removeFrom at hs
    cases hk : m.get (key a) with
    | none =>
      rw [hk] at hs
      exact h.ne_empty k s hs
    | some =>
      rw [hk] at hs
      dsimp only at hs
      split_ifs at hs with he
      · rw [get_erase] at hs
        split_ifs at hs
        exact h.ne_empty k s hs
      · rw [get_insert] at hs
        split_ifs at hs
        · cases hs
          exact exists_mem_of_entries he
        · exact h.ne_empty k s hs

theorem Exact.erase (h : Exact key P m) (k : K) (hQ : ∀ b, Q b ↔ key b ≠ k ∧ P b) :
    Exact key Q (SortedMap.erase m k) where
  mem_group k' b := by
    unfold group
    rw [get_erase, hQ]
    split_ifs with hk
    · exact iff_of_false (not_mem_empty b) fun hb => hb.2.1 (hb.1.trans hk)
    · rw [← group, h.mem_group]
      grind
  ne_empty k' s hs := by
    rw [get_erase] at hs
    split_ifs at hs
    exact h.ne_empty k' s hs

end GroupedIndex

end Fireemu.Library
