import Fireemu.Library.SortedMap

/-!
# Reference counts

References to shared things, counted by key; a key without references is absent.  `Exact` says that
the counts are those of a given function, and `weight` is the total of a quantity of the keys that
have references.  `acquire` and `release` change one key; over a list of different keys they change
each of them once.
-/

namespace Fireemu.Library

open List Library.SortedMap

universe u

variable {K : Type u} [LinearOrder K]

/-- References by key. -/
abbrev RefCounts (K : Type u) [LinearOrder K] := SortedMap K ℕ

namespace RefCounts

/-- Add references to a key. -/
def acquire (n : ℕ) (refs : RefCounts K) (k : K) : RefCounts K :=
  SortedMap.insert refs k ((SortedMap.get refs k).getD 0 + n)

/-- Drop one reference to a key. -/
def release (refs : RefCounts K) (k : K) : RefCounts K :=
  match SortedMap.get refs k with
  | none => refs
  | some n => if n - 1 = 0 then SortedMap.erase refs k else SortedMap.insert refs k (n - 1)

/-- Whether dropping one reference to a key drops the key. -/
def isLast (refs : RefCounts K) (k : K) : Bool := (SortedMap.get refs k).any fun n => n - 1 = 0

/-- The counts are those of a function. -/
def Exact (refs : RefCounts K) (count : K → ℕ) : Prop :=
  ∀ k, SortedMap.get refs k = if count k = 0 then none else some (count k)

variable {refs : RefCounts K} {count count' : K → ℕ} {n : ℕ} {ks : List K}

theorem Exact.empty : Exact (SortedMap.empty : RefCounts K) fun _ => 0 := fun _ => rfl

theorem Exact.congr (h : Exact refs count) (hc : ∀ k, count' k = count k) : Exact refs count' := by
  intro k
  rw [hc]
  exact h k

theorem Exact.getD (h : Exact refs count) (k : K) : (refs.get k).getD 0 = count k := by
  rw [h k]
  split_ifs with hzero
  · exact hzero.symm
  · rfl

theorem Exact.acquire (h : Exact refs count) (hn : n ≠ 0) (k : K) :
    Exact (acquire n refs k) fun j => if j = k then count j + n else count j := by
  intro j
  beta_reduce
  rw [RefCounts.acquire, get_insert, h.getD]
  by_cases hj : j = k
  · subst hj
    simp [hn]
  · simp only [hj, if_false]
    exact h j

theorem Exact.release (h : Exact refs count) (k : K) :
    Exact (release refs k) fun j => if j = k then count j - 1 else count j := by
  intro j
  beta_reduce
  have hk := h k
  unfold RefCounts.release
  by_cases hzero : count k = 0
  · rw [if_pos hzero] at hk
    rw [hk]
    by_cases hj : j = k
    · subst hj
      simp [hk, hzero]
    · simp only [hj, if_false]
      exact h j
  · rw [if_neg hzero] at hk
    rw [hk]
    dsimp only
    by_cases hlast : count k - 1 = 0
    · rw [if_pos hlast, get_erase]
      by_cases hj : j = k
      · subst hj
        simp [hlast]
      · simp only [hj, if_false]
        exact h j
    · rw [if_neg hlast, get_insert]
      by_cases hj : j = k
      · subst hj
        simp [hlast]
      · simp only [hj, if_false]
        exact h j

theorem Exact.foldl_acquire (h : Exact refs count) (hn : n ≠ 0) (hnd : ks.Nodup) :
    Exact (ks.foldl (RefCounts.acquire n) refs) fun j => if j ∈ ks then count j + n else count j := by
  induction ks generalizing refs count with
  | nil => exact h
  | cons k ks ih =>
    obtain ⟨hk, hnd⟩ := nodup_cons.1 hnd
    refine (ih (h.acquire hn k) hnd).congr fun j => ?_
    by_cases hj : j = k
    · subst hj
      simp [hk]
    · simp only [mem_cons, hj, false_or, if_false]

theorem Exact.foldl_release (h : Exact refs count) (hn : ks.Nodup) :
    Exact (ks.foldl RefCounts.release refs) fun j => if j ∈ ks then count j - 1 else count j := by
  induction ks generalizing refs count with
  | nil => exact h
  | cons k ks ih =>
    obtain ⟨hk, hn⟩ := nodup_cons.1 hn
    refine (ih (h.release k) hn).congr fun j => ?_
    by_cases hj : j = k
    · subst hj
      simp [hk]
    · simp only [mem_cons, hj, false_or, if_false]

/-! ### The weight of the keys that have references -/

variable (g : K → ℕ)

/-- The total of a quantity over the keys that have references. -/
def weight (refs : RefCounts K) : ℕ := SortedMap.sum refs fun k _ => g k

@[simp] theorem weight_empty : weight g (SortedMap.empty : RefCounts K) = 0 := rfl

variable {k : K}

theorem weight_insert : weight g (refs.insert k n) = weight g refs + if refs.contains k then 0 else g k := by
  have h := sum_insert refs (fun k _ => g k) k n
  unfold weight
  cases hk : refs.get k with
  | none =>
    rw [term_of_get_none hk] at h
    rw [if_neg (by rw [SortedMap.contains, hk]; exact Bool.false_ne_true)]
    omega
  | some =>
    rw [term_of_get hk] at h
    rw [if_pos (by rw [SortedMap.contains, hk]; rfl)]
    omega

theorem weight_acquire : weight g (acquire n refs k) = weight g refs + if refs.contains k then 0 else g k :=
  weight_insert g

/-- Dropping a reference takes away the weight of its key with the last one. -/
theorem weight_release (refs : RefCounts K) (k : K) :
    weight g refs = weight g (release refs k) + if refs.isLast k then g k else 0 := by
  unfold release isLast
  cases hk : refs.get k with
  | none => rfl
  | some m =>
    have hc : refs.contains k = true := by rw [SortedMap.contains, hk]; rfl
    dsimp only [Option.any_some]
    by_cases hlast : m - 1 = 0
    · rw [if_pos hlast, if_pos (decide_eq_true hlast)]
      have h := sum_erase refs (fun k _ => g k) k
      rw [term_of_get hk] at h
      unfold weight
      omega
    · rw [if_neg hlast, if_neg (by simpa using hlast), weight_insert, if_pos hc, Nat.add_zero]

theorem weight_foldl_release_le (refs : RefCounts K) (ks : List K) :
    weight g (ks.foldl release refs) ≤ weight g refs := by
  refine ks.foldlRecOn (motive := fun r => weight g r ≤ weight g refs) _ le_rfl fun r h k _ => le_trans ?_ h
  rw [weight_release g r k]
  exact Nat.le_add_right _ _

theorem contains_acquire {j : K} : (acquire n refs k).contains j = true ↔ j = k ∨ refs.contains j = true := by
  rw [acquire, SortedMap.contains, get_insert, SortedMap.contains]
  split_ifs with hj
  · exact iff_of_true rfl (.inl hj)
  · exact (or_iff_right hj).symm

/-- Adding references brings in the weight of the keys that had none. -/
theorem weight_foldl_acquire (hn : ks.Nodup) (refs : RefCounts K) :
    weight g (ks.foldl (acquire n) refs) =
      weight g refs + ((ks.filter fun k => !refs.contains k).map g).sum := by
  induction ks generalizing refs with
  | nil => rfl
  | cons k ks ih =>
    obtain ⟨hk, hn⟩ := nodup_cons.1 hn
    have hrest : (ks.filter fun j => !(acquire n refs k).contains j) =
        ks.filter fun j => !refs.contains j := by
      refine filter_congr fun j hj => ?_
      have hne : j ≠ k := fun heq => hk (heq ▸ hj)
      rw [Bool.eq_iff_iff.2 (contains_acquire.trans (or_iff_right hne))]
    rw [foldl_cons, ih hn, hrest, weight_acquire, filter_cons]
    by_cases hc : refs.contains k = true
    · simp [hc]
    · simp [hc]
      omega

end RefCounts

end Fireemu.Library
