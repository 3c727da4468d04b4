import Mathlib.Tactic
import Mathlib.Algebra.BigOperators.Group.List.Basic

/-!
# Ordered maps and sets as sorted association lists

An ordered map is a list of entries in strictly increasing key order, so that walking the list
is walking the map in key order.  The raw operations of `OrdList` work on any entry list and
their lookup laws need no sortedness; this is what an inductive type that nests a map inside
itself can use.  `SortedMap` bundles a list with the proof that it is sorted, which makes maps
with equal lookups equal (`SortedMap.ext_get`), and `SortedSet` is the map to `Unit`.

`SortedMap.sum` adds a quantity up over the entries; `sum_insert` and `sum_erase` say how one
update moves the total.
-/

namespace Fireemu.Library

open List

universe u v w

variable {K : Type u} {V : Type v} [LinearOrder K]

namespace OrdList

/-- The value stored under a key. -/
def get (k : K) : List (K × V) → Option V
  | [] => none
  | e :: l => if k = e.1 then some e.2 else get k l

/-- Store a value under a key, in key order, replacing the entry the key had. -/
def insert (k : K) (x : V) : List (K × V) → List (K × V)
  | [] => [(k, x)]
  | e :: l =>
      if k < e.1 then (k, x) :: e :: l
      else if k = e.1 then (k, x) :: l
      else e :: insert k x l

/-- Drop the entry of a key. -/
def erase (k : K) (l : List (K × V)) : List (K × V) := l.filter fun e => e.1 ≠ k

/-- Entries in strictly increasing key order. -/
def Sorted (l : List (K × V)) : Prop := l.Pairwise fun a b => a.1 < b.1

@[simp] theorem get_nil {k : K} : get k ([] : List (K × V)) = none := rfl

theorem get_cons (k : K) (e : K × V) (l : List (K × V)) :
    get k (e :: l) = if k = e.1 then some e.2 else get k l := rfl

theorem get_insert (k k' : K) (x : V) (l : List (K × V)) :
    get k' (insert k x l) = if k' = k then some x else get k' l := by
  induction l with
  | nil => simp [insert, get_cons]
  | cons e l ih =>
    simp only [insert]
    split_ifs with hlt heq
    all_goals simp only [get_cons, ih]
    all_goals grind

theorem get_erase (k k' : K) (l : List (K × V)) : get k' (erase k l) = if k' = k then none else get k' l := by
  induction l with
  | nil => simp [erase]
  | cons e l ih =>
    unfold erase at ih ⊢
    by_cases he : e.1 = k
    · rw [filter_cons_of_neg (by simpa using he), ih, get_cons]
      split_ifs with h1 h2
      · rfl
      · exact absurd (h2.trans he) h1
      · rfl
    · rw [filter_cons_of_pos (by simpa using he), get_cons, get_cons, ih]
      split_ifs with h1 h2 h2
      · exact absurd (h1.symm.trans h2) he
      · rfl
      · rfl
      · rfl

variable {k : K} {x : V} {l : List (K × V)}

theorem mem_of_get (h : get k l = some x) : (k, x) ∈ l := by
  induction l with
  | nil => simp at h
  | cons e l ih =>
    rw [get_cons] at h
    split_ifs at h with hk
    · cases h
      subst hk
      exact mem_cons_self
    · exact mem_cons_of_mem _ (ih h)

theorem get_isSome_iff : (get k l).isSome ↔ k ∈ l.map Prod.fst := by
  induction l with
  | nil => simp
  | cons e l ih =>
    rw [get_cons]
    split_ifs with hk <;> simp [hk, ih]

theorem get_of_mem (hs : Sorted l) (h : (k, x) ∈ l) : get k l = some x := by
  induction l with
  | nil => simp at h
  | cons e l ih =>
    have hs' := pairwise_cons.1 hs
    rcases mem_cons.1 h with rfl | h
    · simp [get_cons]
    · have hlt := hs'.1 _ h
      rw [get_cons, if_neg hlt.ne', ih hs'.2 h]

theorem mem_insert {e : K × V} (h : e ∈ insert k x l) : e = (k, x) ∨ e ∈ l := by
  induction l with
  | nil => simpa [insert] using h
  | cons d l ih =>
    simp only [insert] at h
    split_ifs at h with h1 h2
    · simpa using h
    · rcases mem_cons.1 h with h | h
      · exact .inl h
      · exact .inr (mem_cons_of_mem _ h)
    · rcases mem_cons.1 h with h | h
      · exact .inr (h ▸ mem_cons_self)
      · exact (ih h).imp_right (mem_cons_of_mem _)

theorem Sorted.insert (hs : Sorted l) : Sorted (insert k x l) := by
  induction l with
  | nil => simp [OrdList.insert, Sorted]
  | cons d l ih =>
    have hs' := pairwise_cons.1 hs
    simp only [OrdList.insert]
    split_ifs with h1 h2
    · refine pairwise_cons.2 ⟨fun e he => ?_, hs⟩
      rcases mem_cons.1 he with rfl | he
      · exact h1
      · exact h1.trans (hs'.1 e he)
    · subst h2
      exact pairwise_cons.2 ⟨hs'.1, hs'.2⟩
    · refine pairwise_cons.2 ⟨fun e he => ?_, ih hs'.2⟩
      rcases mem_insert he with rfl | he
      · exact lt_of_le_of_ne (not_lt.1 h1) (Ne.symm h2)
      · exact hs'.1 e he

theorem Sorted.erase (hs : Sorted l) : Sorted (erase k l) :=
  hs.sublist filter_sublist

/-- Sorted lists with the same lookups are the same list. -/
theorem Sorted.eq_of_get {m : List (K × V)} (hl : Sorted l) (hm : Sorted m) (h : ∀ k, get k l = get k m) :
    l = m := by
  have hmem : ∀ e, e ∈ l ↔ e ∈ m := fun e =>
    ⟨fun he => mem_of_get (h e.1 ▸ get_of_mem hl he), fun he => mem_of_get (h e.1 ▸ get_of_mem hm he)⟩
  have hnd : ∀ {n : List (K × V)}, Sorted n → n.Nodup := fun hn =>
    hn.imp fun hlt heq => hlt.ne (congrArg Prod.fst heq)
  refine List.Perm.eq_of_pairwise (fun a b _ _ hab hba => absurd hab hba.asymm) hl hm ?_
  exact (perm_ext_iff_of_nodup (hnd hl) (hnd hm)).2 hmem

end OrdList

/-- An ordered map. -/
structure SortedMap (K : Type u) (V : Type v) [LinearOrder K] where
  entries : List (K × V)
  sorted : OrdList.Sorted entries

namespace SortedMap

/-- The map with no entry. -/
def empty : SortedMap K V := ⟨[], List.Pairwise.nil⟩

instance : Inhabited (SortedMap K V) := ⟨empty⟩

instance [DecidableEq V] : DecidableEq (SortedMap K V) := fun m n =>
  decidable_of_iff (m.entries = n.entries) ⟨fun h => by cases m; cases n; simpa using h, fun h => h ▸ rfl⟩

/-- The value stored under a key. -/
def get (m : SortedMap K V) (k : K) : Option V := OrdList.get k m.entries

/-- Store a value under a key. -/
def insert (m : SortedMap K V) (k : K) (x : V) : SortedMap K V :=
  ⟨OrdList.insert k x m.entries, m.sorted.insert⟩

/-- Drop the entry of a key. -/
def erase (m : SortedMap K V) (k : K) : SortedMap K V := ⟨OrdList.erase k m.entries, m.sorted.erase⟩

/-- Whether a key has an entry. -/
def contains (m : SortedMap K V) (k : K) : Bool := (m.get k).isSome

/-- The keys, in increasing order. -/
def keys (m : SortedMap K V) : List K := m.entries.map Prod.fst

/-- The number of entries. -/
def size (m : SortedMap K V) : ℕ := m.entries.length

/-- Apply a function to the stored value of a key, if there is one. -/
def modify (m : SortedMap K V) (k : K) (f : V → V) : SortedMap K V :=
  match m.get k with
  | none => m
  | some x => m.insert k (f x)

/-- Apply a function to every value. -/
def mapValues {W : Type w} (m : SortedMap K V) (f : K → V → W) : SortedMap K W :=
  ⟨m.entries.map fun e => (e.1, f e.1 e.2), by
    unfold OrdList.Sorted
    rw [List.pairwise_map]
    exact m.sorted⟩

/-- Keep the entries a test accepts. -/
def filter (m : SortedMap K V) (p : K → V → Bool) : SortedMap K V :=
  ⟨m.entries.filter fun e => p e.1 e.2, m.sorted.sublist List.filter_sublist⟩

@[simp] theorem get_empty (k : K) : (empty : SortedMap K V).get k = none := rfl

theorem get_insert (m : SortedMap K V) (k k' : K) (x : V) :
    (m.insert k x).get k' = if k' = k then some x else m.get k' :=
  OrdList.get_insert k k' x m.entries

@[simp] theorem get_insert_self (m : SortedMap K V) (k : K) (x : V) :
    (m.insert k x).get k = some x := by rw [get_insert, if_pos rfl]

theorem get_insert_of_ne (m : SortedMap K V) {k k' : K} (x : V) (h : k' ≠ k) :
    (m.insert k x).get k' = m.get k' := by rw [get_insert, if_neg h]

theorem get_erase (m : SortedMap K V) (k k' : K) :
    (m.erase k).get k' = if k' = k then none else m.get k' := OrdList.get_erase k k' m.entries

@[simp] theorem get_erase_self (m : SortedMap K V) (k : K) : (m.erase k).get k = none := by
  rw [get_erase, if_pos rfl]

theorem get_erase_of_ne (m : SortedMap K V) {k k' : K} (h : k' ≠ k) :
    (m.erase k).get k' = m.get k' := by rw [get_erase, if_neg h]

theorem get_modify (m : SortedMap K V) (k k' : K) (f : V → V) :
    (m.modify k f).get k' = if k' = k then (m.get k).map f else m.get k' := by
  unfold modify
  cases hk : m.get k with
  | none =>
    split_ifs with h
    · rw [h, hk]
      rfl
    · rfl
  | some => simp only [get_insert, Option.map_some]

theorem ext_get {m n : SortedMap K V} (h : ∀ k, m.get k = n.get k) : m = n := by
  cases m with
  | mk l hl =>
    cases n with
    | mk l' hl' =>
      have : l = l' := hl.eq_of_get hl' h
      subst this
      rfl

variable {m : SortedMap K V} {k : K} {x : V}

theorem mem_entries : (k, x) ∈ m.entries ↔ m.get k = some x :=
  ⟨OrdList.get_of_mem m.sorted, OrdList.mem_of_get⟩

theorem mem_keys : k ∈ m.keys ↔ (m.get k).isSome :=
  OrdList.get_isSome_iff.symm

theorem mem_keys_iff_exists : k ∈ m.keys ↔ ∃ x, m.get k = some x := by
  rw [mem_keys, Option.isSome_iff_exists]

theorem keys_sorted (m : SortedMap K V) : m.keys.Pairwise (· < ·) :=
  pairwise_map.2 m.sorted

theorem keys_nodup (m : SortedMap K V) : m.keys.Nodup := m.keys_sorted.imp fun h => h.ne

theorem contains_iff : m.contains k = true ↔ k ∈ m.keys :=
  mem_keys.symm

theorem get_filter (m : SortedMap K V) (p : K → V → Bool) (k : K) :
    (m.filter p).get k = (m.get k).filter (p k) := by
  cases hk : m.get k with
  | none =>
    rw [Option.filter_none, Option.eq_none_iff_forall_ne_some]
    intro x hx
    have := (mem_filter.1 (mem_entries.2 hx)).1
    rw [mem_entries.1 this] at hk
    cases hk
  | some x =>
    by_cases hp : p k x
    · rw [Option.filter_some, if_pos hp]
      exact mem_entries.1 (mem_filter.2 ⟨mem_entries.2 hk, hp⟩)
    · rw [Option.filter_some, if_neg hp, Option.eq_none_iff_forall_ne_some]
      intro y hy
      obtain ⟨hy, hpy⟩ := mem_filter.1 (mem_entries.2 hy)
      rw [mem_entries.1 hy] at hk
      cases hk
      exact hp hpy

theorem get_mapValues {W : Type w} (m : SortedMap K V) (f : K → V → W) (k : K) :
    (m.mapValues f).get k = (m.get k).map (f k) := by
  refine Option.ext fun y => ?_
  rw [← mem_entries, Option.map_eq_some_iff]
  simp only [mapValues, mem_map, Prod.mk.injEq, Prod.exists]
  constructor
  · rintro ⟨k', x, hmem, rfl, rfl⟩
    exact ⟨x, mem_entries.1 hmem, rfl⟩
  · rintro ⟨x, hx, rfl⟩
    exact ⟨k, x, mem_entries.2 hx, rfl, rfl⟩

/-! ### Sums over the entries -/

variable {M : Type w} [AddCommMonoid M]

/-- The total of a quantity over the entries. -/
def sum (m : SortedMap K V) (f : K → V → M) : M := (m.entries.map fun e => f e.1 e.2).sum

@[simp] theorem sum_empty (f : K → V → M) : (empty : SortedMap K V).sum f = 0 := rfl

/-- What a key contributes to a total. -/
def term (m : SortedMap K V) (f : K → V → M) (k : K) : M := ((m.get k).map (f k)).getD 0

variable {f : K → V → M}

theorem term_of_get (h : m.get k = some x) : m.term f k = f k x := by simp [term, h]

theorem term_of_get_none (h : m.get k = none) : m.term f k = 0 := by simp [term, h]

private theorem sum_entries_insert {l : List (K × V)} (hs : OrdList.Sorted l) {f : K → V → M}
    {k : K} {x : V} :
    ((OrdList.get k l).map (f k)).getD 0 + ((OrdList.insert k x l).map fun e => f e.1 e.2).sum =
      f k x + (l.map fun e => f e.1 e.2).sum := by
  induction l with
  | nil => simp [OrdList.insert]
  | cons e l ih =>
    have hs' := pairwise_cons.1 hs
    simp only [OrdList.insert, OrdList.get_cons]
    rcases lt_trichotomy k e.1 with hlt | heq | hgt
    · have hnone : OrdList.get k l = none := by
        rw [← Option.not_isSome_iff_eq_none, OrdList.get_isSome_iff]
        intro hmem
        obtain ⟨d, hd, rfl⟩ := mem_map.1 hmem
        exact (hlt.trans (hs'.1 d hd)).false
      rw [if_neg hlt.ne, if_pos hlt, hnone]
      simp
    · rw [if_pos heq, if_neg heq.not_lt, if_pos heq]
      subst heq
      simp only [Option.map_some, Option.getD_some, map_cons, sum_cons]
      exact add_left_comm _ _ _
    · rw [if_neg hgt.ne', if_neg hgt.not_gt, if_neg hgt.ne', map_cons, sum_cons,
        map_cons, sum_cons, add_left_comm, ih hs'.2, add_left_comm]

/-- Storing a value replaces what its key contributed. -/
theorem sum_insert (m : SortedMap K V) (f : K → V → M) (k : K) (x : V) :
    m.term f k + (m.insert k x).sum f = f k x + m.sum f :=
  sum_entries_insert m.sorted

theorem sum_insert_of_get_none (f : K → V → M) (x : V) (h : m.get k = none) :
    (m.insert k x).sum f = f k x + m.sum f := by
  rw [← sum_insert, term_of_get_none h, zero_add]

theorem insert_erase (m : SortedMap K V) (h : m.get k = some x) : (m.erase k).insert k x = m := by
  refine ext_get fun k' => ?_
  rw [get_insert]
  split_ifs with hk
  · rw [hk, h]
  · rw [get_erase_of_ne m hk]

theorem erase_of_get_none (h : m.get k = none) : m.erase k = m :=
  ext_get fun k' => by
    rw [get_erase]
    split_ifs with hk
    · rw [hk, h]
    · rfl

/-- Dropping a key takes away what it contributed. -/
theorem sum_erase (m : SortedMap K V) (f : K → V → M) (k : K) : m.sum f = m.term f k + (m.erase k).sum f := by
  cases hk : m.get k with
  | none => rw [erase_of_get_none hk, term_of_get_none hk, zero_add]
  | some x =>
    rw [term_of_get hk, ← sum_insert_of_get_none f x (get_erase_self m k), insert_erase m hk]

/-- A map that differs from another one only at a key differs in total by what the key
contributes. -/
theorem sum_replace {m m' : SortedMap K V} {o : Option V} (h : ∀ j, m'.get j = if j = k then o else m.get j)
    (f : K → V → M) : m.term f k + m'.sum f = (o.map (f k)).getD 0 + m.sum f := by
  cases o with
  | none =>
    have : m' = m.erase k := ext_get fun j => by rw [h, get_erase]
    rw [this, ← sum_erase, Option.map_none, Option.getD_none, zero_add]
  | some x =>
    have : m' = m.insert k x := ext_get fun j => by rw [h, get_insert]
    rw [this, sum_insert, Option.map_some, Option.getD_some]

/-- A change of some values that adds the same to each of them. -/
theorem sum_update {m m' : SortedMap K V} {g : V → V} {c : M} {ks : List K} (hn : ks.Nodup)
    (hin : ∀ k ∈ ks, m'.get k = (m.get k).map g) (hout : ∀ k ∉ ks, m'.get k = m.get k)
    (hadd : ∀ k ∈ ks, ∃ x, m.get k = some x ∧ f k (g x) = f k x + c) :
    m'.sum f = m.sum f + ks.length • c := by
  induction ks generalizing m with
  | nil =>
    have : m' = m := ext_get fun j => hout j not_mem_nil
    rw [this, length_nil, zero_smul, add_zero]
  | cons k ks ih =>
    obtain ⟨hk, hn⟩ := nodup_cons.1 hn
    obtain ⟨x, hx, hfx⟩ := hadd k mem_cons_self
    have hne : ∀ j ∈ ks, j ≠ k := fun j hj heq => hk (heq ▸ hj)
    -- the first of the keys is changed on its own
    have hrest := ih (m := m.insert k (g x)) hn
      (fun j hj => by
        rw [get_insert_of_ne m _ (hne j hj)]
        exact hin j (mem_cons_of_mem k hj))
      (fun j hj => by
        rw [get_insert]
        split_ifs with heq
        · rw [heq, hin k mem_cons_self, hx]
          rfl
        · exact hout j fun hmem => (mem_cons.1 hmem).elim heq hj)
      (fun j hj => by
        obtain ⟨y, hy, hfy⟩ := hadd j (mem_cons_of_mem k hj)
        exact ⟨y, by rw [get_insert_of_ne m _ (hne j hj), hy], hfy⟩)
    have he : (m.insert k (g x)).erase k = m.erase k := ext_get fun j => by
      rw [get_erase, get_erase, get_insert]
      split_ifs <;> rfl
    have hold := sum_erase m f k
    have hnew := sum_erase (m.insert k (g x)) f k
    rw [term_of_get hx] at hold
    rw [term_of_get (get_insert_self m k (g x)), he, hfx] at hnew
    rw [hrest, hnew, hold, length_cons, succ_nsmul']
    simp only [add_assoc, add_left_comm c]

/-- Totals are ordered as the quantities. -/
theorem sum_le_sum {f g : K → V → ℕ} (h : ∀ k x, m.get k = some x → f k x ≤ g k x) : m.sum f ≤ m.sum g :=
  List.sum_le_sum fun e he => h e.1 e.2 (mem_entries.1 he)

theorem sum_congr {g : K → V → M} (h : ∀ k x, m.get k = some x → f k x = g k x) : m.sum f = m.sum g := by
  unfold sum
  congr 1
  exact map_congr_left fun e he => h e.1 e.2 (mem_entries.1 he)

end SortedMap

/-- An ordered set. -/
abbrev SortedSet (K : Type u) [LinearOrder K] := SortedMap K Unit

namespace SortedSet

instance : Membership K (SortedSet K) := ⟨fun s k => s.get k = some ()⟩

variable {s : SortedSet K} {k : K}

theorem mem_def : k ∈ s ↔ s.get k = some () := Iff.rfl

instance (s : SortedSet K) (k : K) : Decidable (k ∈ s) :=
  inferInstanceAs (Decidable (s.get k = some ()))

/-- Add an element. -/
def add (s : SortedSet K) (k : K) : SortedSet K := s.insert k ()

/-- The elements, in increasing order. -/
def toList (s : SortedSet K) : List K := s.keys

@[simp] theorem not_mem_empty (k : K) : k ∉ (SortedMap.empty : SortedSet K) := nofun

@[simp] theorem mem_add {k k' : K} : k' ∈ s.add k ↔ k' = k ∨ k' ∈ s := by
  simp only [mem_def, add, SortedMap.get_insert]
  split_ifs with h <;> simp [h]

theorem mem_foldl_add {l : List K} {k : K} : k ∈ l.foldl add s ↔ k ∈ l ∨ k ∈ s := by
  induction l generalizing s with
  | nil => simp
  | cons c l ih =>
    rw [List.foldl_cons, ih, mem_add, List.mem_cons]
    tauto

@[simp] theorem mem_erase {k k' : K} : k' ∈ s.erase k ↔ k' ≠ k ∧ k' ∈ s := by
  simp only [mem_def, SortedMap.get_erase]
  split_ifs with h <;> simp [h]

@[simp] theorem mem_toList : k ∈ s.toList ↔ k ∈ s := by
  rw [toList, SortedMap.mem_keys, mem_def]
  cases s.get k <;> simp

theorem erase_of_not_mem (h : k ∉ s) : s.erase k = s :=
  SortedMap.erase_of_get_none (Option.eq_none_iff_forall_ne_some.2 fun _ => h)

theorem toList_sorted (s : SortedSet K) : s.toList.Pairwise (· < ·) := s.keys_sorted

theorem ext_mem {s t : SortedSet K} (h : ∀ k, k ∈ s ↔ k ∈ t) : s = t := by
  refine SortedMap.ext_get fun k => ?_
  have hk := h k
  simp only [mem_def] at hk
  cases hs : s.get k <;> cases ht : t.get k <;> simp_all

end SortedSet

end Fireemu.Library
