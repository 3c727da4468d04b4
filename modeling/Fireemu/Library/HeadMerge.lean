import Fireemu.Library.GroupedIndex
import Mathlib.Data.Prod.Lex

/-!
# Merging the heads of a grouped index

A grouped index is read in the order of its elements by keeping one element of each group: the least of them
is visited and replaced by the next one of its group (`merge`).  The merge of an exact index visits the
indexed set in order, each element once (`merge_heads`).
-/

namespace Fireemu.Library

open List Library.SortedSet

universe u v

variable {K : Type u} {A : Type v}

/-- A function that is defined on a list maps it to the values it has there. -/
theorem map_eq_map_some_filterMap {f : K → Option A} {l : List K} (hf : ∀ k ∈ l, (f k).isSome) :
    l.map f = (l.filterMap f).map some := by
  induction l with
  | nil => rfl
  | cons k l ih =>
    obtain ⟨a, ha⟩ := Option.isSome_iff_exists.1 (hf k mem_cons_self)
    rw [map_cons, filterMap_cons_some ha, map_cons, ha, ih fun c hc => hf c (mem_cons_of_mem k hc)]

variable [LinearOrder K] [LinearOrder A]

/-- The head of an increasing list is its least element. -/
theorem head?_eq_some_iff {l : List A} (hl : l.Pairwise (· < ·)) {a : A} :
    l.head? = some a ↔ a ∈ l ∧ ∀ b ∈ l, a ≤ b := by
  cases l with
  | nil => simp
  | cons c =>
    obtain ⟨hf, -⟩ := pairwise_cons.1 hl
    rw [head?_cons, Option.some.injEq]
    constructor
    · rintro rfl
      exact ⟨mem_cons_self, fun b hb => (mem_cons.1 hb).elim (fun h => h.ge) fun h => (hf b h).le⟩
    · rintro ⟨hmem, hle⟩
      refine le_antisymm ?_ (hle c mem_cons_self)
      exact (mem_cons.1 hmem).elim (fun h => h.ge) fun h => (hf a h).le

namespace SortedSet

/-- The set of the elements of a list. -/
def ofList (l : List K) : SortedSet K := l.foldl add SortedMap.empty

@[simp] theorem mem_ofList {l : List K} {k : K} : k ∈ ofList l ↔ k ∈ l := by
  simp [ofList, mem_foldl_add]

end SortedSet

namespace GroupedIndex

/-- The first element of each group. -/
def heads (m : GroupedIndex K A) : List (K × A) :=
  m.entries.filterMap fun e => (SortedSet.toList e.2).head?.map fun a => (e.1, a)

/-- The next element of a group. -/
def nextAfter (m : GroupedIndex K A) (k : K) (a : A) : Option A :=
  (SortedMap.get m k).bind fun s => ((SortedSet.toList s).filter (a < ·)).head?

/-- Visits the least of the elements that are ready and replaces it by the next one of its group, at most a
number of times. -/
def merge (next : K → A → Option A) : ℕ → SortedSet (A ×ₗ K) → List (A × K)
  | 0, _ => []
  | steps + 1, ready =>
      match ready.toList with
      | [] => []
      | e :: _ =>
          let rest : SortedSet (A ×ₗ K) := SortedMap.erase ready e
          ofLex e :: merge next steps (match next (ofLex e).2 (ofLex e).1 with
            | none => rest
            | some b => rest.add (toLex (b, (ofLex e).2)))

variable {key : A → K} {P : A → Prop} {m : GroupedIndex K A}

/-- An element that is the least one of a collection with its key. -/
structure IsHead (key : A → K) (P : A → Prop) (k : K) (a : A) : Prop where
  mem : P a
  key_eq : key a = k
  le : ∀ b, P b → key b = k → a ≤ b

variable {k : K} {a : A} {l : List A} {steps : ℕ}

theorem Exact.mem_of_get (h : Exact key P m) {s : SortedSet A} (hs : m.get k = some s) (a : A) :
    a ∈ s ↔ key a = k ∧ P a := by
  rw [← h.mem_group]
  unfold group
  rw [hs]
  rfl

/-- A collection with an element of a key has a group for it. -/
theorem Exact.exists_get (h : Exact key P m) (ha : P a) : ∃ s, m.get (key a) = some s := by
  have hmem := (h.mem_group (key a) a).2 ⟨rfl, ha⟩
  unfold group at hmem
  cases hs : m.get (key a) with
  | none =>
    rw [hs] at hmem
    exact absurd hmem (not_mem_empty a)
  | some s => exact ⟨s, rfl⟩

theorem Exact.mem_heads (h : Exact key P m) : (k, a) ∈ heads m ↔ IsHead key P k a := by
  simp only [heads, mem_filterMap, Option.map_eq_some_iff, Prod.mk.injEq, Prod.exists]
  constructor
  · rintro ⟨k', s, hentry, b, hhead, rfl, rfl⟩
    have hs := SortedMap.mem_entries.1 hentry
    obtain ⟨hmem, hle⟩ := (head?_eq_some_iff s.toList_sorted).1 hhead
    obtain ⟨hkey, ha⟩ := (h.mem_of_get hs _).1 (mem_toList.1 hmem)
    exact ⟨ha, hkey, fun c hc hck => hle c (mem_toList.2 ((h.mem_of_get hs c).2 ⟨hck, hc⟩))⟩
  · rintro ⟨ha, rfl, hle⟩
    obtain ⟨s, hs⟩ := h.exists_get ha
    refine ⟨_, s, SortedMap.mem_entries.2 hs, a, (head?_eq_some_iff s.toList_sorted).2 ⟨?_, fun b hb => ?_⟩, rfl, rfl⟩
    · exact mem_toList.2 ((h.mem_of_get hs a).2 ⟨rfl, ha⟩)
    · obtain ⟨hkey, hb⟩ := (h.mem_of_get hs b).1 (mem_toList.1 hb)
      exact hle b hb hkey

variable {b : A}

theorem Exact.nextAfter_eq (h : Exact key P m) :
    nextAfter m k a = some b ↔ IsHead key (fun c => P c ∧ a < c) k b := by
  have hmem : ∀ s, m.get k = some s → ∀ c, c ∈ s.toList.filter (a < ·) ↔
      (P c ∧ a < c) ∧ key c = k := fun s hs c => by
    rw [mem_filter, mem_toList, h.mem_of_get hs, decide_eq_true_eq]
    tauto
  unfold nextAfter
  rw [Option.bind_eq_some_iff]
  constructor
  · rintro ⟨s, hs, hhead⟩
    obtain ⟨hb, hle⟩ := (head?_eq_some_iff (s.toList_sorted.filter _)).1 hhead
    obtain ⟨hb, hkey⟩ := (hmem s hs b).1 hb
    exact ⟨hb, hkey, fun c hc hck => hle c ((hmem s hs c).2 ⟨hc, hck⟩)⟩
  · rintro ⟨hb, rfl, hle⟩
    obtain ⟨s, hs⟩ := h.exists_get hb.1
    refine ⟨s, hs, (head?_eq_some_iff (s.toList_sorted.filter _)).2 ⟨(hmem s hs b).2 ⟨hb, rfl⟩, fun c hc => ?_⟩⟩
    obtain ⟨hc, hkey⟩ := (hmem s hs c).1 hc
    exact hle c hc hkey

/-- The least of the elements that are ready is the least one that is left. -/
theorem toList_ready {ready : SortedSet (A ×ₗ K)} (hl : (a :: l).Pairwise (· < ·))
    (hready : ∀ b k, toLex (b, k) ∈ ready ↔ IsHead key (· ∈ a :: l) k b) :
    ready.toList.head? = some (toLex (a, key a)) := by
  obtain ⟨hf, -⟩ := pairwise_cons.1 hl
  have hle : ∀ b ∈ a :: l, a ≤ b := fun b hb => (mem_cons.1 hb).elim (fun h => h.ge) fun h => (hf b h).le
  refine (head?_eq_some_iff ready.toList_sorted).2 ⟨?_, fun e he => ?_⟩
  · exact mem_toList.2 ((hready a (key a)).2 ⟨mem_cons_self, rfl, fun b hb _ => hle b hb⟩)
  · obtain ⟨b, k⟩ := e
    have hb := (hready b k).1 (mem_toList.1 he)
    rcases (hle b hb.mem).lt_or_eq with hlt | rfl
    · exact (Prod.Lex.toLex_lt_toLex.2 (.inl hlt)).le
    · rw [hb.key_eq]
      exact le_rfl

/-- What is ready after the least element is visited. -/
theorem mem_ready_iff {ready : SortedSet (A ×ₗ K)} {next : Option A} (hl : (a :: l).Pairwise (· < ·))
    (hready : ∀ b k, toLex (b, k) ∈ ready ↔ IsHead key (· ∈ a :: l) k b)
    (hnext : ∀ b, next = some b ↔ IsHead key (· ∈ l) (key a) b) :
    toLex (b, k) ∈ (match next with
      | none => (SortedMap.erase ready (toLex (a, key a)) : SortedSet (A ×ₗ K))
      | some b => SortedSet.add (SortedMap.erase ready (toLex (a, key a))) (toLex (b, key a))) ↔
      IsHead key (· ∈ l) k b := by
  obtain ⟨hf, -⟩ := pairwise_cons.1 hl
  have hmem : toLex (b, k) ∈ (match next with
      | none => (SortedMap.erase ready (toLex (a, key a)) : SortedSet (A ×ₗ K))
      | some b => SortedSet.add (SortedMap.erase ready (toLex (a, key a))) (toLex (b, key a))) ↔
      (next = some b ∧ k = key a) ∨ toLex (b, k) ≠ toLex (a, key a) ∧ toLex (b, k) ∈ ready := by
    cases next with
    | none => simp
    | some =>
      rw [mem_add, mem_erase, toLex_inj, Prod.mk.injEq, Option.some.injEq]
      exact or_congr_left (and_congr_left fun _ => eq_comm)
  rw [hmem, hready]
  by_cases hk : k = key a
  · -- the group of the least element has no other head
    subst hk
    have hnot : ¬ (toLex (b, key a) ≠ toLex (a, key a) ∧ IsHead key (· ∈ a :: l) (key a) b) := by
      rintro ⟨hne, hb⟩
      have hba : b ≤ a := hb.le a mem_cons_self rfl
      rcases mem_cons.1 hb.mem with rfl | hmem
      · exact hne rfl
      · exact absurd (hf b hmem) hba.not_gt
    rw [hnext, or_iff_left hnot, and_iff_left rfl]
  · have hne : toLex (b, k) ≠ toLex (a, key a) := fun heq => hk (congrArg (fun e => (ofLex e).2) heq)
    simp only [hk, and_false, false_or, ne_eq, hne, not_false_eq_true, true_and]
    constructor
    · rintro ⟨hb, rfl, hle⟩
      refine ⟨(mem_cons.1 hb).resolve_left fun heq => hk (by rw [heq]), rfl, fun c hc => ?_⟩
      exact hle c (mem_cons_of_mem a hc)
    · rintro ⟨hb, rfl, hle⟩
      refine ⟨mem_cons_of_mem a hb, rfl, fun c hc hck => ?_⟩
      exact hle c ((mem_cons.1 hc).resolve_left fun heq => hk (by rw [← hck, heq])) hck

/-- The merge visits the elements that are left, in order. -/
theorem Exact.merge_eq (h : Exact key P m) {ready : SortedSet (A ×ₗ K)} (hs : l.length ≤ steps)
    (hl : l.Pairwise (· < ·)) (hP : ∀ b ∈ l, P b) (hu : ∀ a ∈ l, ∀ b, P b → a ≤ b → b ∈ l)
    (hready : ∀ a k, toLex (a, k) ∈ ready ↔ IsHead key (· ∈ l) k a) :
    merge (nextAfter m) steps ready = l.map fun a => (a, key a) := by
  induction l generalizing steps ready with
  | nil =>
    have hempty : ready.toList = [] := eq_nil_iff_forall_not_mem.2 fun e he =>
      not_mem_nil ((hready (ofLex e).1 (ofLex e).2).1 (mem_toList.1 he)).mem
    cases steps with
    | zero => rfl
    | succ => rw [merge, hempty]; rfl
  | cons a l ih =>
    obtain ⟨hf, hrest⟩ := pairwise_cons.1 hl
    cases steps with
    | zero => simp at hs
    | succ =>
      have hhead := toList_ready hl hready
      obtain ⟨tail, htail⟩ : ∃ tail, ready.toList = toLex (a, key a) :: tail := by
        cases hlist : ready.toList with
        | nil => simp [hlist] at hhead
        | cons e tail =>
          rw [hlist, head?_cons, Option.some.injEq] at hhead
          exact ⟨tail, by rw [hhead]⟩
      -- what is left after the least element is what lies above it
      have hleft : ∀ b, P b ∧ a < b ↔ b ∈ l := fun b => by
        refine ⟨fun hb => ?_, fun hb => ⟨hP b (mem_cons_of_mem a hb), hf b hb⟩⟩
        exact (mem_cons.1 (hu a mem_cons_self b hb.1 hb.2.le)).resolve_left hb.2.ne'
      have hnext : ∀ b, nextAfter m (key a) a = some b ↔ IsHead key (· ∈ l) (key a) b := fun b => by
        rw [h.nextAfter_eq]
        simp only [hleft]
      rw [merge, htail]
      refine congrArg ((a, key a) :: ·) (ih (Nat.le_of_succ_le_succ hs) hrest
        (fun b hb => hP b (mem_cons_of_mem a hb)) (fun b hb c hc hbc => ?_) fun b k => ?_)
      · exact (hleft c).1 ⟨hc, (hf b hb).trans_le hbc⟩
      · exact mem_ready_iff hl hready hnext

/-- The merge of the heads of an exact index visits the indexed set in order. -/
theorem Exact.merge_heads {s : SortedSet A} (h : Exact key (· ∈ s) m) (hs : s.size ≤ steps) :
    merge (nextAfter m) steps (SortedSet.ofList (m.heads.map fun e => toLex (e.2, e.1))) = s.toList.map fun a => (a, key a) := by
  refine h.merge_eq ?_ s.toList_sorted (fun b hb => mem_toList.1 hb)
    (fun _ _ b hb _ => mem_toList.2 hb) fun a k => ?_
  · exact (length_map _).trans_le hs
  · have hmem : toLex (a, k) ∈ SortedSet.ofList (m.heads.map fun e => toLex (e.2, e.1)) ↔ (k, a) ∈ m.heads := by
      rw [mem_ofList, mem_map]
      constructor
      · rintro ⟨⟨k', a'⟩, he, heq⟩
        cases heq
        exact he
      · exact fun he => ⟨(k, a), he, rfl⟩
    rw [hmem, h.mem_heads]
    simp only [mem_toList]

end GroupedIndex

end Fireemu.Library
