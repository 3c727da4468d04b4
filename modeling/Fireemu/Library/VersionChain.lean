import Mathlib.Tactic

/-!
# Version chains

The history of one key is a list of (version, value) entries in strictly increasing version order.
Reading at a version takes the newest entry not after it.  Keeping, of the entries at or before a
floor, only the newest one changes no read at or after the floor (`lookup_drop_cut`).
-/

namespace Fireemu.Library

open List

universe u v

variable {V : Type u} {α : Type v} [LinearOrder V]

/-- The number of leading entries that a test accepts. -/
def partitionPoint {β : Type v} (p : β → Bool) (l : List β) : ℕ := (l.takeWhile p).length

namespace VersionChain

/-- Versions in strictly increasing order. -/
def Ascending (chain : List (V × α)) : Prop := chain.Pairwise fun a b => a.1 < b.1

/-- The newest entry not after a version. -/
def lookup (chain : List (V × α)) (v : V) : Option (V × α) :=
  chain.reverse.find? fun e => e.1 ≤ v

/-- The entries before the newest one not after a floor. -/
def cut (chain : List (V × α)) (floor : V) : ℕ :=
  partitionPoint (fun e => decide (e.1 ≤ floor)) chain - 1

@[simp] theorem lookup_nil (v : V) : lookup ([] : List (V × α)) v = none := rfl

variable {chain : List (V × α)} {v : V}

theorem lookup_append_singleton {e : V × α} :
    lookup (chain ++ [e]) v = if e.1 ≤ v then some e else lookup chain v := by
  simp only [lookup, reverse_append, reverse_singleton, singleton_append, find?_cons]
  by_cases h : e.1 ≤ v <;> simp [h]

theorem lookup_append (l m : List (V × α)) (v : V) : lookup (l ++ m) v = (lookup m v).or (lookup l v) := by
  rw [lookup, reverse_append, find?_append]
  rfl

variable {e : V × α} {floor : V}

theorem mem_of_lookup (h : lookup chain v = some e) : e ∈ chain ∧ e.1 ≤ v := by
  have hmem := mem_of_find?_eq_some h
  have hle := find?_some h
  exact ⟨mem_reverse.1 hmem, by simpa using hle⟩

theorem lookup_eq_none : lookup chain v = none ↔ ∀ e ∈ chain, v < e.1 := by
  simp [lookup, find?_eq_none]

/-- At or after every version of the chain, reading gives the last entry. -/
theorem lookup_eq_getLast? (h : ∀ e ∈ chain, e.1 ≤ v) : lookup chain v = chain.getLast? := by
  induction chain using List.reverseRecOn with
  | nil => rfl
  | append_singleton l e =>
    rw [lookup_append_singleton, if_pos (h e (by simp)), getLast?_concat]

theorem Ascending.nil : Ascending ([] : List (V × α)) := List.Pairwise.nil

theorem Ascending.append_singleton (h : Ascending chain) (he : ∀ d ∈ chain, d.1 < e.1) :
    Ascending (chain ++ [e]) :=
  pairwise_append.2 ⟨h, pairwise_singleton _ _, fun d hd b hb => by
    rw [mem_singleton.1 hb]
    exact he d hd⟩

theorem Ascending.drop (h : Ascending chain) (n : ℕ) : Ascending (chain.drop n) :=
  h.sublist (drop_sublist n chain)

/-- The entries of an ascending chain not after a floor are its first ones. -/
theorem mem_take_partitionPoint (h : Ascending chain) (floor : V) :
    (∀ e ∈ chain.take (partitionPoint (fun e => decide (e.1 ≤ floor)) chain), e.1 ≤ floor) ∧
      ∀ e ∈ chain.drop (partitionPoint (fun e => decide (e.1 ≤ floor)) chain), floor < e.1 := by
  induction chain with
  | nil => simp
  | cons a l ih =>
    have h' := pairwise_cons.1 h
    unfold partitionPoint at ih ⊢
    by_cases ha : a.1 ≤ floor
    · rw [takeWhile_cons_of_pos (by simpa using ha), length_cons, take_succ_cons, drop_succ_cons]
      refine ⟨fun e he => ?_, (ih h'.2).2⟩
      rcases mem_cons.1 he with rfl | he
      · exact ha
      · exact (ih h'.2).1 e he
    · rw [takeWhile_cons_of_neg (by simpa using ha)]
      refine ⟨by simp, fun e he => ?_⟩
      rcases mem_cons.1 he with rfl | he
      · exact not_le.1 ha
      · exact (not_le.1 ha).trans (h'.1 e he)

/-- After a cut that drops something, the first entry left is not after the floor. -/
theorem exists_drop_cut_cons (h : Ascending chain) (hcut : cut chain floor ≠ 0) :
    ∃ e l, chain.drop (cut chain floor) = e :: l ∧ e.1 ≤ floor := by
  have htake := (mem_take_partitionPoint h floor).1
  have hlen : partitionPoint (fun e => decide (e.1 ≤ floor)) chain ≤ chain.length :=
    (takeWhile_sublist _).length_le
  have hlt : cut chain floor < chain.length := by
    unfold cut at hcut ⊢
    omega
  have hlt' : cut chain floor < partitionPoint (fun e => decide (e.1 ≤ floor)) chain := by
    unfold cut at hcut ⊢
    omega
  refine ⟨chain[cut chain floor], _, drop_eq_getElem_cons hlt, htake _ ?_⟩
  rw [mem_take_iff_getElem]
  exact ⟨cut chain floor, by omega, rfl⟩

/-- Dropping what is before the newest entry not after a floor changes no read at or after the
floor. -/
theorem lookup_drop_cut (h : Ascending chain) (hv : floor ≤ v) :
    lookup (chain.drop (cut chain floor)) v = lookup chain v := by
  by_cases hcut : cut chain floor = 0
  · rw [hcut, drop_zero]
  · obtain ⟨e, l, hdrop, he⟩ := exists_drop_cut_cons h hcut
    have hsome : (lookup (chain.drop (cut chain floor)) v).isSome := by
      rw [← Option.ne_none_iff_isSome, Ne, lookup_eq_none, hdrop]
      exact fun hall => absurd (hall e mem_cons_self) (not_lt.2 (he.trans hv))
    conv_rhs => rw [← take_append_drop (cut chain floor) chain, lookup_append]
    rw [Option.or_of_isSome hsome]

theorem getLast?_drop_cut (h : Ascending chain) (floor : V) :
    (chain.drop (cut chain floor)).getLast? = chain.getLast? := by
  by_cases hcut : cut chain floor = 0
  · rw [hcut, drop_zero]
  · obtain ⟨e, l, hdrop, -⟩ := exists_drop_cut_cons h hcut
    conv_rhs => rw [← take_append_drop (cut chain floor) chain]
    rw [getLast?_append_of_ne_nil]
    rw [hdrop]
    exact cons_ne_nil _ _

end VersionChain

end Fireemu.Library
