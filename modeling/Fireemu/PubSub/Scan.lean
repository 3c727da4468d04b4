import Fireemu.PubSub.SubscriptionInvariant

/-!
# Which entries a pull takes

A pull walks the log once, from the first unacknowledged entry on.  `PullScan.Sound` is what holds
when it has looked at the first `n` entries; the clause that carries the order is `unblocked`: a key
that is not blocked has, among the entries passed so far, only acknowledged ones and ones taken.
-/

namespace Fireemu.PubSub

open Library (SortedMap SortedSet)
open List

namespace SubscriptionState

/-- What holds of a pull that has looked at the first `n` entries of a log. -/
structure PullScan.Sound (rules : PullRules) (entries : List Entry) (n : ℕ) (scan : PullScan) :
    Prop where
  selected : ∀ i ∈ scan.selected, i < n ∧ ∃ e, entries[i]? = some e ∧
    e.isDeliverable rules.now = true ∧ e.isExhausted rules.maxAttempts = false ∧
      (rules.unkeyedOnly = true → e.key = [])
  forwarded : ∀ i ∈ scan.forwarded, i < n ∧ ∃ e, entries[i]? = some e ∧
    e.isDeliverable rules.now = true ∧ e.isExhausted rules.maxAttempts = true
  selected_sorted : scan.selected.Pairwise (· < ·)
  selected_order : rules.ordered = true → ∀ i ∈ scan.selected, ∀ e, entries[i]? = some e →
    e.key ≠ [] → ∀ j < i, ∀ e', entries[j]? = some e' → e'.key = e.key →
      e'.isAcked = true ∨ j ∈ scan.selected ∧ rules.push = false
  forwarded_order : rules.ordered = true → ∀ i ∈ scan.forwarded, ∀ e, entries[i]? = some e →
    e.key ≠ [] → ∀ j < i, ∀ e', entries[j]? = some e' → e'.key = e.key → e'.isAcked = true
  unblocked : rules.ordered = true → rules.unkeyedOnly = false → scan.selected.length < rules.max →
    ∀ key ≠ [], key ∉ scan.blockedKeys → ∀ j < n, ∀ e', entries[j]? = some e' → e'.key = key →
      e'.isAcked = true ∨ j ∈ scan.selected ∧ key ∈ scan.emittedKeys ∧ rules.push = false

namespace PullScan

variable {rules : PullRules} {entries : List Entry} {n : ℕ} {scan : PullScan} {e : Entry}

/-- An entry is not both within its budget and beyond it. -/
theorem Sound.notMem_forwarded (h : Sound rules entries n scan) {i : ℕ} (hi : i ∈ scan.selected) :
    i ∉ scan.forwarded := by
  intro hmem
  obtain ⟨-, e, hget, -, he, -⟩ := h.selected i hi
  obtain ⟨-, e', hget', -, he'⟩ := h.forwarded i hmem
  rw [hget, Option.some.injEq] at hget'
  rw [← hget', he] at he'
  cases he'

/-- Before the first entry that is not acknowledged there is nothing to take. -/
theorem sound_empty (ha : ∀ j < n, ∀ e', entries[j]? = some e' → e'.isAcked = true) :
    Sound rules entries n .empty where
  selected := nofun
  forwarded := nofun
  selected_sorted := .nil
  selected_order _ := nofun
  forwarded_order _ := nofun
  unblocked _ _ _ _ _ _ j hj e' hget _ := .inl (ha j hj e' hget)

variable {scan' : PullScan}

/-- Looking at an entry, which may be taken or transferred.  If it is of a key that is not blocked then, it is
acknowledged or taken. -/
theorem Sound.extend (h : Sound rules entries n scan) (hget : entries[n]? = some e) {taken moved : List ℕ}
    (hs : scan'.selected = scan.selected ++ taken) (hf : scan'.forwarded = scan.forwarded ++ moved)
    (htaken : taken <+ [n]) (hmoved : moved <+ [n])
    (hemitted : ∀ key ∈ scan.emittedKeys, key ∈ scan'.emittedKeys)
    (hb : ∀ key ∈ scan.blockedKeys, key ∈ scan'.blockedKeys)
    (ht : taken ≠ [] → e.isDeliverable rules.now = true ∧ e.isExhausted rules.maxAttempts = false ∧
      (rules.unkeyedOnly = true → e.key = []) ∧ scan.selected.length < rules.max ∧
        (rules.ordered = true → e.key ≠ [] → e.key ∉ scan.blockedKeys))
    (hm : moved ≠ [] → e.isDeliverable rules.now = true ∧ e.isExhausted rules.maxAttempts = true ∧
      (rules.ordered = true → e.key ≠ [] → rules.unkeyedOnly = false ∧ scan.selected.length < rules.max ∧
        e.key ∉ scan.blockedKeys ∧ e.key ∉ scan.emittedKeys))
    (hentry : rules.ordered = true → rules.unkeyedOnly = false → scan.selected.length < rules.max →
      e.key ≠ [] → e.key ∉ scan'.blockedKeys →
        e.isAcked = true ∨ n ∈ taken ∧ e.key ∈ scan'.emittedKeys ∧ rules.push = false) :
    Sound rules entries (n + 1) scan' := by
  have hself : ∀ {l : List ℕ}, l <+ [n] → ∀ {i}, i ∈ l → i = n ∧ l ≠ [] := fun hl i hi =>
    ⟨mem_singleton.1 (hl.subset hi), ne_nil_of_mem hi⟩
  constructor
  case selected =>
    intro i hi
    rw [hs, mem_append] at hi
    rcases hi with hi | hi
    · exact ⟨(h.selected i hi).1.trans n.lt_succ_self, (h.selected i hi).2⟩
    · obtain ⟨rfl, hne⟩ := hself htaken hi
      obtain ⟨hd, he, hu, -⟩ := ht hne
      exact ⟨i.lt_succ_self, e, hget, hd, he, hu⟩
  case forwarded =>
    intro i hi
    rw [hf, mem_append] at hi
    rcases hi with hi | hi
    · exact ⟨(h.forwarded i hi).1.trans n.lt_succ_self, (h.forwarded i hi).2⟩
    · obtain ⟨rfl, hne⟩ := hself hmoved hi
      obtain ⟨hd, he, -⟩ := hm hne
      exact ⟨i.lt_succ_self, e, hget, hd, he⟩
  case selected_sorted =>
    exact hs ▸ pairwise_append.2 ⟨h.selected_sorted, (pairwise_singleton _ n).sublist htaken,
      fun i hi j hj => (hself htaken hj).1 ▸ (h.selected i hi).1⟩
  case selected_order =>
    intro ho i hi e' hget' hkey j hj e'' hget'' hsame
    rw [hs, mem_append] at hi ⊢
    have hadd : e''.isAcked = true ∨ j ∈ scan.selected ∧ rules.push = false →
        e''.isAcked = true ∨ (j ∈ scan.selected ∨ j ∈ taken) ∧ rules.push = false :=
      Or.imp_right (And.imp_left .inl)
    rcases hi with hi | hi
    · exact hadd (h.selected_order ho i hi e' hget' hkey j hj e'' hget'' hsame)
    · obtain ⟨rfl, hne⟩ := hself htaken hi
      rw [hget, Option.some.injEq] at hget'
      subst hget'
      obtain ⟨-, -, hu, hmax, hfree⟩ := ht hne
      have hall : rules.unkeyedOnly = false := Bool.eq_false_iff.2 fun hall => hkey (hu hall)
      exact hadd ((h.unblocked ho hall hmax _ hkey (hfree ho hkey) j hj e'' hget'' hsame).imp_right
        fun ⟨hmem, _, hpush⟩ => ⟨hmem, hpush⟩)
  case forwarded_order =>
    intro ho i hi e' hget' hkey j hj e'' hget'' hsame
    rw [hf, mem_append] at hi
    rcases hi with hi | hi
    · exact h.forwarded_order ho i hi e' hget' hkey j hj e'' hget'' hsame
    · obtain ⟨rfl, hne⟩ := hself hmoved hi
      rw [hget, Option.some.injEq] at hget'
      subst hget'
      obtain ⟨hall, hmax, hfree, hnew⟩ := (hm hne).2.2 ho hkey
      rcases h.unblocked ho hall hmax _ hkey hfree j hj e'' hget'' hsame with ha | ⟨-, hmem, -⟩
      · exact ha
      · exact absurd hmem hnew
  case unblocked =>
    intro ho hall hmax key hkey hnot j hj e' hget' hkey'
    rw [hs, length_append] at hmax
    rw [hs, mem_append]
    have hmax : scan.selected.length < rules.max := by omega
    rcases Nat.lt_succ_iff_lt_or_eq.1 hj with hj | rfl
    · rcases h.unblocked ho hall hmax key hkey (fun hmem => hnot (hb key hmem)) j hj e' hget' hkey' with
        ha | ⟨hmem, hemit, hpush⟩
      · exact .inl ha
      · exact .inr ⟨.inl hmem, hemitted key hemit, hpush⟩
    · rw [hget, Option.some.injEq] at hget'
      subst hget' hkey'
      exact (hentry ho hall hmax hkey hnot).imp_right (And.imp_left .inr)

/-- Passing an entry without taking it: either no more keys are asked for, or the entry is acknowledged,
unkeyed, or of a blocked key. -/
theorem Sound.pass (h : Sound rules entries n scan) (hget : entries[n]? = some e) {blockedKeys : List Str}
    (hb : ∀ key ∈ scan.blockedKeys, key ∈ blockedKeys)
    (hentry : rules.ordered = true → rules.unkeyedOnly = false → scan.selected.length < rules.max →
      e.key ≠ [] → e.key ∉ blockedKeys → e.isAcked = true) :
    Sound rules entries (n + 1) { scan with blockedKeys } :=
  h.extend hget (append_nil _).symm (append_nil _).symm (nil_sublist _) (nil_sublist _) (fun _ => id) hb
    (absurd rfl) (absurd rfl) fun ho hall hmax hkey hnot => .inl (hentry ho hall hmax hkey hnot)

/-- Looking at one entry. -/
theorem Sound.step (h : Sound rules entries n scan) (hget : entries[n]? = some e) :
    Sound rules entries (n + 1) (scan.step rules (e, n)) := by
  unfold PullScan.step
  dsimp only
  have hkeyed : ∀ {c : Bool}, c = (rules.ordered && !e.key.isEmpty) →
      (c = true ↔ rules.ordered = true ∧ e.key ≠ []) := by
    rintro c rfl
    simp
  generalize hc : (rules.ordered && !e.key.isEmpty) = keyed
  have hkeyed := hkeyed hc.symm
  by_cases hmax : rules.max ≤ scan.selected.length
  · rw [if_pos hmax]
    exact h.pass hget (fun _ => id) fun _ _ hlt => absurd hlt (not_lt.2 hmax)
  rw [if_neg hmax]
  have hmax := not_le.1 hmax
  by_cases ha : e.isAcked = true
  · rw [if_pos ha]
    exact h.pass hget (fun _ => id) fun _ _ _ _ _ => ha
  rw [if_neg ha]
  by_cases honly : (rules.unkeyedOnly && !e.key.isEmpty) = true
  · rw [if_pos honly]
    refine h.pass hget (fun _ => id) fun _ hall => ?_
    rw [hall] at honly
    cases honly
  rw [if_neg honly]
  have honly : rules.unkeyedOnly = true → e.key = [] := by
    intro hall
    simpa [hall] using honly
  have hall : e.key ≠ [] → rules.unkeyedOnly = false := fun hkey => by
    by_contra hcon
    exact hkey (honly (by simpa using hcon))
  by_cases hb : (keyed && scan.blockedKeys.contains e.key) = true
  · rw [if_pos hb]
    refine h.pass hget (fun _ => id) fun _ _ _ _ hnot => absurd ?_ hnot
    simpa using (Bool.and_eq_true_iff.1 hb).2
  rw [if_neg hb]
  have hfree : keyed = true → e.key ∉ scan.blockedKeys := by
    intro hk
    simpa [hk] using hb
  by_cases hd : e.isDeliverable rules.now = true
  · rw [if_neg (by simp [hd])]
    by_cases he : e.isExhausted rules.maxAttempts = true
    · rw [if_pos he]
      by_cases hk : keyed = true
      · rw [if_pos hk]
        by_cases hemitted : scan.emittedKeys.contains e.key = true
        · rw [if_pos hemitted]
          exact h.pass hget (fun _ => mem_cons_of_mem _)
            fun _ _ _ _ hnot => absurd mem_cons_self hnot
        · rw [if_neg hemitted]
          refine h.extend hget (append_nil _).symm rfl (nil_sublist _) (.refl _) (fun _ => id)
            (fun _ => mem_cons_of_mem _) (absurd rfl) (fun _ => ⟨hd, he, fun _ hkey => ?_⟩)
            fun _ _ _ _ hnot => absurd mem_cons_self hnot
          exact ⟨hall hkey, hmax, hfree hk, by simpa using hemitted⟩
      · rw [if_neg hk]
        exact h.extend hget (append_nil _).symm rfl (nil_sublist _) (.refl _) (fun _ => id) (fun _ => id)
          (absurd rfl) (fun _ => ⟨hd, he, fun ho hkey => absurd (hkeyed.2 ⟨ho, hkey⟩) hk⟩)
          fun ho _ _ hkey => absurd (hkeyed.2 ⟨ho, hkey⟩) hk
    · rw [if_neg he]
      have ht := And.intro hd (And.intro (Bool.eq_false_iff.2 he) (And.intro honly (And.intro hmax
        fun ho hkey => hfree (hkeyed.2 ⟨ho, hkey⟩))))
      by_cases hk : keyed = true
      · rw [if_pos hk]
        by_cases hhold : (rules.push || decide (0 < e.deliveryAttempt)) = true
        · rw [if_pos hhold]
          exact h.extend hget rfl (append_nil _).symm (.refl _) (nil_sublist _) (fun _ => mem_cons_of_mem _)
            (fun _ => mem_cons_of_mem _) (fun _ => ht) (absurd rfl) fun _ _ _ _ hnot => absurd mem_cons_self hnot
        · rw [if_neg hhold]
          refine h.extend hget rfl (append_nil _).symm (.refl _) (nil_sublist _) (fun _ => mem_cons_of_mem _)
            (fun _ => id) (fun _ => ht) (absurd rfl) fun _ _ _ _ _ => .inr ⟨mem_singleton_self n, mem_cons_self, ?_⟩
          exact Bool.eq_false_iff.2 fun hpush => hhold (by rw [hpush]; rfl)
      · rw [if_neg hk]
        exact h.extend hget rfl (append_nil _).symm (.refl _) (nil_sublist _) (fun _ => id) (fun _ => id) (fun _ => ht)
          (absurd rfl) fun ho _ _ hkey => absurd (hkeyed.2 ⟨ho, hkey⟩) hk
  · rw [if_pos (by simpa using hd)]
    by_cases hk : keyed = true
    · rw [if_pos hk]
      exact h.pass hget (fun _ => mem_cons_of_mem _)
        fun _ _ _ _ hnot => absurd mem_cons_self hnot
    · rw [if_neg hk]
      exact h.pass hget (fun _ => id) fun ho _ _ hkey => absurd (hkeyed.2 ⟨ho, hkey⟩) hk

/-- Walking the rest of a log. -/
theorem Sound.foldl (rest : List Entry) (hrest : entries.drop n = rest) (h : Sound rules entries n scan) :
    Sound rules entries (n + rest.length) ((rest.zipIdx n).foldl (PullScan.step rules) scan) := by
  induction rest generalizing n scan with
  | nil => exact h
  | cons e rest ih =>
    have hget : entries[n]? = some e := by
      rw [← head?_drop, hrest, head?_cons]
    have htail : entries.drop (n + 1) = rest := by
      rw [← drop_drop, hrest, drop_one, tail_cons]
    have := ih htail (h.step hget)
    rw [zipIdx_cons, foldl_cons, length_cons]
    rwa [Nat.add_assoc, Nat.add_comm 1] at this

end PullScan

/-- What a pull takes from a subscription. -/
theorem sound_scan {s : SubscriptionState}
    (h : ∀ i < s.firstUnacked, ∃ e, s.entries[i]? = some e ∧ e.isAcked = true) (rules : PullRules) :
    PullScan.Sound rules s.entries (s.firstUnacked + (s.entries.drop s.firstUnacked).length)
      (s.scan rules) := by
  refine PullScan.Sound.foldl _ rfl (PullScan.sound_empty fun j hj e' hget => ?_)
  obtain ⟨e, hget', ha⟩ := h j hj
  rw [hget, Option.some.injEq] at hget'
  rw [hget', ha]

end SubscriptionState

end Fireemu.PubSub
