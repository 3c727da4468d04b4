import Fireemu.Types.Determinism

/-!
# Push ids

A push id is 20 letters: 8 spell the milliseconds since the epoch and 12 are random.  Within one
millisecond the random part is incremented, and when it is exhausted the next millisecond is used.
The alphabet is in ascending order, so ids compare as the sequences of their digits, and these
increase with every id.
-/

namespace Fireemu.Database

open List

/-- The alphabet of push ids. -/
def pushChars : Str := "-0123456789ABCDEFGHIJKLMNOPQRSTUVWXYZ_abcdefghijklmnopqrstuvwxyz".toList

/-- A generator of push ids. -/
structure PushIdGenerator where
  lastTime : ℕ
  lastRandom : List ℕ
  rng : BitVec 64
  length_lastRandom : lastRandom.length = 12

/-- The digits of a time, filled in from the last one back. -/
def stamp : ℕ → ℕ → List ℕ
  | 0, _ => []
  | n + 1, time => stamp n (time / 64) ++ [time % 64]

/-- The letters of digits; there is none for a digit outside the alphabet. -/
def letters (digits : List ℕ) : Option Str := digits.mapM fun digit => pushChars[digit]?

/-- Draws random digits, the top six bits of a word each. -/
def drawRandom : ℕ → BitVec 64 → List ℕ × BitVec 64
  | 0, rng => ([], rng)
  | n + 1, rng =>
      let rng := rng + SplitMix64.gamma
      let (digits, last) := drawRandom n rng
      ((SplitMix64.mix rng >>> 58).toNat :: digits, last)

/-- Adds one to digits; `false` when every digit was already the last one. -/
def incrementRandom : List ℕ → Bool × List ℕ
  | [] => (false, [])
  | slot :: rest =>
      match incrementRandom rest with
      | (true, rest) => (true, slot :: rest)
      | (false, rest) => if slot = 63 then (false, 0 :: rest) else (true, (slot + 1) % 256 :: rest)

variable {i n : ℕ}

theorem length_stamp (time : ℕ) : (stamp n time).length = n := by
  induction n generalizing time with
  | zero => rfl
  | succ n ih => rw [stamp, length_append, ih, length_singleton]

theorem length_drawRandom (rng : BitVec 64) : (drawRandom n rng).1.length = n := by
  induction n generalizing rng with
  | zero => rfl
  | succ n ih => simp [drawRandom, ih]

theorem length_incrementRandom {digits : List ℕ} : (incrementRandom digits).2.length = digits.length := by
  induction digits with
  | nil => rfl
  | cons slot rest ih =>
    rw [incrementRandom, length_cons, ← ih]
    split
    · simp [*]
    · split_ifs <;> simp [*]

namespace PushIdGenerator

/-- A generator that last produced an id at a time with random digits. -/
def fromState (lastTime : ℕ) (lastRandom : List ℕ) (rng : BitVec 64) (h : lastRandom.length = 12) :
    PushIdGenerator := ⟨lastTime, lastRandom, rng, h⟩

/-- A generator whose random digits come from a seed. -/
def new (seed : BitVec 64) : PushIdGenerator := fromState 0 (List.replicate 12 0) seed rfl

/-- The digits of the id that was produced last. -/
def digits (g : PushIdGenerator) : List ℕ := stamp 8 g.lastTime ++ g.lastRandom

/-- The id that was produced last; restored digits may lie outside the alphabet. -/
def current (g : PushIdGenerator) : Option Str := letters g.digits

/-- New random digits for a time. -/
def freshRandom (g : PushIdGenerator) (time : ℕ) : PushIdGenerator :=
  ⟨time, (drawRandom 12 g.rng).1, (drawRandom 12 g.rng).2, length_drawRandom g.rng⟩

/-- The generator after the next id. -/
def advance (g : PushIdGenerator) (now : ℕ) : PushIdGenerator :=
  if g.lastTime < now then g.freshRandom now
  else if (incrementRandom g.lastRandom).1 then
    ⟨g.lastTime, (incrementRandom g.lastRandom).2, g.rng, length_incrementRandom.trans g.length_lastRandom⟩
  else g.freshRandom (g.lastTime + 1)

/-- The next id at a time. -/
def next (g : PushIdGenerator) (now : ℕ) : Option Str × PushIdGenerator :=
  ((g.advance now).current, g.advance now)

/-- The ids returned at the readings of a clock, each with the time it spells. -/
def run (g : PushIdGenerator) : List ℕ → List (ℕ × Str)
  | [] => []
  | now :: nows =>
      let (id, g) := g.next now
      id.toList.map (fun id => (g.lastTime, id)) ++ g.run nows

end PushIdGenerator

/-! ### The order of digits -/

section

variable {α : Type} [LinearOrder α]

theorem append_lt_append {a b : List α} (h : a < b) (hl : a.length = b.length) {x y : List α} :
    a ++ x < b ++ y := by
  induction a generalizing b with
  | nil =>
    rw [length_eq_zero_iff.1 hl.symm] at h
    exact absurd h (lt_irrefl _)
  | cons i a ih =>
    cases b with
    | nil => cases hl
    | cons =>
      rw [cons_append, cons_append, cons_lt_cons_iff]
      rcases cons_lt_cons_iff.1 h with hij | ⟨hij, hlt⟩
      · exact .inl hij
      · exact .inr ⟨hij, ih hlt (Nat.succ_injective hl)⟩

end

theorem stamp_lt_stamp {time time' : ℕ} (h : time < time') (hlt : time' < 64 ^ n) :
    stamp n time < stamp n time' := by
  induction n generalizing time time' with
  | zero => omega
  | succ n ih =>
    have hl : (stamp n (time / 64)).length = (stamp n (time' / 64)).length := by
      rw [length_stamp, length_stamp]
    rw [stamp, stamp]
    rcases (Nat.div_le_div_right h.le : time / 64 ≤ time' / 64).lt_or_eq with hdiv | hdiv
    · exact append_lt_append (ih hdiv (Nat.div_lt_of_lt_mul (pow_succ' 64 n ▸ hlt))) hl
    · rw [hdiv]
      refine List.Lex.append_left _ (cons_lt_cons_iff.2 (.inl ?_)) _
      omega

/-- Digits that can be incremented are greater afterwards. -/
theorem lt_incrementRandom {digits : List ℕ} (hd : ∀ d ∈ digits, d < 64)
    (h : (incrementRandom digits).1 = true) : digits < (incrementRandom digits).2 := by
  induction digits with
  | nil => cases h
  | cons slot rest ih =>
    obtain ⟨hslot, hrest⟩ := forall_mem_cons.1 hd
    rw [incrementRandom] at h ⊢
    split at h
    · rename_i rest' heq
      rw [heq] at ih
      exact cons_lt_cons_iff.2 (.inr ⟨rfl, ih hrest rfl⟩)
    · split_ifs at h ⊢
      exact cons_lt_cons_iff.2 (.inl (by omega))

theorem incrementRandom_lt {digits : List ℕ} (hd : ∀ d ∈ digits, d < 64) :
    ∀ d ∈ (incrementRandom digits).2, d < 64 := by
  induction digits with
  | nil => nofun
  | cons slot rest ih =>
    obtain ⟨hslot, hrest⟩ := forall_mem_cons.1 hd
    have ih := ih hrest
    rw [incrementRandom]
    split
    · rename_i rest' heq
      rw [heq] at ih
      exact forall_mem_cons.2 ⟨hslot, ih⟩
    · rename_i rest' heq
      rw [heq] at ih
      split_ifs
      · exact forall_mem_cons.2 ⟨by omega, ih⟩
      · exact forall_mem_cons.2 ⟨by omega, ih⟩

theorem drawRandom_lt (rng : BitVec 64) : ∀ d ∈ (drawRandom n rng).1, d < 64 := by
  induction n generalizing rng with
  | zero => nofun
  | succ n ih =>
    refine forall_mem_cons.2 ⟨?_, ih _⟩
    rw [BitVec.toNat_ushiftRight, Nat.shiftRight_eq_div_pow]
    have := (SplitMix64.mix (rng + SplitMix64.gamma)).isLt
    omega

/-- The alphabet is in ascending order. -/
theorem pushChars_lt {j : ℕ} {c d : Char} (h : i < j) (hi : pushChars[i]? = some c)
    (hj : pushChars[j]? = some d) : c < d := by
  have hs : pushChars.Pairwise (· < ·) := by decide
  obtain ⟨hi', rfl⟩ := List.getElem?_eq_some_iff.1 hi
  obtain ⟨hj', rfl⟩ := List.getElem?_eq_some_iff.1 hj
  exact pairwise_iff_getElem.1 hs i j hi' hj' h

variable {a : List ℕ} {x : Str}

theorem letters_cons_eq_some :
    letters (i :: a) = some x ↔ ∃ c y, pushChars[i]? = some c ∧ letters a = some y ∧ x = c :: y := by
  simp [letters, mapM_cons, Option.bind_eq_some_iff, eq_comm (b := x)]

/-- Ids compare as their digits. -/
theorem letters_lt {b : List ℕ} {y : Str} (h : a < b) (ha : letters a = some x) (hb : letters b = some y) :
    x < y := by
  induction a generalizing b x y with
  | nil =>
    cases b with
    | nil => exact absurd h (lt_irrefl _)
    | cons =>
      obtain ⟨d, y, -, -, rfl⟩ := letters_cons_eq_some.1 hb
      cases ha
      exact nil_lt_cons d y
  | cons i a ih =>
    cases b with
    | nil => exact absurd h (not_lt_nil _)
    | cons =>
      obtain ⟨c, x, hc, hx, rfl⟩ := letters_cons_eq_some.1 ha
      obtain ⟨d, y, hd, hy, rfl⟩ := letters_cons_eq_some.1 hb
      rw [cons_lt_cons_iff]
      rcases cons_lt_cons_iff.1 h with hij | ⟨rfl, hlt⟩
      · exact .inl (pushChars_lt hij hc hd)
      · rw [hc, Option.some.injEq] at hd
        exact .inr ⟨hd, ih hlt hx hy⟩

theorem of_letters (h : letters a = some x) :
    x.length = a.length ∧ (∀ c ∈ x, c ∈ pushChars) ∧ ∀ d ∈ a, d < 64 := by
  induction a generalizing x with
  | nil =>
    cases h
    exact ⟨rfl, nofun, nofun⟩
  | cons i a ih =>
    obtain ⟨c, x, hc, hx, rfl⟩ := letters_cons_eq_some.1 h
    obtain ⟨hl, hchars, hd⟩ := ih hx
    obtain ⟨hi, -⟩ := List.getElem?_eq_some_iff.1 hc
    exact ⟨congrArg Nat.succ hl, forall_mem_cons.2 ⟨mem_of_getElem? hc, hchars⟩, forall_mem_cons.2 ⟨hi, hd⟩⟩

namespace PushIdGenerator

variable {g : PushIdGenerator}

/-- The random digits of a generator lie in the alphabet. -/
def Valid (g : PushIdGenerator) : Prop := ∀ d ∈ g.lastRandom, d < 64

theorem Valid.advance (h : g.Valid) (now : ℕ) : (g.advance now).Valid := by
  unfold PushIdGenerator.advance
  split_ifs
  · exact drawRandom_lt g.rng
  · exact incrementRandom_lt h
  · exact drawRandom_lt g.rng

theorem lastTime_le (g : PushIdGenerator) (now : ℕ) : g.lastTime ≤ (g.advance now).lastTime := by
  unfold PushIdGenerator.advance
  split_ifs with hnow
  · exact hnow.le
  · exact le_rfl
  · exact Nat.le_succ _

/-- Every step makes the digits greater. -/
theorem Valid.digits_lt (h : g.Valid) {now : ℕ} (htime : (g.advance now).lastTime < 2 ^ 48) :
    g.digits < (g.advance now).digits := by
  have hf : ∀ time, g.lastTime < time → time < 2 ^ 48 → g.digits < (g.freshRandom time).digits :=
    fun time hlt htime => append_lt_append (stamp_lt_stamp hlt htime)
      (by rw [length_stamp, length_stamp])
  unfold PushIdGenerator.advance at htime ⊢
  split_ifs at htime ⊢ with hnow hi
  · exact hf now hnow htime
  · exact List.Lex.append_left _ (lt_incrementRandom h hi) _
  · exact hf _ (Nat.lt_succ_self _) htime

/-- What a run returns, its generator produced with greater digits than those it started from. -/
theorem Valid.of_mem_run (h : g.Valid) {nows : List ℕ} {e : ℕ × Str} (he : e ∈ g.run nows)
    (htime : e.1 < 2 ^ 48) :
    g.lastTime ≤ e.1 ∧ ∃ g' : PushIdGenerator, g'.current = some e.2 ∧ g.digits < g'.digits := by
  induction nows generalizing g with
  | nil => cases he
  | cons now nows ih =>
    have hle := g.lastTime_le now
    rcases mem_append.1 he with he | he
    · obtain ⟨id, hid, rfl⟩ := mem_map.1 he
      exact ⟨hle, g.advance now, Option.mem_toList.1 hid, h.digits_lt htime⟩
    · obtain ⟨hle', g', hc, hlt⟩ := ih (h.advance now) he
      exact ⟨hle.trans hle', g', hc, (h.digits_lt (hle'.trans_lt htime)).trans hlt⟩

/-- Every id consists of 20 letters of the alphabet, and is greater than those returned before. -/
theorem push_ids_increase (g : PushIdGenerator) (nows : List ℕ) (htimes : ∀ e ∈ g.run nows, e.1 < 2 ^ 48) :
    (∀ e ∈ g.run nows, e.2.length = 20 ∧ ∀ c ∈ e.2, c ∈ pushChars) ∧
    (g.run nows).Pairwise fun e e' => e.2 < e'.2 := by
  induction nows generalizing g with
  | nil => exact ⟨nofun, .nil⟩
  | cons now nows ih =>
    obtain ⟨hletters, hincrease⟩ := ih (g.advance now) fun e he =>
      htimes e (mem_append_right _ he)
    rw [run, next]
    cases hcurrent : (g.advance now).current with
    | none => exact ⟨hletters, hincrease⟩
    | some =>
      obtain ⟨hlength, hchars, hdigits⟩ := of_letters hcurrent
      have hvalid : (g.advance now).Valid := fun d hd => hdigits d (mem_append_right _ hd)
      rw [digits, length_append, length_stamp, length_lastRandom] at hlength
      refine ⟨forall_mem_cons.2 ⟨⟨hlength, hchars⟩, hletters⟩, pairwise_cons.2 ⟨fun e he => ?_, hincrease⟩⟩
      obtain ⟨-, g', hcurrent', hlt⟩ := hvalid.of_mem_run he (htimes e (mem_append_right _ he))
      exact letters_lt hlt hcurrent hcurrent'

/-- Two ids in one millisecond, and one after the clock went back. -/
theorem push_ids_increase_of_seed :
    ((new 7).run [5, 5, 3]).length = 3 ∧ ((new 7).run [5, 5, 3]).Pairwise fun e e' => e.2 < e'.2 :=
  ⟨by decide +kernel, (push_ids_increase (new 7) [5, 5, 3] (by decide +kernel)).2⟩

/-- What a run returns, a generator produced at the time that is spelled. -/
theorem exists_of_mem_run {nows : List ℕ} {e : ℕ × Str} (he : e ∈ g.run nows) :
    ∃ g' : PushIdGenerator, g'.current = some e.2 ∧ g'.lastTime = e.1 := by
  induction nows generalizing g with
  | nil => cases he
  | cons now nows ih =>
    rcases mem_append.1 he with he | he
    · obtain ⟨id, hid, rfl⟩ := mem_map.1 he
      exact ⟨g.advance now, Option.mem_toList.1 hid, rfl⟩
    · exact ih he

/-- Ids of two generators, with any seeds and clocks, sort by the times they spell. -/
theorem push_ids_sort_by_time (g g' : PushIdGenerator) {nows nows' : List ℕ} {e e' : ℕ × Str}
    (he : e ∈ g.run nows) (he' : e' ∈ g'.run nows') (hlt : e.1 < e'.1) (htime : e'.1 < 2 ^ 48) : e.2 < e'.2 := by
  obtain ⟨h, hc, ht⟩ := exists_of_mem_run he
  obtain ⟨h', hc', ht'⟩ := exists_of_mem_run he'
  rw [← ht, ← ht'] at hlt
  refine letters_lt (append_lt_append (stamp_lt_stamp hlt (ht' ▸ htime)) ?_) hc hc'
  rw [length_stamp, length_stamp]

theorem push_ids_sort_by_time_of_seeds : ∃ e ∈ (new 7).run [5], ∃ e' ∈ (new 8).run [6], e.2 < e'.2 := by
  obtain ⟨e, he, htime⟩ : ∃ e ∈ (new 7).run [5], e.1 = 5 := by decide +kernel
  obtain ⟨e', he', htime'⟩ : ∃ e' ∈ (new 8).run [6], e'.1 = 6 := by decide +kernel
  exact ⟨e, he, e', he', push_ids_sort_by_time (new 7) (new 8) he he' (by omega) (by omega)⟩

end PushIdGenerator

end Fireemu.Database
