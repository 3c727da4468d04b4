import Fireemu.Library.Mixing
import Fireemu.Types.Ids

/-!
# Deterministic identifiers

Identifiers are derived from a seed or a counter, so that a run reproduces: ack ids are drawn from
`SplitMix64`, and message ids are a fixed permutation of the broker's counter.
-/

namespace Fireemu

open BitVec

/-! ### SplitMix64 -/

/-- A SplitMix64 generator. -/
structure SplitMix64 where
  state : BitVec 64
  deriving DecidableEq

namespace SplitMix64

def gamma : BitVec 64 := 0x9E3779B97F4A7C15#64

/-- The output function. -/
def mix (z : BitVec 64) : BitVec 64 :=
  let z := Library.xorShift 30 z * 0xBF58476D1CE4E5B9#64
  let z := Library.xorShift 27 z * 0x94D049BB133111EB#64
  Library.xorShift 31 z

/-- Draws a word. -/
def nextU64 (g : SplitMix64) : BitVec 64 × SplitMix64 :=
  let state := g.state + gamma
  (mix state, ⟨state⟩)

/-- The generator after a number of draws. -/
def advance (g : SplitMix64) (n : ℕ) : SplitMix64 := ⟨g.state + BitVec.ofNat 64 n * gamma⟩

theorem mix_injective : Function.Injective mix := by
  have h₁ : 0xBF58476D1CE4E5B9#64 * 0x96DE1B173F119089#64 = 1#64 := by decide
  have h₂ : 0x94D049BB133111EB#64 * 0x319642B2D24D8EC3#64 = 1#64 := by decide
  intro x y h
  exact Library.xorShift_injective (by decide) (Library.mul_injective h₁
    (Library.xorShift_injective (by decide) (Library.mul_injective h₂
      (Library.xorShift_injective (by decide) h))))

variable {g : SplitMix64} {m n : ℕ}

theorem advance_zero : g.advance 0 = g := by
  simp [advance]

theorem advance_advance : (g.advance m).advance n = g.advance (m + n) := by
  simp only [advance, ofNat_add, add_mul, BitVec.add_assoc]

/-- The word a number of draws ahead. -/
def word (g : SplitMix64) (n : ℕ) : BitVec 64 := mix (g.advance (n + 1)).state

theorem word_advance : (g.advance m).word n = g.word (m + n) := by
  rw [word, advance_advance, word, Nat.add_assoc]

/-- A generator draws no word twice within its period. -/
theorem word_injective (g : SplitMix64) (hm : m < 2 ^ 64) (hn : n < 2 ^ 64) (h : g.word m = g.word n) :
    m = n := by
  have hi : gamma * 0xF1DE83E19937733D#64 = 1#64 := by decide
  have hstate := mix_injective h
  simp only [advance, ofNat_add, add_mul] at hstate
  have hs : g.state + BitVec.ofNat 64 m * gamma = g.state + BitVec.ofNat 64 n * gamma := by
    rw [← BitVec.add_assoc, ← BitVec.add_assoc] at hstate
    exact (BitVec.add_left_inj _).1 hstate
  exact Library.counter_injective hi hm hn hs

end SplitMix64

/-! ### Ack ids -/

/-- A hexadecimal digit. -/
def hexDigit (n : ℕ) : Char :=
  if n < 10 then Char.ofNat (48 + n) else Char.ofNat (87 + n)

/-- Sixteen lower-case hexadecimal digits. -/
def hex16 (x : BitVec 64) : Str :=
  (List.range 16).map fun i => hexDigit (x.toNat / 16 ^ (15 - i) % 16)

/-- The ack id made of a word. -/
def ackIdOf (x : BitVec 64) : Str := "ack-".toList ++ hex16 x

theorem hexDigit_injective {m n : ℕ} (hm : m < 16) (hn : n < 16) (h : hexDigit m = hexDigit n) : m = n := by
  revert h
  interval_cases m <;> interval_cases n <;> decide

/-- A number is determined by its digits. -/
theorem eq_of_hexDigits {n : ℕ} : ∀ {a b : ℕ}, a < 16 ^ n → b < 16 ^ n →
    (∀ k < n, a / 16 ^ k % 16 = b / 16 ^ k % 16) → a = b := by
  induction n with
  | zero =>
    intro a b ha hb _
    omega
  | succ n ih =>
    intro a b ha hb hd
    have hlow := hd 0 n.succ_pos
    have hhigh : a / 16 = b / 16 := by
      rw [pow_succ] at ha hb
      refine ih (by omega) (by omega) fun k hk => ?_
      have := hd (k + 1) (Nat.succ_lt_succ hk)
      rwa [pow_succ', ← Nat.div_div_eq_div_mul, ← Nat.div_div_eq_div_mul] at this
    rw [pow_zero, Nat.div_one, Nat.div_one] at hlow
    omega

theorem hex16_injective : Function.Injective hex16 := by
  intro x y h
  refine eq_of_toNat_eq (eq_of_hexDigits (n := 16) x.isLt y.isLt fun k hk => ?_)
  have hd := List.map_inj_left.1 h (15 - k) (List.mem_range.2 (by omega))
  have := hexDigit_injective (Nat.mod_lt _ (by decide)) (Nat.mod_lt _ (by decide)) hd
  rwa [show 15 - (15 - k) = k by omega] at this

theorem ackIdOf_injective : Function.Injective ackIdOf := fun _ _ h =>
  hex16_injective (List.append_cancel_left h)

/-! ### Message ids -/

namespace MessageId

def first : ℕ := 22250000000000000
def span : ℕ := 10000000000000
def step : ℕ := 6180339887499
/-- The counters the broker draws end here. -/
def brokerSpan : ℕ := span / 2

end MessageId

/-- The decimal digits of a number. -/
def decimal (n : ℕ) : Str := (toString n).toList

/-- The id of the message with a number in the broker's state. -/
def pubsubMessageId (counter : ℕ) : Str :=
  decimal (MessageId.first + counter * MessageId.step % MessageId.span)

end Fireemu
