import Mathlib.Tactic

/-!
# Bit mixing

The two steps mixing functions are made of are injective: a word xored with its own right shift, and
a word multiplied by a constant that has an inverse.  So is a counter that advances by such a
constant, for as many steps as there are words.
-/

namespace Fireemu.Library

open BitVec

variable {w : ℕ}

/-- A word xored with its own right shift. -/
def xorShift (k : ℕ) (x : BitVec w) : BitVec w := x ^^^ (x >>> k)

/-- From the top bit down, each bit of the word can be read off its mixture. -/
theorem xorShift_injective {k : ℕ} (hk : 0 < k) : Function.Injective (xorShift k : BitVec w → BitVec w) := by
  intro x y hxy
  have hbit : ∀ i, (x.getLsbD i ^^ x.getLsbD (k + i)) = (y.getLsbD i ^^ y.getLsbD (k + i)) := by
    intro i
    have := congrArg (fun z => BitVec.getLsbD z i) hxy
    simpa [xorShift] using this
  have hall : ∀ n i, w ≤ i + n → x.getLsbD i = y.getLsbD i := by
    intro n
    induction n with
    | zero =>
      intro i hi
      rw [getLsbD_of_ge x i hi, getLsbD_of_ge y i hi]
    | succ n ih =>
      intro i hi
      have htop := ih (k + i) (by omega)
      have := hbit i
      rw [htop] at this
      exact Bool.xor_right_inj.1 ((Bool.xor_comm _ _).trans (this.trans (Bool.xor_comm _ _)))
  exact eq_of_getLsbD_eq fun i _ => hall w i (Nat.le_add_left _ _)

/-- Multiplication by a word that has an inverse. -/
theorem mul_injective {c d : BitVec w} (h : c * d = 1#w) : Function.Injective fun x : BitVec w => x * c := by
  intro x y hxy
  have := congrArg (· * d) hxy
  simpa [BitVec.mul_assoc, h] using this

/-- A counter that advances by a word with an inverse takes every value at most once. -/
theorem counter_injective {c d s : BitVec w} (h : c * d = 1#w) {m n : ℕ} (hm : m < 2 ^ w)
    (hn : n < 2 ^ w) (heq : s + BitVec.ofNat w m * c = s + BitVec.ofNat w n * c) : m = n := by
  have hmul : BitVec.ofNat w m = BitVec.ofNat w n :=
    mul_injective h ((BitVec.add_right_inj s).1 heq)
  have := congrArg BitVec.toNat hmul
  rwa [toNat_ofNat, toNat_ofNat, Nat.mod_eq_of_lt hm, Nat.mod_eq_of_lt hn] at this

end Fireemu.Library
