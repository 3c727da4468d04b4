import Fireemu.Library.Comparator

/-!
# IEEE 754 binary64

A double is its sign, exponent and fraction fields.  Every finite double is an integer multiple of
the least positive one, `2 ^ (-1074)`; `scaled` is that integer, and infinity falls in place as the
next power of two after the largest finite magnitude, so comparing doubles that are not NaN is
comparing integers.  Arithmetic is exact arithmetic on these integers followed by `round`, to
nearest with ties to even.  All NaN results are the one quiet NaN.
-/

namespace Fireemu.Library

/-- A double, field by field. -/
structure Binary64 where
  sign : Bool
  exponent : Fin 2048
  fraction : Fin (2 ^ 52)
  deriving DecidableEq, Repr

namespace Binary64

/-- The double with given sign and given exponent and fraction bits. -/
def ofBits (sign : Bool) (bits : ℕ) : Binary64 :=
  ⟨sign, Fin.ofNat 2048 (bits / 2 ^ 52), Fin.ofNat (2 ^ 52) (bits % 2 ^ 52)⟩

/-- Zero of a given sign. -/
def zero (sign : Bool) : Binary64 := ofBits sign 0

/-- The quiet NaN. -/
def nan : Binary64 := ofBits false (2047 * 2 ^ 52 + 2 ^ 51)

def isNan (x : Binary64) : Bool := x.exponent.1 == 2047 && x.fraction.1 != 0

def isInfinite (x : Binary64) : Bool := x.exponent.1 == 2047 && x.fraction.1 == 0

def isFinite (x : Binary64) : Bool := x.exponent.1 != 2047

/-- The magnitude in units of the least positive double. -/
def magnitude (x : Binary64) : ℕ :=
  if x.exponent.1 = 0 then x.fraction.1 else (2 ^ 52 + x.fraction.1) * 2 ^ (x.exponent.1 - 1)

/-- The value in units of the least positive double. -/
def scaled (x : Binary64) : ℤ := if x.sign then -x.magnitude else x.magnitude

/-- The unit of `scaled` is one over this. -/
def one : ℕ := 2 ^ 1074

theorem one_pos : (0 : ℤ) < one := by
  rw [one]
  positivity

/-! ### Comparison -/

/-- Comparison; a NaN compares with nothing. -/
def partialCmp (x y : Binary64) : Option Ordering :=
  if x.isNan || y.isNan then none else some (linCmp x.scaled y.scaled)

def lt (x y : Binary64) : Bool := partialCmp x y == some .lt

def le (x y : Binary64) : Bool := partialCmp x y == some .lt || partialCmp x y == some .eq

def eq (x y : Binary64) : Bool := partialCmp x y == some .eq

/-! ### Arithmetic -/

/-- The quotient `n / d` rounded to the nearest natural number, ties to even. -/
def divRoundEven (n d : ℕ) : ℕ :=
  let q := n / d
  let r := n % d
  if 2 * r < d then q
  else if d < 2 * r then q + 1
  else if q % 2 = 0 then q else q + 1

/-- The double nearest to `n / d` units, overflowing to infinity.  The significand is taken in
units of `2 ^ shift`; a carry out of it runs into the exponent field as it should. -/
def round (sign : Bool) (n d : ℕ) : Binary64 :=
  let shift := Nat.log2 (n / d) - 52
  let significand := divRoundEven n (d * 2 ^ shift)
  ofBits sign (min (shift * 2 ^ 52 + significand) (2047 * 2 ^ 52))

/-- The double nearest to an integer. -/
def ofInt (i : ℤ) : Binary64 := round (i < 0) (i.natAbs * one) 1

def add (x y : Binary64) : Binary64 :=
  if x.isNan || y.isNan then nan
  else if x.isInfinite then if y.isInfinite && x.sign != y.sign then nan else x
  else if y.isInfinite then y
  else
    let s := x.scaled + y.scaled
    if s = 0 then zero (x.sign && y.sign) else round (s < 0) s.natAbs 1

/-- The integer part, towards zero. -/
def trunc (x : Binary64) : ℤ := x.scaled.tdiv one

/-! ### Comparisons as comparisons of integers -/

variable {a b : Binary64}

theorem lt_iff (ha : a.isNan = false) (hb : b.isNan = false) : a.lt b = true ↔ a.scaled < b.scaled := by
  simp [lt, partialCmp, ha, hb, linCmp_eq_lt]

theorem le_iff (ha : a.isNan = false) (hb : b.isNan = false) : a.le b = true ↔ a.scaled ≤ b.scaled := by
  simp [le, partialCmp, ha, hb, linCmp_eq_lt, le_iff_lt_or_eq]

variable {d : Binary64}

theorem lt_zero_iff (hd : d.isNan = false) : (zero false).lt d = true ↔ 0 < d.scaled :=
  lt_iff (by decide) hd

theorem scaled_two_pow_63 : (ofInt (2 ^ 63)).scaled = 2 ^ 63 * one := by
  decide +kernel

theorem scaled_neg_two_pow_63 : (ofInt (-2 ^ 63)).scaled = -2 ^ 63 * one := by
  decide +kernel

theorem lt_magnitude_infinite (h : d.isInfinite = true) : 2 ^ 63 * one < d.magnitude := by
  simp only [isInfinite, Bool.and_eq_true, beq_iff_eq] at h
  rw [magnitude, h.1, h.2]
  decide +kernel

/-! ### The numbers doubles stand for -/

/-- The number a double stands for, a dyadic rational or an infinity; NaN stands for none. -/
def number (x : Binary64) : Option (WithBot (WithTop ℚ)) :=
  if x.isNan then none
  else if x.isInfinite then some (if x.sign then ⊥ else ((⊤ : WithTop ℚ) : WithBot (WithTop ℚ)))
  else some (((x.scaled / one : ℚ) : WithTop ℚ) : WithBot (WithTop ℚ))

/-- The magnitude of infinity is this power of two. -/
def infiniteExponent : ℕ := 2098

@[inherit_doc infiniteExponent]
def infinite : ℤ := ((2 ^ infiniteExponent : ℕ) : ℤ)

/-- The number of given units, from the magnitude of infinity on an infinity. -/
def ofUnits (n : ℤ) : WithBot (WithTop ℚ) :=
  if infinite ≤ n then ((⊤ : WithTop ℚ) : WithBot (WithTop ℚ))
  else if n ≤ -infinite then ⊥
  else (((n / one : ℚ) : WithTop ℚ) : WithBot (WithTop ℚ))

theorem ofUnits_strictMonoOn : StrictMonoOn ofUnits (Set.Icc (-infinite) infinite) := by
  intro m hm n hn hmn
  have hone : (0 : ℚ) < one := by exact_mod_cast one_pos
  obtain ⟨hm, -⟩ := hm
  obtain ⟨-, hn⟩ := hn
  unfold ofUnits
  rw [if_neg (by omega : ¬ infinite ≤ m)]
  by_cases hlow : m ≤ -infinite
  · rw [if_pos hlow]
    split_ifs with htop hbot
    · exact WithBot.bot_lt_coe _
    · omega
    · exact WithBot.bot_lt_coe _
  · rw [if_neg hlow]
    split_ifs with htop hbot
    · exact WithBot.coe_lt_coe.2 (WithTop.coe_lt_top _)
    · omega
    · refine WithBot.coe_lt_coe.2 (WithTop.coe_lt_coe.2 ?_)
      exact div_lt_div_of_pos_right (by exact_mod_cast hmn) hone

theorem magnitude_lt (d : Binary64) : d.magnitude < 2 ^ (53 + (d.exponent.1 - 1)) := by
  have hfrac := d.fraction.2
  unfold magnitude
  split_ifs with hexp
  · rw [hexp]
    omega
  · rw [pow_add]
    exact Nat.mul_lt_mul_of_pos_right (by omega) (Nat.two_pow_pos _)

theorem magnitude_lt_infinite (h : d.isFinite = true) : (d.magnitude : ℤ) < infinite := by
  have hexp : d.exponent.1 ≠ 2047 := by simpa [isFinite] using h
  have hexp' := d.exponent.2
  have hpow : (2 : ℕ) ^ (53 + (d.exponent.1 - 1)) ≤ 2 ^ infiniteExponent :=
    Nat.pow_le_pow_right (by decide) (by rw [infiniteExponent]; omega)
  exact Int.ofNat_lt.2 (d.magnitude_lt.trans_le hpow)

theorem magnitude_infinite (h : d.isInfinite = true) : (d.magnitude : ℤ) = infinite := by
  simp only [isInfinite, Bool.and_eq_true, beq_iff_eq] at h
  refine congrArg Int.ofNat ?_
  rw [magnitude, h.1, h.2]
  decide +kernel

theorem isFinite_of_not (hnan : d.isNan = false) (hinf : d.isInfinite = false) : d.isFinite = true := by
  unfold isNan at hnan
  unfold isInfinite at hinf
  unfold isFinite
  cases hexp : d.exponent.1 == 2047 <;> cases hfrac : d.fraction.1 == 0 <;>
    simp_all

/-- What a double stands for is the number of its units. -/
theorem number_eq (hnan : d.isNan = false) :
    d.number = some (ofUnits d.scaled) ∧ d.scaled ∈ Set.Icc (-infinite) infinite := by
  have hpos : (0 : ℤ) < infinite := Int.ofNat_lt.2 (Nat.two_pow_pos _)
  unfold number
  rw [hnan, if_neg Bool.false_ne_true]
  cases hinf : d.isInfinite with
  | true =>
    have hmag := magnitude_infinite hinf
    rw [if_pos rfl, scaled, hmag, ofUnits]
    cases d.sign with
    | true =>
      rw [if_pos rfl, if_pos rfl, if_neg (by omega), if_pos le_rfl]
      exact ⟨rfl, le_rfl, by omega⟩
    | false =>
      rw [if_neg Bool.false_ne_true, if_neg Bool.false_ne_true, if_pos le_rfl]
      exact ⟨rfl, by omega, le_rfl⟩
  | false =>
    have hmag := magnitude_lt_infinite (isFinite_of_not hnan hinf)
    have hs : -infinite < d.scaled ∧ d.scaled < infinite := by
      unfold scaled
      split_ifs <;> omega
    rw [if_neg Bool.false_ne_true, ofUnits, if_neg (by omega), if_neg (by omega)]
    exact ⟨rfl, hs.1.le, hs.2.le⟩

end Binary64

end Fireemu.Library
