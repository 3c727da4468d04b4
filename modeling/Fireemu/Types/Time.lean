import Mathlib.Tactic

/-!
# Logical time

A `LogicalInstant` is nanoseconds since the Unix epoch and a `LogicalDuration` a signed number of
nanoseconds.  Both are integers here; the 128-bit range of the source's representation appears
where its arithmetic is checked or saturates.
-/

namespace Fireemu

/-- A signed duration in nanoseconds. -/
abbrev LogicalDuration := ℤ

/-- A point in logical time: nanoseconds since the Unix epoch. -/
abbrev LogicalInstant := ℤ

/-- Bounds of the 128-bit representation. -/
def i128Max : ℤ := 2 ^ 127 - 1

@[inherit_doc i128Max]
def i128Min : ℤ := -2 ^ 127

namespace LogicalDuration

/-- A duration from seconds. -/
def fromSeconds (seconds : ℤ) : LogicalDuration := seconds * 1000000000

end LogicalDuration

namespace LogicalInstant

/-- Largest representable instant. -/
def max : LogicalInstant := i128Max

/-- Checked addition of a duration. -/
def checkedAdd (t : LogicalInstant) (d : LogicalDuration) : Option LogicalInstant :=
  if i128Min ≤ t + d ∧ t + d ≤ i128Max then some (t + d) else none

/-- The duration since an earlier instant, if it is representable. -/
def checkedDurationSince (t earlier : LogicalInstant) : Option LogicalDuration :=
  if i128Min ≤ t - earlier ∧ t - earlier ≤ i128Max then some (t - earlier) else none

/-- Subtraction that stops at the smallest and largest representable instant. -/
def saturatingSub (t : LogicalInstant) (d : LogicalDuration) : LogicalInstant :=
  Max.max i128Min (Min.min i128Max (t - d))

end LogicalInstant

end Fireemu
