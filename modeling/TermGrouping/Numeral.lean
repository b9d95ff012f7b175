import TermGrouping.Text.DecimalDigit

/-! Numerals. A numeral is a number as a formula writes it: digits with an optional decimal part,
or two runs of digits with a slash between them, which write one rational number.
-/

namespace TermGrouping

/-- A number as it is written, digit for digit. -/
inductive Numeral where
  /-- Digits, and the digits after the point; no point is written where there are none. -/
  | decimal (whole places : List Char)
  /-- The digits on either side of a slash. -/
  | fraction (numerator denominator : List Char)
  deriving DecidableEq

namespace Numeral

def spelling : Numeral → List Char
  | decimal whole [] => whole
  | decimal whole places => whole ++ '.' :: places
  | fraction numerator denominator => numerator ++ '/' :: denominator

def isFraction : Numeral → Bool
  | decimal _ _ => false
  | fraction _ _ => true

/-- The number above the fraction line once a decimal part is scaled away. -/
def numerator : Numeral → Nat
  | decimal whole places => Text.naturalOf (whole ++ places)
  | fraction numerator _ => Text.naturalOf numerator

/-- The number below the fraction line, a power of ten for decimals. -/
def denominator : Numeral → Nat
  | decimal _ places => Nat.pow 10 places.length
  | fraction _ denominator => Text.naturalOf denominator

/-- The rational number that a numeral writes; it is meant for denominators other than zero. -/
def value (numeral : Numeral) : Rat := mkRat numeral.numerator numeral.denominator

/-- Only a numeral with a slash can have the denominator zero. -/
theorem isFraction_of_denominator_eq_zero {numeral : Numeral} (h : numeral.denominator = 0)
    : numeral.isFraction = true := by
  cases numeral with
  | decimal whole places => simp [denominator] at h
  | fraction numerator denominator => rfl

end Numeral

end TermGrouping
