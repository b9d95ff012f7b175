import TermGrouping.Numeral

/-! Rational constants. A constant knows its value, whether it was written as a fraction, and how
it was written, if it was read from a text. Only the value takes part in comparisons.

An integer of any size has a spelling. The limit that can be set for the number of its digits is
not modelled.
-/

namespace TermGrouping

/-- A rational constant with the memory of its written form. -/
structure Literal where
  value : Rat
  isFraction : Bool
  text : Option String
  deriving DecidableEq

namespace Literal

/-- A constant that was not read from a text; it is a fraction if its value is no integer. -/
def ofRat (value : Rat) : Literal := ⟨value, value.den != 1, none⟩

def ofNumeral (numeral : Numeral) : Literal :=
  ⟨numeral.value, numeral.isFraction, some (String.ofList numeral.spelling)⟩

def one : Literal := ⟨1, false, none⟩

def two : Literal := ⟨2, false, none⟩

/-- The constant minus one, which is the coefficient of the opposite of a term. -/
def minusOne : Literal := ⟨-1, false, none⟩

/-- A text without its leading minus sign, or with one in front if it has none. -/
def toggleSign : List Char → List Char
  | '-' :: rest => rest
  | characters => '-' :: characters

/-- The constant of opposite value. A written form keeps its digits and changes its sign. -/
def opposite (literal : Literal) : Literal where
  value := -literal.value
  isFraction := literal.isFraction
  text := literal.text.map fun text => String.ofList (toggleSign text.toList)

/-- An integer in base ten, with a minus sign in front of a negative one. -/
def integerSpelling (n : Int) : List Char :=
  if n < 0 then '-' :: Nat.toDigits 10 n.natAbs else Nat.toDigits 10 n.natAbs

/-- A rational in lowest terms; the denominator one is not written. -/
def ratSpelling (q : Rat) : List Char :=
  if q.den = 1 then integerSpelling q.num
  else integerSpelling q.num ++ '/' :: Nat.toDigits 10 q.den

/-- A constant shows its own text if it has one, and its value otherwise. -/
def written (literal : Literal) : List Char :=
  match literal.text with
  | some text => text.toList
  | none => ratSpelling literal.value

end Literal

end TermGrouping
