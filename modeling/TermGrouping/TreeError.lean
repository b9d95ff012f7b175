import TermGrouping.Operator
import TermGrouping.Value

/-! What can be wrong with a tree. Each cause is a constructor, and the wording of all causes
stands in one function.
-/

namespace TermGrouping

/-- A reason why an operation refuses a tree. -/
inductive TreeError where
  /-- A plain value stands where an expression belongs. -/
  | notExpression (value : Value)
  /-- An operator has fewer than two operands. -/
  | tooFewOperands (operator : Operator) (count : Nat)
  /-- A product whose first factor is needed has no factors. -/
  | noFirstFactor
  /-- A product to be written without signs has no factors. -/
  | nothingToJuxtapose
  /-- The operands are asked for of a node that is no sum and no product. -/
  | noOperands (kindName : String)
  /-- A node is to be rebuilt from more or fewer children than it has places. -/
  | childCount (expected count : Nat)
  /-- Operands are to be compared under an operator that does not exist. -/
  | unknownContext (name : String)
  /-- A list stands in a part of a tree that identifies a group. -/
  | listInKey
  /-- A constant is to be built with the denominator zero. -/
  | zeroDenominator (numerator : Int)
  deriving DecidableEq

namespace TreeError

def message : TreeError → String
  | notExpression value => "not an expression node: " ++ value.display
  | tooFewOperands operator count =>
      operator.kindName ++ " needs at least 2 operands, got " ++ toString count
  | noFirstFactor => "tuple index out of range"
  | nothingToJuxtapose => "not enough values to unpack (expected at least 1, got 0)"
  | noOperands kindName => "'" ++ kindName ++ "' object has no attribute 'operands'"
  | childCount expected count =>
      if count < expected then
        "not enough values to unpack (expected " ++ toString expected ++ ", got "
          ++ toString count ++ ")"
      else "too many values to unpack (expected " ++ toString expected ++ ")"
  | unknownContext name => "unknown context: " ++ name
  | listInKey => "unhashable type: 'list'"
  | zeroDenominator numerator => "Fraction(" ++ toString numerator ++ ", 0)"

end TreeError

end TermGrouping
