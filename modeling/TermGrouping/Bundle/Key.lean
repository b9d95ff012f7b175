import TermGrouping.Expr.Coefficient
import TermGrouping.Expr.Shape

/-! Keys of operands. Operands of a sum or a product belong together if their keys are alike:
terms that differ in their coefficients, factors that differ in their exponents, and constants.
-/

namespace TermGrouping

/-- The kinds of keys. -/
inductive KeyKind where
  | symbol
  | power
  | constant
  | fraction
  | coefficient
  | base
  | other
  deriving DecidableEq

def KeyKind.name : KeyKind → String
  | symbol => "symbol"
  | power => "power"
  | constant => "constant"
  | fraction => "fraction"
  | coefficient => "coefficient"
  | base => "base"
  | other => "other"

/-- What an operand has in common with the operands it is bundled with. -/
inductive Key where
  /-- Multiples of a symbol. -/
  | symbol (name : String)
  /-- Multiples of a power of a symbol. -/
  | power (name : String) (exponent : Expr)
  /-- Constants of a sum that are not written as fractions. -/
  | constant
  /-- Constants of a sum that are written as fractions. -/
  | fraction
  /-- Constants of a product. -/
  | coefficient
  /-- A symbol and its powers, as factors of a product. -/
  | base (name : String)
  /-- All else goes together only with what is alike. -/
  | other (operand : Expr)
  deriving DecidableEq

namespace Key

def kind : Key → KeyKind
  | symbol _ => .symbol
  | power _ _ => .power
  | constant => .constant
  | fraction => .fraction
  | coefficient => .coefficient
  | base _ => .base
  | other _ => .other

def tree? : Key → Option Expr
  | power _ exponent => some exponent
  | other operand => some operand
  | _ => none

/-- A key with its tree reduced to its shape. -/
def shape : Key → Key
  | power name exponent => power name exponent.shape
  | other operand => other operand.shape
  | key => key

/-- Keys that differ at most in the written forms of their trees. -/
def Alike (a b : Key) : Prop := a.shape = b.shape

instance (a b : Key) : Decidable (Alike a b) :=
  inferInstanceAs (Decidable (a.shape = b.shape))

/-- Alike keys are of one kind, because the shape of a key keeps its kind. -/
theorem Alike.kind_eq {a b : Key} (h : Alike a b) : a.kind = b.kind := by
  have hs (key : Key) : key.shape.kind = key.kind := by cases key <;> rfl
  rw [← hs a, ← hs b, show a.shape = b.shape from h]

/-- The keys of a list without those that are alike to an earlier one. -/
def firstOccurrences : List Key → List Key
  | [] => []
  | key :: rest => key :: (firstOccurrences rest).filter fun other => ¬ Alike key other

end Key

/-- The key of a term without its coefficient, and none for a term that is neither a symbol nor
a power of one. -/
def termKey? : Expr → Option Key
  | .symbol name => some (.symbol name)
  | .power (.symbol name) exponent => some (.power name exponent)
  | _ => none

def summandKey (operand : Expr) : Key :=
  match operand with
  | .constant literal => if literal.isFraction then .fraction else .constant
  | e => (termKey? e.asMultiple.2).getD (.other e)

/-- The key of a factor of a product; exponents make no difference. -/
def factorKey (operand : Expr) : Key :=
  match operand with
  | .constant _ => .coefficient
  | .symbol name => .base name
  | .power (.symbol name) _ => .base name
  | e => .other e

def Operator.key : Operator → Expr → Key
  | sum => summandKey
  | product => factorKey

end TermGrouping
