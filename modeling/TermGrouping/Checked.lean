import TermGrouping.Bundle.Collecting
import TermGrouping.Expr.Flattening
import TermGrouping.Expr.Written

/-! Operations on trees built by hand. Each refuses the trees that it has no result for, with the
first cause it meets, and gives the result of the plain operation for all others. The depth of a
tree is no such cause, since no limit for the depth of recursion is modelled.
-/

namespace TermGrouping.Checked

/-- Refuses a tree with a plain value in it. -/
def allExpressions (e : Expr) : Except TreeError Unit :=
  match e.firstValue? with
  | some value => .error (.notExpression value)
  | none => .ok ()

def rootExpression (e : Expr) : Except TreeError Unit :=
  match e.value? with
  | some value => .error (.notExpression value)
  | none => .ok ()

/-- Refuses a product without factors. -/
def firstFactor (e : Expr) : Except TreeError Unit :=
  if e.isEmptyProduct then .error .noFirstFactor else .ok ()

/-- A constant built from a numerator and a denominator; unless it is said, the value decides
whether it counts as a fraction. -/
def constant (numerator : Int) (denominator : Nat) (isFraction : Option Bool)
    (text : Option String)
    : Except TreeError Expr :=
  if denominator = 0 then throw (.zeroDenominator numerator)
  else
    let literal := Literal.ofRat (mkRat numerator denominator)
    return .constant ⟨literal.value, isFraction.getD literal.isFraction, text⟩

def checked (e : Expr) : Except TreeError Expr := do
  e.check
  return e

def flatten (e : Expr) : Except TreeError Expr := do
  allExpressions e
  return e.flatten

def leaves (e : Expr) : Except TreeError (List Expr) := do
  allExpressions e
  return e.leaves

def children (e : Expr) : Except TreeError (List Expr) := do
  rootExpression e
  return e.children

/-- A node rebuilt from new children, of which there must be as many as it has places. -/
def rebuild (e : Expr) (kids : List Expr) : Except TreeError Expr := do
  rootExpression e
  match e.arity? with
  | some expected =>
      if kids.length = expected then return e.rebuild kids
      else throw (.childCount expected kids.length)
  | none => return e.rebuild kids

def opposite (e : Expr) : Except TreeError Expr := do
  firstFactor e
  return e.opposite

def asMultiple (e : Expr) : Except TreeError (Option Literal × Expr) := do
  firstFactor e
  return e.asMultiple

/-- The key of an operand under the operator with the given context name. Only sums look for a
coefficient. -/
def key (context : String) (operand : Expr) : Except TreeError Key :=
  match Operator.ofContextName? context with
  | none => throw (.unknownContext context)
  | some .sum => do
      firstFactor operand
      return Operator.sum.key operand
  | some .product => return Operator.product.key operand

/-- The bundles of a node in the order of an operator, the order of products for every name but
that of sums. -/
def orderedBundles (context : String) (e : Expr) : Except TreeError (List Bundle) := do
  let bundles ← e.bundles
  return Bundle.ordered ((Operator.ofContextName? context).getD .product) bundles

end TermGrouping.Checked
