import TermGrouping.Expr.Subtrees

/-! Coefficients. A product that starts with a constant has that constant as its coefficient;
negating a term changes the sign of its coefficient, or gives it the coefficient minus one.
-/

namespace TermGrouping.Expr

/-- The tree of opposite value. A constant and the coefficient of a product change their signs;
another product gets the factor minus one, and all else is multiplied by minus one. -/
def opposite : Expr → Expr
  | constant literal => constant literal.opposite
  | product (constant coefficient :: rest) implicit =>
      product (constant coefficient.opposite :: rest) implicit
  | product factors implicit => product (constant .minusOne :: factors) implicit
  | e => product [constant .minusOne, e] true

/-- What remains of a product without its coefficient: the only other factor, or the product of
the others. -/
def withoutCoefficient (implicit : Bool) : List Expr → Expr
  | [factor] => factor
  | factors => product factors implicit

/-- A tree as a coefficient and the rest, where only a product that starts with a constant has a
coefficient. -/
def asMultiple : Expr → Option Literal × Expr
  | product (constant coefficient :: rest) implicit =>
      (some coefficient, withoutCoefficient implicit rest)
  | e => (none, e)

/-- Whether a tree is a product without factors, whose first factor nobody can ask for. -/
def isEmptyProduct : Expr → Bool
  | product [] _ => true
  | _ => false

/-- Splitting a tree that is no product gives back the tree. -/
theorem asMultiple_of_not_product {e : Expr}
    (h : ∀ factors implicit, e ≠ product factors implicit)
    : e.asMultiple = (none, e) := by
  unfold asMultiple
  split
  · exact absurd rfl (h _ _)
  · rfl

end TermGrouping.Expr
