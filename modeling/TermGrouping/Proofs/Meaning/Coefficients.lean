import TermGrouping.Expr.Coefficient
import TermGrouping.Proofs.Meaning.Flattening

/-! The meaning of a term is the product of its coefficient and the rest of it, and the opposite of
the term has the opposite meaning.
-/

namespace TermGrouping.Expr

variable (I : Interpretation)

/-- The coefficient of a term, which is one if the term has none. -/
def coefficient (e : Expr) : Rat := (e.asMultiple.1.map Literal.value).getD 1

/-- What remains without the coefficient means the product of the remaining factors, also where only
one is left. -/
@[simp]
theorem meaning_withoutCoefficient (implicit : Bool) (factors : List Expr)
    : (withoutCoefficient implicit factors).meaning I = (factors.map (meaning I)).prod := by
  unfold withoutCoefficient
  split
  · simp
  · exact meaning_product I _ implicit

/-- A term means the product of its coefficient and its rest. -/
theorem meaning_asMultiple (e : Expr)
    : e.meaning I = e.coefficient * e.asMultiple.2.meaning I := by
  unfold coefficient asMultiple
  split
  · rw [meaning_product, List.map_cons, List.prod_cons, meaning_withoutCoefficient]
    rfl
  · exact (one_mul _).symm

/-- Changing the sign of a term changes that of its meaning. -/
theorem meaning_opposite (e : Expr) : e.opposite.meaning I = -e.meaning I := by
  unfold opposite
  split <;> simp [meaning, meanings, Literal.opposite, Literal.minusOne]

end TermGrouping.Expr
