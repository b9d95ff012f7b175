import Mathlib
import TermGrouping.Expr.Flattening
import TermGrouping.Interpretation

/-! Flattening keeps the meaning of a tree, whatever the interpretation. Brackets mean their
content, and the operands of an inner node add up or multiply to the inner node itself.
-/

namespace TermGrouping.Expr

variable (I : Interpretation)

/-- A sum means the sum of its operands. -/
theorem meaning_sum (operands : List Expr)
    : (sum operands).meaning I = (operands.map (meaning I)).sum := by
  rw [← meanings_eq_map]
  rfl

/-- A product means the product of its factors, juxtaposed or not. -/
theorem meaning_product (operands : List Expr) (implicit : Bool)
    : (product operands implicit).meaning I = (operands.map (meaning I)).prod := by
  rw [← meanings_eq_map]
  rfl

/-- Dropping brackets keeps the meaning, because a group means its content. -/
theorem meaning_dropBrackets (level : Int) (e : Expr)
    : (e.dropBrackets level).meaning I = e.meaning I := by
  unfold dropBrackets
  split
  · split <;> rfl
  · rfl

theorem meaning_bracketed (e : Expr) : e.bracketed.meaning I = e.meaning I := by
  unfold bracketed
  split <;> rfl

/-- The operands of a sum mean together what the sum means. -/
theorem sum_termsOf (e : Expr) : (e.termsOf.map (meaning I)).sum = e.meaning I := by
  unfold termsOf
  split
  · exact (meaning_sum I _).symm
  · simp

theorem prod_factorsOf (e : Expr) : (e.factorsOf.map (meaning I)).prod = e.meaning I := by
  unfold factorsOf
  split
  · exact (meaning_product I _ _).symm
  · simp

/-- What an operand contributes to a sum adds up to the operand. -/
theorem sum_summands (e : Expr) : (e.summands.map (meaning I)).sum = e.meaning I :=
  (sum_termsOf I _).trans (meaning_dropBrackets I _ e)

/-- What a factor contributes to a product multiplies to the factor. -/
theorem prod_factors (e : Expr) : (e.factors.map (meaning I)).prod = e.meaning I :=
  (prod_factorsOf I _).trans (meaning_dropBrackets I _ e)

/-- The contributions to a sum mean what its operands mean, by induction over the operands. -/
theorem sum_flatMap_summands (operands : List Expr)
    : ((operands.flatMap summands).map (meaning I)).sum = (operands.map (meaning I)).sum := by
  induction operands with
  | nil => rfl
  | cons e operands ih =>
      rw [List.flatMap_cons, List.map_append, List.sum_append, sum_summands, ih, List.map_cons,
        List.sum_cons]

/-- The contributions to a product mean what its factors mean, by induction over the factors. -/
theorem prod_flatMap_factors (operands : List Expr)
    : ((operands.flatMap factors).map (meaning I)).prod = (operands.map (meaning I)).prod := by
  induction operands with
  | nil => rfl
  | cons e operands ih =>
      rw [List.flatMap_cons, List.map_append, List.prod_append, prod_factors, ih, List.map_cons,
        List.prod_cons]

/-- A tree and its flat form have the same meaning. -/
theorem meaning_flatten (e : Expr) : e.flatten.meaning I = e.meaning I := by
  have hmap (es : List Expr) (ih : ∀ e ∈ es, e.flatten.meaning I = e.meaning I)
      : (flattenAll es).map (meaning I) = es.map (meaning I) := by
    rw [flattenAll_eq_map, List.map_map]
    exact List.map_congr_left ih
  induction e using Expr.induct with
  | constant | symbol | foreign => rfl
  | power base exponent ihb ihe => simp only [flatten, meaning, meaning_dropBrackets, ihb, ihe]
  | quotient numerator denominator ihn ihd =>
      simp only [flatten, meaning, meaning_dropBrackets, ihn, ihd]
  | group inner ih => simp only [flatten, meaning_bracketed, meaning, ih]
  | call name arguments ih => simp only [flatten, meaning, meanings_eq_map, hmap arguments ih]
  | sum operands ih =>
      rw [flatten, meaning_sum, sum_flatMap_summands, hmap operands ih, meaning_sum]
  | product operands implicit ih =>
      rw [flatten, spliceProduct, meaning_product, prod_flatMap_factors, hmap operands ih,
        meaning_product]

end TermGrouping.Expr
