import Mathlib.Data.List.Basic
import TermGrouping.Expr.Flattening
import TermGrouping.Expr.Normal

/-! The tips of a tree: its constants, symbols and plain values, left to right. Brackets have no tip
of their own, and the operands of a spliced node stand where the node stood; so flattening keeps
the tips in their order, and with them the leaves and the absence of plain values.
-/

namespace TermGrouping.Expr

/-- Constants, symbols and plain values end the branch that they stand on. -/
def isTip : Expr → Bool
  | constant _ | symbol _ | foreign _ => true
  | _ => false

def tips (e : Expr) : List Expr := e.subtrees.filter isTip

theorem flatMap_tips (es : List Expr)
    : (es.flatMap subtrees).filter isTip = es.flatMap tips := by
  rw [List.filter_flatMap]
  rfl

@[simp]
theorem tips_constant (literal : Literal) : (constant literal).tips = [constant literal] := rfl

@[simp]
theorem tips_symbol (name : String) : (symbol name).tips = [symbol name] := rfl

@[simp]
theorem tips_foreign (value : Value) : (foreign value).tips = [foreign value] := rfl

/-- The tips of a node with parts are those of the parts. -/
theorem tips_of_not_isTip {e : Expr} (h : e.isTip = false) : e.tips = e.children.flatMap tips := by
  rw [tips, subtrees_eq, List.filter_cons_of_neg (by simp [h]), flatMap_tips]

@[simp]
theorem tips_power (base exponent : Expr)
    : (power base exponent).tips = base.tips ++ exponent.tips := by
  rw [tips_of_not_isTip rfl]
  simp [children]

@[simp]
theorem tips_quotient (numerator denominator : Expr)
    : (quotient numerator denominator).tips = numerator.tips ++ denominator.tips := by
  rw [tips_of_not_isTip rfl]
  simp [children]

@[simp]
theorem tips_group (inner : Expr) : (group inner).tips = inner.tips := by
  rw [tips_of_not_isTip rfl]
  simp [children]

@[simp]
theorem tips_sum (operands : List Expr) : (sum operands).tips = operands.flatMap tips :=
  tips_of_not_isTip rfl

@[simp]
theorem tips_product (operands : List Expr) (implicit : Bool)
    : (product operands implicit).tips = operands.flatMap tips :=
  tips_of_not_isTip rfl

@[simp]
theorem tips_call (name : String) (arguments : List Expr)
    : (call name arguments).tips = arguments.flatMap tips :=
  tips_of_not_isTip rfl

-----------------------------------------------------------------------------------------
-- Leaves and plain values are tips
-----------------------------------------------------------------------------------------

/-- The leaves of a tree are the tips that are no plain values. -/
theorem leaves_eq_filter_tips (e : Expr) : e.leaves = e.tips.filter isLeaf := by
  rw [leaves, tips, List.filter_filter]
  refine List.filter_congr fun node _ => ?_
  cases node <;> rfl

/-- A tree holds no plain value if none of its tips is one. -/
theorem isPure_iff_tips (e : Expr) : e.IsPure ↔ ∀ tip ∈ e.tips, tip.value? = none := by
  refine ⟨fun h tip ht => h tip (List.mem_filter.mp ht).1, fun h node hn => ?_⟩
  cases node with
  | foreign value => exact h _ (List.mem_filter.mpr ⟨hn, rfl⟩)
  | _ => rfl

/-- A tree holds no plain value if its root is none and its children hold none. -/
theorem isPure_iff (e : Expr)
    : e.IsPure ↔ e.value? = none ∧ ∀ child ∈ e.children, child.IsPure :=
  forall_subtrees

-----------------------------------------------------------------------------------------
-- Flattening keeps the tips
-----------------------------------------------------------------------------------------

/-- Dropping brackets keeps the tips. -/
theorem tips_dropBrackets (level : Int) (e : Expr) : (e.dropBrackets level).tips = e.tips := by
  unfold dropBrackets
  split
  · split
    · exact (tips_group _).symm
    · rfl
  · rfl

theorem tips_bracketed (e : Expr) : e.bracketed.tips = e.tips := by
  unfold bracketed
  split
  · rfl
  · exact tips_group e

/-- The operands of a sum have the tips of the sum. -/
theorem flatMap_tips_termsOf (e : Expr) : e.termsOf.flatMap tips = e.tips := by
  cases e <;> simp [termsOf]

theorem flatMap_tips_factorsOf (e : Expr) : e.factorsOf.flatMap tips = e.tips := by
  cases e <;> simp [factorsOf]

/-- What an operand contributes to a sum has the tips of the operand. -/
theorem flatMap_tips_summands (e : Expr) : e.summands.flatMap tips = e.tips :=
  (flatMap_tips_termsOf _).trans (tips_dropBrackets _ e)

/-- What a factor contributes to a product has the tips of the factor. -/
theorem flatMap_tips_factors (e : Expr) : e.factors.flatMap tips = e.tips :=
  (flatMap_tips_factorsOf _).trans (tips_dropBrackets _ e)

/-- Flattening keeps the constants, symbols and plain values of a tree in their order. -/
theorem tips_flatten (e : Expr) : e.flatten.tips = e.tips := by
  have hmap (es : List Expr) (ih : ∀ e ∈ es, e.flatten.tips = e.tips)
      : (flattenAll es).flatMap tips = es.flatMap tips := by
    rw [flattenAll_eq_map, List.flatMap_map]
    exact List.flatMap_congr ih
  induction e using Expr.induct with
  | constant | symbol | foreign => rfl
  | power base exponent ihb ihe => simp only [flatten, tips_power, tips_dropBrackets, ihb, ihe]
  | quotient numerator denominator ihn ihd =>
      simp only [flatten, tips_quotient, tips_dropBrackets, ihn, ihd]
  | group inner ih => rw [flatten, tips_bracketed, ih, tips_group]
  | call name arguments ih => rw [flatten, tips_call, hmap arguments ih, tips_call]
  | sum operands ih =>
      rw [flatten, tips_sum, List.flatMap_assoc, List.flatMap_congr fun e _ =>
        flatMap_tips_summands e, hmap operands ih, tips_sum]
  | product operands implicit ih =>
      rw [flatten, spliceProduct, tips_product, List.flatMap_assoc, List.flatMap_congr fun e _ =>
        flatMap_tips_factors e, hmap operands ih, tips_product]

/-- Flattening keeps the constants and symbols of a tree in their order. -/
theorem leaves_flatten (e : Expr) : e.flatten.leaves = e.leaves := by
  rw [leaves_eq_filter_tips, tips_flatten, ← leaves_eq_filter_tips]

/-- Flattening neither adds nor removes plain values, because it keeps the tips. -/
theorem isPure_flatten (e : Expr) : e.flatten.IsPure ↔ e.IsPure := by
  rw [isPure_iff_tips, isPure_iff_tips, tips_flatten]

end TermGrouping.Expr
