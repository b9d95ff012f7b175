import Mathlib.Algebra.Order.BigOperators.Group.List
import Mathlib.Algebra.Order.Group.Int
import Mathlib.Tactic.Ring
import TermGrouping.Proofs.Writing.Regrouping

/-! Measures of trees. A number for every node adds up to one for the tree; where operators count
with the number of their joints, neither brackets nor nested operators change it.
-/

namespace TermGrouping

/-- What a constant counts, by its value, and what a joint of a sum or of a product counts. -/
structure Weights where
  constant : Rat → Int
  sum : Int
  product : Int

/-- What a node counts. An operator has one joint less than operands. -/
def Weights.node (w : Weights) : Expr → Int
  | .constant literal => w.constant literal.value
  | .sum operands => w.sum * operands.length - w.sum
  | .product operands _ => w.product * operands.length - w.product
  | _ => 0

namespace Expr

def total (f : Expr → Int) (e : Expr) : Int := (e.subtrees.map f).sum

def totalAll (f : Expr → Int) (es : List Expr) : Int := (es.map (total f)).sum

/-- The total of a tree is the number of its root and the totals of its children, by the preorder of
its subtrees. -/
theorem total_eq (f : Expr → Int) (e : Expr) : total f e = f e + totalAll f e.children := by
  have hsum (es : List Expr) : ((es.flatMap subtrees).map f).sum = totalAll f es := by
    induction es with
    | nil => rfl
    | cons e es ih =>
        rw [List.flatMap_cons, List.map_append, List.sum_append, ih]
        rfl
  rw [total, subtrees_eq, List.map_cons, List.sum_cons, hsum]

@[simp]
theorem totalAll_nil (f : Expr → Int) : totalAll f [] = 0 := rfl

@[simp]
theorem totalAll_cons (f : Expr → Int) (e : Expr) (es : List Expr)
    : totalAll f (e :: es) = total f e + totalAll f es := rfl

theorem totalAll_map {f : Expr → Int} {g : Expr → Expr} {es : List Expr}
    (h : ∀ e ∈ es, total f (g e) = total f e)
    : totalAll f (es.map g) = totalAll f es := by
  rw [totalAll, List.map_map]
  exact congrArg List.sum (List.map_congr_left h)

/-- If counts add up to zero, all of them are zero. -/
theorem eq_zero_of_total {f : Expr → Int} (hf : ∀ e, 0 ≤ f e) {e : Expr} (h : total f e = 0)
    : ∀ node ∈ e.subtrees, f node = 0 := by
  intro node hn
  have hnonneg : ∀ n ∈ e.subtrees.map f, 0 ≤ n := by
    intro n hn
    obtain ⟨other, _, rfl⟩ := List.mem_map.mp hn
    exact hf other
  exact List.all_zero_of_le_zero_le_of_sum_eq_zero hnonneg h (List.mem_map_of_mem hn)

-----------------------------------------------------------------------------------------
-- Measures that brackets do not change
-----------------------------------------------------------------------------------------

def measure (w : Weights) (e : Expr) : Int := total w.node e

def measureAll (w : Weights) (joint : Int) (es : List Expr) : Int :=
  (es.map fun e => e.measure w + joint).sum

variable (w : Weights)

/-- A list counts what its trees count and a joint for each of them. -/
theorem measureAll_eq (joint : Int) (es : List Expr)
    : measureAll w joint es = totalAll w.node es + joint * es.length := by
  induction es with
  | nil => simp [measureAll]
  | cons e es ih =>
      rw [measureAll, List.map_cons, List.sum_cons, ← measureAll, ih, measure, totalAll_cons,
        List.length_cons]
      push_cast
      ring

@[simp]
theorem measureAll_nil (joint : Int) : measureAll w joint [] = 0 := rfl

@[simp]
theorem measureAll_cons (joint : Int) (e : Expr) (es : List Expr)
    : measureAll w joint (e :: es) = e.measure w + joint + measureAll w joint es := rfl

theorem measureAll_map {joint : Int} {f : Expr → Expr} {es : List Expr}
    (h : ∀ e ∈ es, (f e).measure w = e.measure w)
    : measureAll w joint (es.map f) = measureAll w joint es := by
  rw [measureAll_eq, measureAll_eq, totalAll_map h, List.length_map]

/-- Replacing each tree of a list by trees of the same count keeps the count, by induction over the
list. -/
theorem measureAll_flatMap {joint : Int} {f : Expr → List Expr} {es : List Expr}
    (h : ∀ e ∈ es, measureAll w joint (f e) = e.measure w + joint)
    : measureAll w joint (es.flatMap f) = measureAll w joint es := by
  induction es with
  | nil => rfl
  | cons e es ih =>
      obtain ⟨he, hes⟩ := List.forall_mem_cons.mp h
      rw [List.flatMap_cons, measureAll_cons, ← he, ← ih hes]
      simp [measureAll]

@[simp]
theorem measure_constant (literal : Literal)
    : (constant literal).measure w = w.constant literal.value := by
  simp [measure, total_eq, Weights.node, children]

@[simp]
theorem measure_symbol (name : String) : (symbol name).measure w = 0 := rfl

@[simp]
theorem measure_foreign (value : Value) : (foreign value).measure w = 0 := rfl

@[simp]
theorem measure_power (base exponent : Expr)
    : (power base exponent).measure w = base.measure w + exponent.measure w := by
  rw [measure, total_eq]
  simp [Weights.node, children, measure]

@[simp]
theorem measure_quotient (numerator denominator : Expr)
    : (quotient numerator denominator).measure w
      = numerator.measure w + denominator.measure w := by
  rw [measure, total_eq]
  simp [Weights.node, children, measure]

@[simp]
theorem measure_group (inner : Expr) : (group inner).measure w = inner.measure w := by
  rw [measure, total_eq]
  simp [Weights.node, children, measure]

@[simp]
theorem measure_call (name : String) (arguments : List Expr)
    : (call name arguments).measure w = measureAll w 0 arguments := by
  rw [measure, total_eq, measureAll_eq]
  simp [Weights.node, children]

@[simp]
theorem measure_sum (operands : List Expr)
    : (sum operands).measure w = measureAll w w.sum operands - w.sum := by
  rw [measure, total_eq, measureAll_eq]
  simp only [Weights.node, children]
  ring

@[simp]
theorem measure_product (operands : List Expr) (implicit : Bool)
    : (product operands implicit).measure w
      = measureAll w w.product operands - w.product := by
  rw [measure, total_eq, measureAll_eq]
  simp only [Weights.node, children]
  ring

/-- The operands of a sum count one joint more than the sum. -/
theorem measureAll_termsOf (e : Expr) : measureAll w w.sum (termsOf e) = e.measure w + w.sum := by
  cases e <;> simp [termsOf]

theorem measureAll_factorsOf (e : Expr)
    : measureAll w w.product (factorsOf e) = e.measure w + w.product := by
  cases e <;> simp [factorsOf]

/-- Groups count nothing, so leaving them out keeps the measure, by induction over the tree. -/
theorem measure_ungrouped (e : Expr) : e.ungrouped.measure w = e.measure w := by
  induction e using Expr.induct with
  | constant | symbol | foreign => rfl
  | power _ _ ihb ihx => simp [ungrouped, ihb, ihx]
  | quotient _ _ ihn ihd => simp [ungrouped, ihn, ihd]
  | group _ ih => simpa [ungrouped] using ih
  | sum _ ih | product _ _ ih | call _ _ ih =>
      simp [ungrouped, ungroupedAll_eq_map, measureAll_map w ih]

/-- Splicing keeps the measure: a nested sum has one joint less than operands and stood behind
one. -/
theorem measure_spliced (e : Expr) : e.spliced.measure w = e.measure w := by
  induction e using Expr.induct with
  | constant | symbol | foreign => rfl
  | power _ _ ihb ihx => simp [spliced, ihb, ihx]
  | quotient _ _ ihn ihd => simp [spliced, ihn, ihd]
  | group _ ih => simpa [spliced] using ih
  | sum _ ih =>
      simp only [spliced, splicedAll_eq_map, measure_sum]
      rw [measureAll_flatMap w fun e _ => measureAll_termsOf w e, measureAll_map w ih]
  | product _ _ ih =>
      simp only [spliced, splicedAll_eq_map, measure_product]
      rw [measureAll_flatMap w fun e _ => measureAll_factorsOf w e, measureAll_map w ih]
  | call _ _ ih => simp [spliced, splicedAll_eq_map, measureAll_map w ih]

/-- The measure of a tree is that of its shape, because it looks at values alone. -/
theorem measure_shape (e : Expr) : e.shape.measure w = e.measure w := by
  induction e using Expr.induct with
  | constant | symbol | foreign => simp [shape]
  | power _ _ ihb ihx => simp [shape, ihb, ihx]
  | quotient _ _ ihn ihd => simp [shape, ihn, ihd]
  | group _ ih => simpa [shape] using ih
  | sum _ ih | product _ _ ih | call _ _ ih =>
      simp [shape, shapeAll_eq_map, measureAll_map w ih]

/-- Trees that are alike without groups and nested operators have the same measure. -/
theorem measure_eq_of_alike {a b : Expr} (h : Alike a.ungrouped.spliced b.ungrouped.spliced)
    : a.measure w = b.measure w := by
  have hmeasure (e : Expr) : e.ungrouped.spliced.shape.measure w = e.measure w := by
    rw [measure_shape, measure_spliced, measure_ungrouped]
  rw [← hmeasure a, ← hmeasure b, h]

end Expr

end TermGrouping
