import TermGrouping.Expr.Flattening
import TermGrouping.Expr.Shape

/-! Trees up to brackets. Brackets can be erased, sums in sums and products in products can be
spliced, and two trees are bracketed alike if such changes, each harmless where it happens, lead
from one to the other.
-/

namespace TermGrouping.Expr

mutual
/-- A tree with every group replaced by its content. -/
def ungrouped : Expr → Expr
  | power base exponent => power base.ungrouped exponent.ungrouped
  | sum operands => sum (ungroupedAll operands)
  | product operands implicit => product (ungroupedAll operands) implicit
  | group inner => inner.ungrouped
  | call name arguments => call name (ungroupedAll arguments)
  | quotient numerator denominator => quotient numerator.ungrouped denominator.ungrouped
  | e => e

def ungroupedAll : List Expr → List Expr
  | [] => []
  | e :: es => e.ungrouped :: ungroupedAll es
end

mutual
/-- A tree with every sum directly inside a sum and every product directly inside a product
replaced by its operands. -/
def spliced : Expr → Expr
  | power base exponent => power base.spliced exponent.spliced
  | sum operands => sum ((splicedAll operands).flatMap termsOf)
  | product operands implicit => product ((splicedAll operands).flatMap factorsOf) implicit
  | group inner => group inner.spliced
  | call name arguments => call name (splicedAll arguments)
  | quotient numerator denominator => quotient numerator.spliced denominator.spliced
  | e => e

def splicedAll : List Expr → List Expr
  | [] => []
  | e :: es => e.spliced :: splicedAll es
end

/-- Written forms play no part in what the terms of a tree are. -/
theorem termsOf_shape (e : Expr) : termsOf e.shape = (termsOf e).map shape := by
  cases e <;> simp [termsOf, shape, shapeAll_eq_map]

theorem factorsOf_shape (e : Expr) : factorsOf e.shape = (factorsOf e).map shape := by
  cases e <;> simp [factorsOf, shape, shapeAll_eq_map]

/-- Whether a group means its content wherever it stands. -/
def dropsAnywhere : Expr → Bool
  | symbol _ | call _ _ => true
  | constant literal => 0 ≤ literal.value
  | _ => false

/-- Whether a group means its content as the numerator of a quotient. -/
def dropsAsNumerator : Expr → Bool
  | power _ _ | product _ _ | quotient _ _ => true
  | constant literal => literal.value < 0
  | _ => false

/-- Whether a group means its content as an exponent or a denominator. -/
def dropsAsExponent : Expr → Bool
  | power _ _ => true
  | _ => false

/-- Trees that differ in brackets alone: the least equivalence that holds of trees that are alike,
is kept by every node, reassociates sums and products, and drops brackets where they are
redundant. -/
inductive Regrouped : Expr → Expr → Prop where
  | alike {a b} : Alike a b → Regrouped a b
  | symm {a b} : Regrouped a b → Regrouped b a
  | trans {a b c} : Regrouped a b → Regrouped b c → Regrouped a c
  | power {a a' b b'} : Regrouped a a' → Regrouped b b' → Regrouped (power a b) (power a' b')
  | quotient {a a' b b'}
    : Regrouped a a' → Regrouped b b' → Regrouped (quotient a b) (quotient a' b')
  | group {a a'} : Regrouped a a' → Regrouped (group a) (group a')
  | sum {a a'} (before after : List Expr)
    : Regrouped a a' → Regrouped (sum (before ++ a :: after)) (sum (before ++ a' :: after))
  | product {a a'} (before after : List Expr) (implicit : Bool)
    : Regrouped a a'
      → Regrouped (product (before ++ a :: after) implicit)
          (product (before ++ a' :: after) implicit)
  | call {a a'} (name : String) (before after : List Expr)
    : Regrouped a a'
      → Regrouped (call name (before ++ a :: after)) (call name (before ++ a' :: after))
  | spliceSum (before inner after : List Expr)
    : Regrouped (sum (before ++ sum inner :: after)) (sum (before ++ inner ++ after))
  | spliceProduct (before inner after : List Expr) (implicit innerImplicit : Bool)
    : Regrouped (product (before ++ product inner innerImplicit :: after) implicit)
        (product (before ++ inner ++ after) implicit)
  | twice (a : Expr) : Regrouped (group (group a)) (group a)
  | anywhere {a : Expr} : a.dropsAnywhere = true → Regrouped (group a) a
  | summand (before after : List Expr) (a : Expr)
    : Regrouped (sum (before ++ group a :: after)) (sum (before ++ a :: after))
  | factor {a : Expr} (before after : List Expr) (implicit : Bool)
    : (∀ operands, a ≠ sum operands)
      → Regrouped (product (before ++ group a :: after) implicit)
          (product (before ++ a :: after) implicit)
  | exponent {a : Expr} (base : Expr)
    : a.dropsAsExponent = true → Regrouped (power base (group a)) (power base a)
  | numerator {a : Expr} (denominator : Expr)
    : a.dropsAsNumerator = true
      → Regrouped (quotient (group a) denominator) (quotient a denominator)
  | denominator {a : Expr} (numerator : Expr)
    : a.dropsAsExponent = true
      → Regrouped (quotient numerator (group a)) (quotient numerator a)

end TermGrouping.Expr
