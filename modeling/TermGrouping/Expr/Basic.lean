import TermGrouping.Literal
import TermGrouping.TreeError

/-! Expression trees. Sums and products take lists of operands, brackets are kept as nodes, and a
plain value can stand in a tree built by hand, where every operation has to reckon with it.

A tree may be of any depth. The limit that can be set for the depth of recursion is not modelled,
here and in the operations that descend into a tree: comparing, flattening, collecting, writing.
-/

namespace TermGrouping

/-- An expression, or a plain value in the place of one. -/
inductive Expr where
  | constant (literal : Literal)
  | symbol (name : String)
  | power (base exponent : Expr)
  | sum (operands : List Expr)
  /-- The factors of an implicit product stand side by side without signs, where they can. -/
  | product (operands : List Expr) (implicit : Bool)
  | group (inner : Expr)
  | call (name : String) (arguments : List Expr)
  | quotient (numerator denominator : Expr)
  | foreign (value : Value)

namespace Expr

/-- Induction over a tree, with a hypothesis for every member of a list of children. -/
@[elab_as_elim]
theorem induct {motive : Expr → Prop}
    (constant : ∀ literal, motive (.constant literal))
    (symbol : ∀ name, motive (.symbol name))
    (power : ∀ base exponent, motive base → motive exponent → motive (.power base exponent))
    (sum : ∀ operands, (∀ e ∈ operands, motive e) → motive (.sum operands))
    (product : ∀ operands implicit, (∀ e ∈ operands, motive e)
      → motive (.product operands implicit))
    (group : ∀ inner, motive inner → motive (.group inner))
    (call : ∀ name arguments, (∀ e ∈ arguments, motive e) → motive (.call name arguments))
    (quotient : ∀ numerator denominator, motive numerator → motive denominator
      → motive (.quotient numerator denominator))
    (foreign : ∀ value, motive (.foreign value))
    : ∀ e, motive e := by
  intro e
  refine @Expr.rec motive (fun es => ∀ e ∈ es, motive e)
    constant symbol power sum product group call quotient foreign ?_ ?_ e
  · intro e he
    cases he
  · intro head tail hhead htail e he
    rcases List.mem_cons.mp he with rfl | he
    · exact hhead
    · exact htail e he

mutual
/-- Whether two trees are the same in every attribute. -/
def same : Expr → Expr → Bool
  | constant a, constant b => a == b
  | symbol a, symbol b => a == b
  | power b x, power b' x' => same b b' && same x x'
  | sum as, sum bs => sameAll as bs
  | product as i, product bs j => sameAll as bs && i == j
  | group a, group b => same a b
  | call f as, call g bs => f == g && sameAll as bs
  | quotient n d, quotient n' d' => same n n' && same d d'
  | foreign a, foreign b => a == b
  | _, _ => false

def sameAll : List Expr → List Expr → Bool
  | [], [] => true
  | a :: as, b :: bs => same a b && sameAll as bs
  | _, _ => false
end

mutual
/-- The comparison decides equality, by recursion over both trees. -/
theorem same_iff (a b : Expr)
    : same a b = true ↔ a = b := by
  cases a <;> cases b <;> simp [same]
  case power.power b x b' x' => rw [same_iff b b', same_iff x x']
  case sum.sum as bs => exact sameAll_iff as bs
  case product.product as i bs j => rw [sameAll_iff as bs]; exact fun _ => Iff.rfl
  case group.group a b => exact same_iff a b
  case call.call f as g bs => rw [sameAll_iff as bs]; exact fun _ => Iff.rfl
  case quotient.quotient n d n' d' => rw [same_iff n n', same_iff d d']

theorem sameAll_iff (as bs : List Expr)
    : sameAll as bs = true ↔ as = bs := by
  cases as with
  | nil => cases bs <;> simp [sameAll]
  | cons a as =>
      cases bs with
      | nil => simp [sameAll]
      | cons b bs => simp [sameAll, same_iff a b, sameAll_iff as bs]
end

instance : DecidableEq Expr := fun a b => decidable_of_iff _ (same_iff a b)

end Expr

end TermGrouping
