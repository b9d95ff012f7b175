import TermGrouping.Expr.Basic

/-! The subtrees of a tree: the children of its root, all subtrees in preorder, and its leaves.
A tree is well formed if none of its subtrees has a fault at its root.
-/

namespace TermGrouping.Expr

/-- The name of the kind of a node, which for a plain value is that of the value. -/
def kindName : Expr → String
  | constant _ => "Constant"
  | symbol _ => "Symbol"
  | power _ _ => "Power"
  | sum _ => Operator.sum.kindName
  | product _ _ => Operator.product.kindName
  | group _ => "Group"
  | call _ _ => "Function"
  | quotient _ _ => "Quotient"
  | foreign value => value.kindName

def isLeaf : Expr → Bool
  | constant _ | symbol _ => true
  | _ => false

/-- The operator of a node and its operands, if the node is a sum or a product. -/
def operation? : Expr → Option (Operator × List Expr)
  | sum operands => some (.sum, operands)
  | product operands _ => some (.product, operands)
  | _ => none

def operator? (e : Expr) : Option Operator := e.operation?.map Prod.fst

def isOperation (e : Expr) : Bool := e.operation?.isSome

def children : Expr → List Expr
  | power base exponent => [base, exponent]
  | sum operands => operands
  | product operands _ => operands
  | group inner => [inner]
  | call _ arguments => arguments
  | quotient numerator denominator => [numerator, denominator]
  | constant _ | symbol _ | foreign _ => []

/-- A node with new children and its own attributes. A node that has no place for exactly these
children stays as it is. -/
def rebuild : Expr → List Expr → Expr
  | power _ _, [base, exponent] => power base exponent
  | sum _, operands => sum operands
  | product _ implicit, operands => product operands implicit
  | group _, [inner] => group inner
  | call name _, arguments => call name arguments
  | quotient _ _, [numerator, denominator] => quotient numerator denominator
  | e, _ => e

/-- The number of children of a node that has a fixed number of them. -/
def arity? : Expr → Option Nat
  | power _ _ | quotient _ _ => some 2
  | group _ => some 1
  | _ => none

/-- A node rebuilt from its own children is the node itself. -/
theorem rebuild_children (e : Expr) : e.rebuild e.children = e := by
  cases e <;> rfl

/-- The children of a rebuilt node are those it was rebuilt from, if their number is right. -/
theorem children_rebuild {e : Expr} {kids : List Expr}
    (h : kids.length = e.children.length)
    : (e.rebuild kids).children = kids := by
  cases e with
  | sum | product | call => rfl
  | power | quotient =>
      match kids, h with
      | [_, _], _ => rfl
  | group =>
      match kids, h with
      | [_], _ => rfl
  | constant | symbol | foreign =>
      match kids, h with
      | [], _ => rfl

-----------------------------------------------------------------------------------------
-- Preorder puts a tree before its proper subtrees
-----------------------------------------------------------------------------------------

mutual
/-- All subtrees of a tree, parents before children and children left to right. -/
def subtrees : Expr → List Expr
  | power base exponent => power base exponent :: (base.subtrees ++ exponent.subtrees)
  | sum operands => sum operands :: subtreesAll operands
  | product operands implicit => product operands implicit :: subtreesAll operands
  | group inner => group inner :: inner.subtrees
  | call name arguments => call name arguments :: subtreesAll arguments
  | quotient numerator denominator =>
      quotient numerator denominator :: (numerator.subtrees ++ denominator.subtrees)
  | e => [e]

def subtreesAll : List Expr → List Expr
  | [] => []
  | e :: es => e.subtrees ++ subtreesAll es
end

theorem subtreesAll_eq_flatMap (es : List Expr) : subtreesAll es = es.flatMap subtrees := by
  induction es with
  | nil => rfl
  | cons e es ih => simp [subtreesAll, ih]

/-- The subtrees of a tree are the tree itself and the subtrees of its children. -/
theorem subtrees_eq (e : Expr) : e.subtrees = e :: e.children.flatMap subtrees := by
  cases e <;> simp [subtrees, children, subtreesAll_eq_flatMap]

/-- Induction over a tree, with a hypothesis for every child. -/
@[elab_as_elim]
theorem induct_children {motive : Expr → Prop}
    (step : ∀ e, (∀ child ∈ e.children, motive child) → motive e)
    : ∀ e, motive e := by
  intro e
  induction e using Expr.induct with
  | constant | symbol | foreign => exact step _ fun _ hc => nomatch hc
  | group inner ih => exact step _ (List.forall_mem_singleton.mpr ih)
  | power a b iha ihb | quotient a b iha ihb =>
      exact step _ (List.forall_mem_cons.mpr ⟨iha, List.forall_mem_singleton.mpr ihb⟩)
  | sum _ ih | product _ _ ih | call _ _ ih => exact step _ ih

/-- A property of all subtrees is one of the tree and of the subtrees of its children. -/
theorem forall_subtrees {P : Expr → Prop} {e : Expr}
    : (∀ node ∈ e.subtrees, P node) ↔ P e ∧ ∀ child ∈ e.children, ∀ node ∈ child.subtrees, P node
    := by
  rw [subtrees_eq, List.forall_mem_cons]
  exact and_congr_right fun _ =>
    ⟨fun h child hc node hn => h node (List.mem_flatMap.mpr ⟨child, hc, hn⟩), fun h node hn => by
      obtain ⟨child, hc, hn⟩ := List.mem_flatMap.mp hn
      exact h child hc node hn⟩

/-- A property that children have of their parents is one of all subtrees. -/
theorem forall_subtrees_of_children {P : Expr → Prop}
    (hP : ∀ e, P e → ∀ child ∈ e.children, P child) {e : Expr} (h : P e)
    : ∀ node ∈ e.subtrees, P node := by
  induction e using induct_children with
  | step e ih => exact forall_subtrees.mpr ⟨h, fun child hc => ih child hc (hP e h child hc)⟩

def leaves (e : Expr) : List Expr := e.subtrees.filter isLeaf

def value? : Expr → Option Value
  | foreign value => some value
  | _ => none

def firstValue? (e : Expr) : Option Value := e.subtrees.findSome? value?

/-- What is wrong with a node itself, its children aside. -/
def fault? (e : Expr) : Option TreeError :=
  match e.value?, e.operation? with
  | some value, _ => some (.notExpression value)
  | none, some (operator, operands) =>
      if operands.length < Operator.fewestOperands then
        some (.tooFewOperands operator operands.length)
      else none
  | none, none => none

/-- A tree without plain values whose operators all have their operands. -/
def WellFormed (e : Expr) : Prop := ∀ node ∈ e.subtrees, node.fault? = none

instance (e : Expr) : Decidable e.WellFormed :=
  inferInstanceAs (Decidable (∀ node ∈ e.subtrees, node.fault? = none))

/-- A tree is well formed if its root has no fault and its children are well formed. -/
theorem wellFormed_iff (e : Expr)
    : e.WellFormed ↔ e.fault? = none ∧ ∀ child ∈ e.children, child.WellFormed :=
  forall_subtrees

end TermGrouping.Expr
