import TermGrouping.Bundle.Basic

/-! Collecting like terms. The operands of one bundle are put into a node of their own, from the
innermost sums and products outwards; notes say what happened at each of them. Trees of any depth
are collected, since no limit for the depth of recursion is modelled.
-/

namespace TermGrouping

/-- What was done at a node that was to be collected. -/
inductive Note where
  /-- A node of the given kind was left as it is. -/
  | settled (kindName : String)
  /-- The operands were put into bundles with keys of the given kinds. -/
  | collected (operands : Nat) (kinds : List KeyKind)
  deriving DecidableEq

def Note.message : Note → String
  | settled kindName => "Nothing to collect in " ++ kindName
  | collected operands kinds =>
      "Collecting " ++ toString operands ++ " operands into " ++ toString kinds.length
        ++ " groups: " ++ (Value.list (kinds.map fun kind => .text kind.name)).display

/-- A result with the notes that were taken on the way to it. -/
structure Noted (α : Type) where
  value : α
  notes : List Note
  deriving DecidableEq

-----------------------------------------------------------------------------------------
-- At one node, bundles with several members become operands of their own
-----------------------------------------------------------------------------------------

def Operator.node : Operator → List Expr → Expr
  | sum, operands => .sum operands
  | product, operands => .product operands false

/-- A node with the given operands, or the only operand. -/
def Operator.combine (operator : Operator) : List Expr → Expr
  | [operand] => operand
  | operands => operator.node operands

namespace Expr

def check (e : Expr) : Except TreeError Unit :=
  match e.fault? with
  | some fault => .error fault
  | none => .ok ()

/-- Refuses a key whose tree holds a list, which cannot be looked up. -/
def checkKey (key : Key) : Except TreeError Unit :=
  if key.tree?.any fun tree => tree.subtrees.any fun node => node.value?.any Value.isList then
    .error .listInKey
  else .ok ()

/-- The bundles of the operands of a node; every operand is checked in its turn. -/
def bundles (e : Expr) : Except TreeError (List Bundle) := do
  e.check
  match e.operation? with
  | none => throw (.noOperands e.kindName)
  | some (operator, operands) =>
      operands.forM fun operand => do
        operand.check
        checkKey (operator.key operand)
      return Bundle.ofOperands operator operands

def isCollectable (e : Expr) : Except TreeError Bool :=
  if e.isOperation then Bundle.areCollectable <$> e.bundles else return false

/-- A node with its operands collected, its children untouched. In a node that has no operands there
is nothing to collect. -/
def collect (e : Expr) : Except TreeError (Noted Expr) := do
  match e.operation? with
  | none => return ⟨e, [.settled e.kindName]⟩
  | some (operator, operands) =>
      let bundles ← e.bundles
      if Bundle.areCollectable bundles then
        let ordered := Bundle.ordered operator bundles
        return {
          value := operator.combine (ordered.map fun bundle => operator.combine bundle.members)
          notes := [.collected operands.length (ordered.map fun bundle => bundle.key.kind)]
        }
      else return ⟨e, [.settled e.kindName]⟩

-----------------------------------------------------------------------------------------
-- In a whole tree, children are collected before their parent
-----------------------------------------------------------------------------------------

mutual
/-- A tree with the operands of all its sums and products collected, children before parents.
Each node is checked before its children are visited. -/
def collectDeep : Expr → Except TreeError (Noted Expr)
  | constant literal => return ⟨constant literal, []⟩
  | symbol name => return ⟨symbol name, []⟩
  | power base exponent => do
      let base ← base.collectDeep
      let exponent ← exponent.collectDeep
      return ⟨power base.value exponent.value, base.notes ++ exponent.notes⟩
  | sum operands => do
      (sum operands).check
      let kids ← collectDeepAll operands
      let node ← (sum kids.value).collect
      return ⟨node.value, kids.notes ++ node.notes⟩
  | product operands implicit => do
      (product operands implicit).check
      let kids ← collectDeepAll operands
      let node ← (product kids.value implicit).collect
      return ⟨node.value, kids.notes ++ node.notes⟩
  | group inner => do
      let inner ← inner.collectDeep
      return ⟨group inner.value, inner.notes⟩
  | call name arguments => do
      let kids ← collectDeepAll arguments
      return ⟨call name kids.value, kids.notes⟩
  | quotient numerator denominator => do
      let numerator ← numerator.collectDeep
      let denominator ← denominator.collectDeep
      return ⟨quotient numerator.value denominator.value, numerator.notes ++ denominator.notes⟩
  | foreign value => throw (.notExpression value)

def collectDeepAll : List Expr → Except TreeError (Noted (List Expr))
  | [] => return ⟨[], []⟩
  | e :: es => do
      let first ← e.collectDeep
      let rest ← collectDeepAll es
      return ⟨first.value :: rest.value, first.notes ++ rest.notes⟩
end

end Expr

/-- What collecting has done to a tree. -/
inductive Status where
  /-- The collected tree is alike to the tree, which stays as it is. -/
  | unchanged (tree : Expr)
  /-- The collected tree is another one. -/
  | collected (before after : Expr)
  deriving DecidableEq

namespace Status

def name : Status → String
  | unchanged _ => "NO_CHANGE"
  | collected _ _ => "COLLECT_LIKE_TERMS"

def hasChanged : Status → Bool
  | unchanged _ => false
  | collected _ _ => true

def before : Status → Expr
  | unchanged tree => tree
  | collected before _ => before

def after : Status → Expr
  | unchanged tree => tree
  | collected _ after => after

end Status

/-- The status of a tree: it has changed if the collected tree is not alike to it. -/
def Expr.collectionStatus (e : Expr) : Except TreeError Status := do
  let collected ← e.collectDeep
  return if Alike collected.value e then .unchanged e else .collected e collected.value

end TermGrouping
