import Mathlib.Data.List.Perm.Basic
import TermGrouping.Proofs.Collecting.Settled

/-! The sums and products of a tree, in the order in which their operands are collected: children
left to right and before their parents. Those of the collected tree are the ones that are made at
each of them.
-/

namespace TermGrouping.Expr

-----------------------------------------------------------------------------------------
-- Postorder puts a tree behind its proper subtrees
-----------------------------------------------------------------------------------------

mutual
/-- All subtrees of a tree, children left to right and before their parents. -/
def postorder : Expr → List Expr
  | power base exponent => base.postorder ++ exponent.postorder ++ [power base exponent]
  | sum operands => postorderAll operands ++ [sum operands]
  | product operands implicit => postorderAll operands ++ [product operands implicit]
  | group inner => inner.postorder ++ [group inner]
  | call name arguments => postorderAll arguments ++ [call name arguments]
  | quotient numerator denominator =>
      numerator.postorder ++ denominator.postorder ++ [quotient numerator denominator]
  | e => [e]

def postorderAll : List Expr → List Expr
  | [] => []
  | e :: es => e.postorder ++ postorderAll es
end

theorem postorderAll_eq_flatMap (es : List Expr) : postorderAll es = es.flatMap postorder := by
  induction es with
  | nil => rfl
  | cons e es ih => rw [postorderAll, ih, List.flatMap_cons]

/-- Postorder visits the children of a node from left to right and then the node. -/
theorem postorder_eq (e : Expr) : e.postorder = e.children.flatMap postorder ++ [e] := by
  cases e <;> simp [postorder, children, postorderAll_eq_flatMap]

/-- Postorder lists the same subtrees as preorder, each as often. -/
theorem postorder_perm (e : Expr) : e.postorder.Perm e.subtrees := by
  induction e using induct_children with
  | step e ih =>
      rw [postorder_eq, subtrees_eq]
      exact (List.perm_append_singleton e _).trans (.cons e (List.Perm.flatMap_left _ ih))

/-- The sums and products of a tree in postorder. -/
def operations (e : Expr) : List Expr := e.postorder.filter isOperation

/-- The operations of a tree are the subtrees that are sums or products. -/
theorem mem_operations {e node : Expr}
    : node ∈ e.operations ↔ node ∈ e.subtrees ∧ node.isOperation = true := by
  rw [operations, List.mem_filter, e.postorder_perm.mem_iff]

/-- The operations of a tree are those of its children, and the tree itself if it is one. -/
theorem operations_eq (e : Expr)
    : e.operations = e.children.flatMap operations ++ [e].filter isOperation := by
  rw [operations, postorder_eq, List.filter_append, List.filter_flatMap]
  rfl

-----------------------------------------------------------------------------------------
-- The operations that are made at a node
-----------------------------------------------------------------------------------------

theorem operations_node (operator : Operator) (operands : List Expr)
    : (operator.node operands).operations
      = operands.flatMap operations ++ [operator.node operands] := by
  rw [operations_eq, children_node]
  simp [isOperation]

/-- Combined operands are in an operation of their own if there are several. -/
theorem operations_combine (operator : Operator) {operands : List Expr} (h : operands ≠ [])
    : (operator.combine operands).operations
      = operands.flatMap operations
        ++ if 2 ≤ operands.length then [operator.node operands] else [] := by
  match operands with
  | [] => exact absurd rfl h
  | [e] => simp [Operator.combine]
  | e :: f :: rest =>
      rw [combine_of_two_le operator (by simp), operations_node, if_pos (by simp)]

/-- All that is made at a sum or a product are sums and products. At other nodes nothing is made but
the node itself. -/
theorem filter_madeNodes (e : Expr)
    : e.madeNodes.filter isOperation = if e.isOperation then e.madeNodes else [] := by
  cases hs : e.isSettled with
  | true => rw [madeNodes_of_isSettled hs, List.filter_singleton, Bool.cond_eq_ite]
  | false =>
      obtain ⟨operator, operands, ho⟩ := operation?_of_not_isSettled hs
      rw [if_pos (by simp [isOperation, ho]), List.filter_eq_self,
        madeNodes_of_not_isSettled ho hs, bundled_of_not_isSettled ho hs, List.forall_mem_cons,
        List.forall_mem_map]
      simp [isOperation]

/-- The operations of combined bundles are those of their members and one for each bundle of
several members. -/
theorem operations_combine_perm {operator : Operator} {bundles : List Bundle}
    (hne : ∀ bundle ∈ bundles, bundle.members ≠ [])
    : (bundles.flatMap fun bundle => (operator.combine bundle.members).operations).Perm
        ((bundles.flatMap Bundle.members).flatMap operations
          ++ (bundles.filter fun bundle => 2 ≤ bundle.members.length).map
            fun bundle => operator.node bundle.members) := by
  have hmade : (bundles.flatMap fun bundle =>
        if 2 ≤ bundle.members.length then [operator.node bundle.members] else [])
      = (bundles.filter fun bundle => 2 ≤ bundle.members.length).map
          fun bundle => operator.node bundle.members := by
    induction bundles with
    | nil => rfl
    | cons bundle bundles ih =>
        rw [List.flatMap_cons, ih (List.forall_mem_cons.mp hne).2]
        by_cases h : 2 ≤ bundle.members.length <;> simp [h]
  rw [List.flatMap_congr fun bundle hb => operations_combine operator (hne bundle hb),
    List.flatMap_assoc, ← hmade]
  exact (List.flatMap_append_perm ..).symm

/-- The operations of a bundled node are those of its children and those that bundling makes. -/
theorem operations_bundled_perm (e : Expr)
    : e.bundled.value.operations.Perm
        (e.children.flatMap operations ++ e.madeNodes.filter isOperation) := by
  cases hs : e.isSettled with
  | true => rw [madeNodes_of_isSettled hs, bundled_of_isSettled hs, operations_eq]
  | false =>
      obtain ⟨operator, operands, ho⟩ := operation?_of_not_isSettled hs
      have hne : ∀ bundle ∈ rankedBundles operator operands, bundle.members ≠ [] :=
        fun bundle hb => Bundle.members_ne_nil (mem_rankedBundles.mp hb)
      have hmembers := (Bundle.ordered_members_perm operator operands).flatMap_right operations
      rw [filter_madeNodes, if_pos (by simp [isOperation, ho]), madeNodes_of_not_isSettled ho hs,
        bundled_of_not_isSettled ho hs, operations_node, List.flatMap_map,
        children_of_operation? ho]
      refine (List.perm_append_singleton _ _).trans (.trans (.cons _ ?_) List.perm_middle.symm)
      exact (operations_combine_perm hne).trans (hmembers.append_right _)

/-- Gathering the children of an operation gathers its operands. -/
theorem operation?_withGatheredChildren (e : Expr)
    : e.withGatheredChildren.operation?
      = e.operation?.map fun (operator, operands) => (operator, operands.map gathered) := by
  cases e <;> rfl

theorem isOperation_withGatheredChildren (e : Expr)
    : e.withGatheredChildren.isOperation = e.isOperation := by
  rw [isOperation, operation?_withGatheredChildren, Option.isSome_map, isOperation]

/-- The operations of a gathered tree are those that bundling makes at the operations of the tree,
once their children are gathered. -/
theorem operations_gathered_perm (e : Expr)
    : e.gathered.operations.Perm
        (e.operations.flatMap fun node => node.withGatheredChildren.madeNodes) := by
  induction e using induct_children with
  | step e ih =>
      rw [gathered_eq, operations_eq e, List.flatMap_append, List.flatMap_assoc]
      refine (operations_bundled_perm _).trans (.append ?_ ?_)
      · rw [children_withGatheredChildren, List.flatMap_map]
        exact List.Perm.flatMap_left _ ih
      · rw [filter_madeNodes, isOperation_withGatheredChildren, List.filter_singleton]
        cases e.isOperation <;> simp

end TermGrouping.Expr
