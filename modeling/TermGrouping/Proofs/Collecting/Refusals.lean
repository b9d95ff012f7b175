import TermGrouping.Proofs.Collecting.Nodes

/-! Trees that collecting refuses. The checks of collecting go through a tree in preorder: the first
faulty node decides the error, whatever has been rewritten before it, and no step behind the checks
can fail.
-/

namespace TermGrouping

namespace Expr

/-- The fault of the first faulty node of a tree in preorder. -/
def firstFault? (e : Expr) : Option TreeError := e.subtrees.findSome? fault?

/-- The first fault among the members of lists is that of the first list that has one. -/
theorem findSome?_flatMap {α β γ : Type} (f : β → Option γ) (g : α → List β) (l : List α)
    : (l.flatMap g).findSome? f = l.findSome? fun a => (g a).findSome? f := by
  induction l with
  | nil => rfl
  | cons a l ih =>
      rw [List.flatMap_cons, List.findSome?_append, ih, List.findSome?_cons]
      cases (g a).findSome? f <;> rfl

/-- The first fault is that of the root, or else the first one of the children. -/
theorem firstFault?_eq (e : Expr)
    : e.firstFault? = e.fault?.or (e.children.findSome? firstFault?) := by
  rw [firstFault?, subtrees_eq, List.findSome?_cons, findSome?_flatMap]
  cases e.fault? <;> rfl

/-- The first fault below a node without a fault is the first one among its children. -/
theorem firstFault?_of_fault?_eq_none {e : Expr} (h : e.fault? = none)
    : e.firstFault? = e.children.findSome? firstFault? := by
  rw [firstFault?_eq, h]
  rfl

/-- A tree without faults is well formed. -/
theorem firstFault?_eq_none {e : Expr} : e.firstFault? = none ↔ e.WellFormed :=
  List.findSome?_eq_none_iff

/-- A list of trees is refused with the first fault among them, if each tree is refused with its
own: the trees before it are well formed, so collecting them succeeds. -/
theorem collectDeepAll_eq_error {es : List Expr} {error : TreeError}
    (h : es.findSome? firstFault? = some error)
    (ih : ∀ e ∈ es, ∀ fault, e.firstFault? = some fault → e.collectDeep = .error fault)
    : collectDeepAll es = .error error := by
  induction es with
  | nil => cases h
  | cons e es ihes =>
      obtain ⟨ihe, ihrest⟩ := List.forall_mem_cons.mp ih
      rw [List.findSome?_cons] at h
      cases hf : e.firstFault? with
      | some fault =>
          rw [hf] at h
          cases h
          rw [collectDeepAll, ihe _ hf]
          rfl
      | none =>
          rw [hf] at h
          rw [collectDeepAll, (firstFault?_eq_none.mp hf).collectDeep_eq.1, ihes h ihrest]
          rfl

/-- Collecting refuses a tree with its first fault. -/
theorem collectDeep_eq_error {e : Expr} {error : TreeError} (h : e.firstFault? = some error)
    : e.collectDeep = .error error := by
  induction e using Expr.induct generalizing error with
  | constant | symbol => cases h
  | foreign value =>
      cases h
      rfl
  | group inner ih =>
      rw [firstFault?_of_fault?_eq_none rfl] at h
      have hinner : inner.firstFault? = some error := by simpa [children] using h
      rw [collectDeep, ih hinner]
      rfl
  | call name arguments ih =>
      rw [firstFault?_of_fault?_eq_none rfl] at h
      have hkids : arguments.findSome? firstFault? = some error := h
      rw [collectDeep, collectDeepAll_eq_error hkids fun e he fault => ih e he]
      rfl
  | power a b iha ihb | quotient a b iha ihb =>
      rw [firstFault?_of_fault?_eq_none rfl, children, List.findSome?_cons] at h
      cases hf : a.firstFault? with
      | some fault =>
          rw [hf] at h
          cases h
          rw [collectDeep, iha hf]
          rfl
      | none =>
          rw [hf] at h
          have hb : b.firstFault? = some error := by simpa using h
          rw [collectDeep, (firstFault?_eq_none.mp hf).collectDeep_eq.1, ihb hb]
          rfl
  | sum operands ih | product operands implicit ih =>
      rw [collectDeep, check]
      -- The root is checked before its operands are visited.
      split
      · next fault hf =>
        rw [firstFault?_eq, hf] at h
        cases h
        rfl
      · next hf =>
        rw [firstFault?_of_fault?_eq_none hf] at h
        have hkids : operands.findSome? firstFault? = some error := h
        rw [collectDeepAll_eq_error hkids fun e he fault => ih e he]
        rfl

/-- A node that is refused whatever its operands are, with the error that says why: a plain value,
or a sum or a product of fewer than two operands. -/
inductive IsRefused : Expr → TreeError → Prop where
  | value (value : Value) : IsRefused (.foreign value) (.notExpression value)
  | operands {e : Expr} {operator : Operator} {operands : List Expr}
    : e.operation? = some (operator, operands) → operands.length < 2
      → IsRefused e (.tooFewOperands operator operands.length)

/-- The nodes that are refused are those with a fault. -/
theorem isRefused_iff {e : Expr} {error : TreeError}
    : e.IsRefused error ↔ e.fault? = some error := by
  constructor
  · rintro (value | ⟨ho, hlength⟩)
    · rfl
    · cases e <;> cases ho <;>
        simp [fault?, Expr.value?, operation?, Operator.fewestOperands, hlength]
  · intro h
    cases e with
    | foreign value =>
        cases h
        exact .value value
    | sum operands | product operands =>
        simp only [fault?, Expr.value?, operation?] at h
        split at h
        · next hlength =>
          cases h
          exact .operands rfl hlength
        · cases h
    | _ => cases h

end Expr

/-- Collecting refuses exactly the trees with a plain value or with a sum or a product of fewer than
two operands, and the error is that of the first such node in preorder. The result for any other
tree is well formed, and its root is of the same kind. -/
theorem collectDeep_refusals (e : Expr)
    : ((∃ error, e.collectDeep = .error error)
        ↔ ∃ node ∈ e.subtrees, ∃ error, node.IsRefused error)
      ∧ (∀ error,
          e.collectDeep = .error error
          ↔ ∃ before node after, e.subtrees = before ++ node :: after
              ∧ (∀ earlier ∈ before, ∀ other, ¬ earlier.IsRefused other)
              ∧ node.IsRefused error)
      ∧ ∀ collected, e.collectDeep = .ok collected
          → collected.value.WellFormed ∧ collected.value.kindName = e.kindName := by
  have herror (error : TreeError) : e.collectDeep = .error error ↔ e.firstFault? = some error := by
    refine ⟨fun h => ?_, Expr.collectDeep_eq_error⟩
    cases hf : e.firstFault? with
    | none =>
        rw [(Expr.firstFault?_eq_none.mp hf).collectDeep_eq.1] at h
        cases h
    | some fault =>
        rw [Expr.collectDeep_eq_error hf] at h
        cases h
        rfl
  refine ⟨?_, fun error => ?_, fun collected h => ?_⟩
  · simp only [herror, Expr.isRefused_iff, ← Option.isSome_iff_exists, Expr.firstFault?,
      List.findSome?_isSome_iff]
  · rw [herror, Expr.firstFault?, List.findSome?_eq_some_iff]
    simp only [Expr.isRefused_iff, Option.eq_none_iff_forall_ne_some, ne_eq]
    exact exists₃_congr fun before node after => and_congr_right fun _ => and_comm
  · cases hf : e.firstFault? with
    | none =>
        obtain ⟨hcollect, hwell⟩ := (Expr.firstFault?_eq_none.mp hf).collectDeep_eq
        rw [hcollect] at h
        cases h
        exact ⟨hwell, (Expr.sameKind_gathered e).kindName_eq⟩
    | some fault =>
        rw [Expr.collectDeep_eq_error hf] at h
        cases h

/-- A product of one factor, which is a plain value, behind a sum that is collected and in front of
a sum without operands; and that sum in front of a power. -/
theorem collectDeep_refusals_product
    : let x := Expr.symbol "x"
      let sum := Expr.sum [x, .constant .two, x]
      let factor := Expr.product [.foreign (.integer 3)] true
      let refused := Expr.call "f" [sum, .group factor, .sum []]
      let accepted := Expr.sum [sum, .power x sum]
      refused.collectDeep = .error (.tooFewOperands .product 1)
      ∧ ∃ collected, accepted.collectDeep = .ok collected
          ∧ collected.value.WellFormed ∧ collected.value.kindName = "Sum" := by
  intro x sum factor refused accepted
  constructor
  · have hfirst := (collectDeep_refusals refused).2.1 (.tooFewOperands .product 1)
    rw [hfirst]
    simp only [Expr.isRefused_iff]
    refine ⟨refused :: sum.subtrees ++ [.group factor], factor, [.foreign (.integer 3), .sum []],
      rfl, ?_, rfl⟩
    have hnone : ∀ earlier ∈ refused :: sum.subtrees ++ [.group factor], earlier.fault? = none := by
      decide
    intro earlier he other
    simp [hnone earlier he]
  · have hwell : accepted.WellFormed := by decide
    have hcollect := hwell.collectDeep_eq.1
    exact ⟨_, hcollect, (collectDeep_refusals accepted).2.2 _ hcollect⟩

end TermGrouping
