import TermGrouping.Proofs.Collecting.Nodes

/-! Flattening a collected tree. It takes every bundle apart again but leaves the members where they
stand, bundle by bundle; so collecting once more finds the same bundles in the same order, and gives
back the collected tree in all its attributes.
-/

namespace TermGrouping

namespace Operator

/-- Whether an operand can stay in a normal node with the operator. -/
def isNormalOperand : Operator → Expr → Bool
  | sum => Expr.isNormalSummand
  | product => Expr.isNormalFactor

/-- What an operand contributes to a flat node with the operator. -/
def parts : Operator → Expr → List Expr
  | sum => Expr.summands
  | product => Expr.factors

/-- A normal operand contributes itself and nothing else to a flat node. -/
theorem parts_of_isNormalOperand {operator : Operator} {e : Expr}
    (h : operator.isNormalOperand e = true)
    : operator.parts e = [e] := by
  cases operator with
  | sum => exact Expr.summands_of_isNormalSummand h
  | product => exact (Expr.factors_of_isNormalFactor h).1

/-- A node with the operator contributes its operands. -/
theorem parts_node (operator : Operator) (operands : List Expr)
    : operator.parts (operator.node operands) = operands := by
  cases operator <;> rfl

/-- A flat node holds what its flat operands contribute. -/
theorem flatten_node (operator : Operator) (operands : List Expr)
    : (operator.node operands).flatten
      = operator.node (operands.flatMap fun operand => operator.parts operand.flatten) := by
  cases operator <;>
    simp [node, parts, Expr.flatten, Expr.flattenAll_eq_map, Expr.spliceProduct, List.flatMap_map]

end Operator

namespace Expr

/-- The operands of a normal sum or product are normal operands. -/
theorem isNormalOperand_of_isNormalNode {e : Expr} {operator : Operator} {operands : List Expr}
    (h : e.isNormalNode = true) (ho : e.operation? = some (operator, operands))
    : ∀ operand ∈ operands, operator.isNormalOperand operand = true := by
  cases e <;> cases ho <;> exact List.all_eq_true.mp h

theorem SameKind.isNormalOperand_eq {a b : Expr} (h : SameKind a b) (operator : Operator)
    : operator.isNormalOperand b = operator.isNormalOperand a := by
  cases operator with
  | sum => exact h.isNormalSummand_eq
  | product => exact h.isNormalFactor_eq

theorem SameKind.value?_eq {a b : Expr} (h : SameKind a b) : b.value? = a.value? := by
  cases h <;> rfl

/-- Flattening keeps the kind of a node, if that is a kind of normal node. -/
theorem SameKind.flatten {a b : Expr} (h : SameKind a b) (hnode : a.isNormalNode = true)
    (hvalue : ∀ child ∈ a.children, child.value? = none)
    : SameKind b b.flatten := by
  cases h with
  | @group a b hab =>
      have hcontent : b.isNormalContent = true := hab.isNormalContent_eq ▸ hnode
      have hflat : SameKind b b.flatten := by
        cases b with
        | group => cases hcontent
        | _ => constructor
      have hnone : b.flatten.value? = none := by
        rw [hflat.value?_eq, hab.value?_eq]
        exact hvalue a List.mem_cons_self
      rw [Expr.flatten, bracketed_of_isNormalContent (hflat.isNormalContent_eq ▸ hcontent) hnone]
      exact .group hflat
  | _ => constructor

theorem WellFormed.children_value? {e : Expr} (h : e.WellFormed)
    : ∀ child ∈ e.children, child.value? = none := by
  intro child hc
  have hchild := ((wellFormed_iff e).mp h).2 child hc
  exact hchild.value?_eq_none (by rw [subtrees_eq]; exact List.mem_cons_self)

/-- Gathering the children of a rebuilt node gathers what it was rebuilt from. -/
theorem withGatheredChildren_rebuild (e : Expr) (f : Expr → Expr)
    : (e.rebuild (e.children.map f)).withGatheredChildren
      = e.rebuild (e.children.map fun child => (f child).gathered) := by
  cases e <;> simp [withGatheredChildren, rebuild, children, Function.comp_def]

@[simp]
theorem withGatheredChildren_node (operator : Operator) (operands : List Expr)
    : (operator.node operands).withGatheredChildren = operator.node (operands.map gathered) := by
  cases operator <;> rfl

/-- Combined operands contribute to a flat node what the operands do. -/
theorem parts_combine {operator : Operator} {operands : List Expr} (hne : operands ≠ [])
    (h : ∀ operand ∈ operands, operator.isNormalOperand operand.flatten = true)
    : operator.parts (operator.combine operands).flatten = operands.map flatten := by
  have hparts (operand : Expr) (ho : operand ∈ operands)
      : operator.parts operand.flatten = [operand.flatten] :=
    Operator.parts_of_isNormalOperand (h operand ho)
  match operands with
  | [] => exact absurd rfl hne
  | [operand] => exact hparts operand List.mem_cons_self
  | a :: b :: rest =>
      rw [combine_of_two_le operator (by simp), Operator.flatten_node, Operator.parts_node,
        List.flatMap_congr hparts, ← List.map_eq_flatMap]

/-- Bundles of operands that stand bundle by bundle are the same bundles. -/
theorem rankedBundles_members (operator : Operator) (operands : List Expr)
    : rankedBundles operator ((rankedBundles operator operands).flatMap Bundle.members)
      = rankedBundles operator operands := by
  have hd := areDivision_rankedBundles operator operands
  exact (congrArg (Bundle.ordered operator) hd.ofOperands_members).trans
    (Bundle.ordered_ordered operator _)

/-- A node whose operands stand bundle by bundle becomes the same node of bundles. -/
theorem bundled_members {e : Expr} {operator : Operator} {operands : List Expr}
    (ho : e.operation? = some (operator, operands)) (h : e.isSettled = false)
    : (operator.node ((rankedBundles operator operands).flatMap Bundle.members)).bundled.value
      = e.bundled.value := by
  have hperm := Bundle.ordered_members_perm operator operands
  have hs : (operator.node
      ((rankedBundles operator operands).flatMap Bundle.members)).isSettled = false := by
    have hc := areCollectable_of_not_isSettled ho h
    rw [← Bundle.areCollectable_perm hperm] at hc
    simpa only [isSettled, operation?_node, Bool.not_eq_false', rankedBundles] using hc
  rw [bundled_of_not_isSettled (operation?_node _ _) hs, bundled_of_not_isSettled ho h,
    rankedBundles_members]

/-- Flattening a node whose operands were bundled puts the members of the bundles side by side. -/
theorem flatten_bundled {e : Expr} {operator : Operator} {operands : List Expr}
    (ho : e.operation? = some (operator, operands)) (h : e.isSettled = false)
    (hoperands : ∀ operand ∈ operands, operator.isNormalOperand operand.flatten = true)
    : e.bundled.value.flatten
      = operator.node (((rankedBundles operator operands).flatMap Bundle.members).map flatten)
      := by
  have hparts (bundle : Bundle) (hb : bundle ∈ rankedBundles operator operands)
      : operator.parts (operator.combine bundle.members).flatten = bundle.members.map flatten :=
    parts_combine (Bundle.members_ne_nil (mem_rankedBundles.mp hb)) fun operand hm =>
      hoperands operand (mem_of_mem_members hb hm)
  rw [bundled_of_not_isSettled ho h, Operator.flatten_node, List.flatMap_map,
    List.flatMap_congr hparts, List.map_flatMap]

/-- A node with bundled operands comes back from its flat form if its children come back from
theirs, which are of the same kinds. -/
theorem gathered_flatten_bundled {e : Expr} (hnode : e.isNormalNode = true) (hwell : e.WellFormed)
    (hkind : ∀ child ∈ e.children, SameKind child child.flatten)
    (hback : ∀ child ∈ e.children, child.flatten.gathered = child)
    : e.bundled.value.flatten.gathered = e.bundled.value := by
  cases hs : e.isSettled with
  | true =>
      have hflat : e.flatten = e.rebuild (e.children.map flatten) := by
        refine flatten_eq_rebuild ((isNormalNode_rebuild hkind).trans hnode) fun child hc => ?_
        rw [(hkind child hc).value?_eq]
        exact hwell.children_value? child hc
      rw [bundled_of_isSettled hs, hflat, gathered_eq, withGatheredChildren_rebuild,
        List.map_congr_left hback, List.map_id', rebuild_children, bundled_of_isSettled hs]
  | false =>
      -- The flat node has the members in the order of the bundles, which is kept from then on.
      obtain ⟨operator, operands, ho⟩ := operation?_of_not_isSettled hs
      rw [children_of_operation? ho] at hkind hback
      have hflat := flatten_bundled ho hs fun operand hm => by
        rw [(hkind operand hm).isNormalOperand_eq]
        exact isNormalOperand_of_isNormalNode hnode ho operand hm
      have hmembers (m : Expr)
          (hm : m ∈ (rankedBundles operator operands).flatMap Bundle.members)
          : m.flatten.gathered = m :=
        hback m ((Bundle.ordered_members_perm operator operands).subset hm)
      rw [hflat, gathered_eq, withGatheredChildren_node, List.map_map, Function.comp_def,
        List.map_congr_left hmembers, List.map_id', bundled_members ho hs]

/-- Gathering the flat form of a gathered normal tree gives the gathered tree again. -/
theorem gathered_flatten_gathered {e : Expr} (hnormal : e.IsNormal) (hwell : e.WellFormed)
    : e.gathered.flatten.gathered = e.gathered := by
  induction e using induct_children with
  | step e ih =>
      obtain ⟨hnode, hnormal⟩ := (isNormal_iff e).mp hnormal
      have hchildren := ((wellFormed_iff e).mp hwell).2
      rw [gathered_eq e]
      apply gathered_flatten_bundled
      · rw [isNormalNode_withGatheredChildren, hnode]
      · exact hwell.withGatheredChildren
      · rw [children_withGatheredChildren, List.forall_mem_map]
        intro child hc
        exact (sameKind_gathered child).flatten ((isNormal_iff child).mp (hnormal child hc)).1
          (hchildren child hc).children_value?
      · rw [children_withGatheredChildren, List.forall_mem_map]
        exact fun child hc => ih child hc (hnormal child hc) (hchildren child hc)

end Expr

/-- Collecting, flattening and collecting again is collecting. -/
theorem collectDeep_flatten_collectDeep {e : Expr} (h : e.WellFormed)
    : ∃ flat once reflat again,
        Checked.flatten e = .ok flat ∧ flat.collectDeep = .ok once
        ∧ Checked.flatten once.value = .ok reflat ∧ reflat.collectDeep = .ok again
        ∧ again.value = once.value := by
  obtain ⟨honce, hwell⟩ := h.flatten.collectDeep_eq
  exact ⟨_, _, _, _, Checked.flatten_eq_ok h, honce, Checked.flatten_eq_ok hwell,
    hwell.flatten.collectDeep_eq.1,
    Expr.gathered_flatten_gathered (Expr.isNormal_flatten e) h.flatten⟩

/-- The statement at a product of sums whose bundles are taken apart at two depths, with a fraction
that keeps its text and a product that stays implicit. -/
theorem collectDeep_flatten_collectDeep_nested
    : let x := Expr.symbol "x"
      let fraction := Expr.constant ⟨2, true, some "4/2"⟩
      let sum := Expr.sum [fraction, x, .constant .two, .product [fraction, x] true, fraction]
      let e := Expr.product
        [.power x sum, fraction, .group sum, .group (.product [x, fraction] true)] true
      e.WellFormed
      ∧ ∃ flat once reflat again,
          Checked.flatten e = .ok flat ∧ flat.collectDeep = .ok once
          ∧ Checked.flatten once.value = .ok reflat ∧ reflat.collectDeep = .ok again
          ∧ again.value = once.value := by
  intro x fraction sum e
  have h : e.WellFormed := by decide
  exact ⟨h, collectDeep_flatten_collectDeep h⟩

end TermGrouping
