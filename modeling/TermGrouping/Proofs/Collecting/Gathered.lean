import TermGrouping.Proofs.Collecting.Nodes

/-! What collecting leaves behind. In a collected flat tree every node either has nothing to collect
or consists of bundles: nodes of its own operator that hold operands of one key, beside single
operands, all with keys of their own.
-/

namespace TermGrouping

/-- The operands that an operand of a node stands for: those of a node with the same operator, or
the operand itself. -/
def Operator.membersOf (operator : Operator) (operand : Expr) : List Expr :=
  if operand.operator? = some operator then operand.children else [operand]

/-- Operands among which those with the operator of the node are bundles: they have several
members, none of which has that operator again, and the members of one operand share a key that
no member of another operand has. -/
structure Operator.AreGathered (operator : Operator) (operands : List Expr) : Prop where
  several : ∀ bundle ∈ operands, bundle.operator? = some operator → 2 ≤ bundle.children.length
  level : ∀ bundle ∈ operands, bundle.operator? = some operator
    → ∀ m ∈ bundle.children, m.operator? ≠ some operator
  alike : ∀ bundle ∈ operands, bundle.operator? = some operator
    → ∀ a ∈ bundle.children, ∀ b ∈ bundle.children, Key.Alike (operator.key a) (operator.key b)
  apart : operands.Pairwise fun left right =>
    ∀ a ∈ operator.membersOf left, ∀ b ∈ operator.membersOf right,
      ¬ Key.Alike (operator.key a) (operator.key b)

namespace Expr

/-- A node that is settled if it holds no node of its own operator, and consists of bundles if it
does. -/
def IsGatheredNode (e : Expr) : Prop :=
  ∀ operator operands, e.operation? = some (operator, operands)
    → ((∀ operand ∈ operands, operand.operator? ≠ some operator) → e.isSettled = true)
      ∧ ((∃ operand ∈ operands, operand.operator? = some operator)
        → operator.AreGathered operands)

/-- The members of a bundle are those of the operand that it is combined to. -/
theorem membersOf_combine {operator : Operator} {members : List Expr} (hne : members ≠ [])
    (h : ∀ m ∈ members, m.operator? ≠ some operator)
    : operator.membersOf (operator.combine members) = members := by
  match members with
  | [] => exact absurd rfl hne
  | [m] => exact if_neg (h m List.mem_cons_self)
  | a :: b :: rest =>
      rw [combine_of_two_le operator (by simp)]
      simp [Operator.membersOf]

/-- Only a bundle of several members is combined to a node of the operator. -/
theorem combine_cases {operator : Operator} {members : List Expr} (hne : members ≠ [])
    (h : ∀ m ∈ members, m.operator? ≠ some operator)
    : (2 ≤ members.length ∧ operator.combine members = operator.node members)
      ∨ (operator.combine members).operator? ≠ some operator := by
  match members with
  | [] => exact absurd rfl hne
  | [m] => exact .inr (h m List.mem_cons_self)
  | a :: b :: rest => exact .inl ⟨by simp, rfl⟩

/-- Bundles of operands without the operator are gathered once they are combined. -/
theorem areGathered_combine {operator : Operator} {bundles : List Bundle}
    (hd : Bundle.AreDivision operator bundles)
    (h : ∀ bundle ∈ bundles, ∀ m ∈ bundle.members, m.operator? ≠ some operator)
    : operator.AreGathered (bundles.map fun bundle => operator.combine bundle.members) := by
  have hne {bundle : Bundle} (hb : bundle ∈ bundles) : bundle.members ≠ [] := by
    obtain ⟨first, rest, hmembers, _⟩ := hd.led bundle hb
    exact hmembers ▸ List.cons_ne_nil first rest
  have hnode {e : Expr}
      (he : e ∈ bundles.map fun bundle => operator.combine bundle.members)
      (ho : e.operator? = some operator)
      : ∃ bundle ∈ bundles, 2 ≤ bundle.members.length ∧ e.children = bundle.members := by
    obtain ⟨bundle, hb, rfl⟩ := List.mem_map.mp he
    rcases combine_cases (hne hb) (h bundle hb) with ⟨hlength, hcombine⟩ | hnot
    · exact ⟨bundle, hb, hlength, hcombine ▸ children_node operator bundle.members⟩
    · exact absurd ho hnot
  constructor
  case several =>
    intro e he ho
    obtain ⟨bundle, _, hlength, hchildren⟩ := hnode he ho
    rwa [hchildren]
  case level =>
    intro e he ho
    obtain ⟨bundle, hb, _, hchildren⟩ := hnode he ho
    rw [hchildren]
    exact h bundle hb
  case alike =>
    intro e he ho
    obtain ⟨bundle, hb, _, hchildren⟩ := hnode he ho
    rw [hchildren]
    exact fun a ha b hb' => (hd.alike bundle hb a ha).symm.trans (hd.alike bundle hb b hb')
  case apart =>
    rw [List.pairwise_map]
    refine hd.apart.imp_of_mem fun {left right} hl hr hapart a ha b hb hab => hapart ?_
    rw [membersOf_combine (hne hl) (h left hl)] at ha
    rw [membersOf_combine (hne hr) (h right hr)] at hb
    exact ((hd.alike left hl a ha).trans hab).trans (hd.alike right hr b hb).symm

/-- The members of a bundle have nothing to collect. -/
theorem isSettled_members {operator : Operator} {operands : List Expr} {bundle : Bundle}
    (h : bundle ∈ rankedBundles operator operands)
    : (operator.node bundle.members).isSettled = true := by
  have halike := (areDivision_rankedBundles operator operands).alike bundle h
  simp only [isSettled, operation?_node, Bool.not_eq_true', ← Bool.not_eq_true,
    Bundle.areCollectable_iff]
  rintro ⟨⟨a, ha, b, hb, hab⟩, _⟩
  exact hab ((halike a ha).symm.trans (halike b hb))

/-- All nodes that bundling makes at a node that can keep its children are gathered. -/
theorem isGatheredNode_of_made {e : Expr} (h : e.isNormalNode = true)
    : ∀ made ∈ e.madeNodes, made.IsGatheredNode := by
  cases hs : e.isSettled with
  | true =>
      intro made hm operator operands ho
      rw [madeNodes_of_isSettled hs, List.mem_singleton] at hm
      subst hm
      refine ⟨fun _ => hs, ?_⟩
      rintro ⟨operand, hmem, heq⟩
      exact absurd heq (operator?_ne_of_isNormalNode h ho operand hmem)
  | false =>
      obtain ⟨operator, operands, ho⟩ := operation?_of_not_isSettled hs
      have hd := areDivision_rankedBundles operator operands
      have hmembers := operator?_ne_of_mem_members h ho
      intro made hmade operator' operands' ho'
      rw [madeNodes_of_not_isSettled ho hs, bundled_of_not_isSettled ho hs] at hmade
      rcases List.mem_cons.mp hmade with rfl | hmade
      · rw [operation?_node] at ho'
        cases ho'
        refine ⟨fun hnone => ?_, fun _ => areGathered_combine hd hmembers⟩
        obtain ⟨bundle, hb, hlength⟩ := (several_of_not_isSettled ho hs).2
        refine absurd ?_ (hnone _ (List.mem_map_of_mem hb))
        rw [combine_of_two_le operator hlength, operator?_node]
      · obtain ⟨bundle, hb, rfl⟩ := List.mem_map.mp hmade
        have hb := (List.mem_filter.mp hb).1
        rw [operation?_node] at ho'
        cases ho'
        refine ⟨fun _ => isSettled_members hb, ?_⟩
        rintro ⟨m, hm, heq⟩
        exact absurd heq (hmembers bundle hb m hm)

/-- Whether a well-formed node is collectable tells whether it is not settled. -/
theorem WellFormed.isCollectable_eq {e : Expr} (h : e.WellFormed)
    : e.isCollectable = .ok !e.isSettled := by
  unfold isCollectable isSettled isOperation
  cases ho : e.operation? with
  | none => rfl
  | some operation =>
      simp only [h.bundles_eq_ok ho, Option.isSome_some, if_true, Bool.not_not]
      rfl

/-- All subtrees of a well-formed tree are well formed. -/
theorem WellFormed.of_mem_subtrees {e : Expr} (h : e.WellFormed)
    : ∀ node ∈ e.subtrees, node.WellFormed :=
  forall_subtrees_of_children (fun e he => ((wellFormed_iff e).mp he).2) h

end Expr

/-- In a tree that is fully collected, every sum or product without an operand of its own operator
has nothing to collect, and every other one consists of bundles and single operands. -/
def Expr.IsFullyCollected (e : Expr) : Prop :=
  ∀ node ∈ e.subtrees, ∀ operator operands, node.operation? = some (operator, operands)
    → ((∀ operand ∈ operands, operand.operator? ≠ some operator)
        → node.isCollectable = .ok false)
      ∧ ((∃ operand ∈ operands, operand.operator? = some operator)
        → operator.AreGathered operands)

/-- Collecting a flat tree succeeds, leaves nothing uncollected and mixes no bundle. -/
theorem collectDeep_fully {e : Expr} (h : e.flatten.WellFormed)
    : ∃ collected, e.flatten.collectDeep = .ok collected ∧ collected.value.IsFullyCollected := by
  obtain ⟨hcollect, hwell⟩ := h.collectDeep_eq
  have hgathered : ∀ node ∈ e.flatten.gathered.subtrees, node.IsGatheredNode := by
    rw [Expr.forall_subtrees_gathered]
    intro node hn
    apply Expr.isGatheredNode_of_made
    rw [Expr.isNormalNode_withGatheredChildren]
    exact Expr.isNormal_flatten e node hn
  refine ⟨_, hcollect, fun node hn operator operands ho => ?_⟩
  obtain ⟨hsettled, hbundles⟩ := hgathered node hn operator operands ho
  refine ⟨fun hnone => ?_, hbundles⟩
  rw [(hwell.of_mem_subtrees node hn).isCollectable_eq, hsettled hnone]
  rfl

/-- Bundles of a sum that stands among the factors of a product with bundles of its own. -/
theorem collectDeep_fully_nested
    : let x := Expr.symbol "x"
      let sum := Expr.sum [.constant .one, x, .group (.sum [.constant .two, x]), .call "f" [x]]
      let e :=
        Expr.product [sum, .power x sum, .constant .two, .group (.product [x, sum] true)] true
      e.flatten.WellFormed
      ∧ ∃ collected,
          e.flatten.collectDeep = .ok collected ∧ collected.value.IsFullyCollected := by
  intro x sum e
  have h : e.flatten.WellFormed := by decide
  exact ⟨h, collectDeep_fully h⟩

end TermGrouping
