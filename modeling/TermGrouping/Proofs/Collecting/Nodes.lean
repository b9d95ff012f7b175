import TermGrouping.Proofs.Collected
import TermGrouping.Proofs.Collecting.Division
import TermGrouping.Proofs.Flattening.Normality

/-! The nodes of collected trees. Each node of a tree becomes one node of the collected tree, of
the same kind, and a node of its own for each bundle of several operands; a property of all nodes
of the collected tree is one of the nodes that are made at each node of the tree.
-/

namespace TermGrouping.Expr

-----------------------------------------------------------------------------------------
-- Kinds of nodes
-----------------------------------------------------------------------------------------

/-- Trees whose roots are of one kind, the contents of brackets too. Leaves are the same. -/
inductive SameKind : Expr → Expr → Prop where
  | constant (literal : Literal) : SameKind (constant literal) (constant literal)
  | symbol (name : String) : SameKind (symbol name) (symbol name)
  | power (b x b' x' : Expr) : SameKind (power b x) (power b' x')
  | sum (as bs : List Expr) : SameKind (sum as) (sum bs)
  | product (as bs : List Expr) (i j : Bool) : SameKind (product as i) (product bs j)
  | group {a b : Expr} : SameKind a b → SameKind (group a) (group b)
  | call (name : String) (as bs : List Expr) : SameKind (call name as) (call name bs)
  | quotient (n d n' d' : Expr) : SameKind (quotient n d) (quotient n' d')
  | foreign (value : Value) : SameKind (foreign value) (foreign value)

namespace SameKind

theorem refl (e : Expr) : SameKind e e := by
  induction e using Expr.induct with
  | group _ ih => exact .group ih
  | _ => constructor

/-- Being of one kind is transitive, by induction over the brackets of the first pair. -/
theorem trans {a b c : Expr} (hab : SameKind a b) (hbc : SameKind b c) : SameKind a c := by
  induction hab generalizing c with
  | group _ ih =>
      cases hbc with
      | group hbc => exact .group (ih hbc)
  | _ =>
      cases hbc
      constructor

variable {a b : Expr} (h : SameKind a b)
include h

theorem kindName_eq : b.kindName = a.kindName := by
  cases h <;> rfl

theorem isNormalSummand_eq : b.isNormalSummand = a.isNormalSummand := by
  cases h <;> rfl

theorem isNormalFactor_eq : b.isNormalFactor = a.isNormalFactor := by
  cases h with
  | group h => cases h <;> rfl
  | _ => rfl

theorem isNormalContent_eq : b.isNormalContent = a.isNormalContent := by
  cases h <;> rfl

theorem isNormalExponent_eq : b.isNormalExponent = a.isNormalExponent := by
  cases h with
  | group h => cases h <;> rfl
  | _ => rfl

theorem isNormalNumerator_eq : b.isNormalNumerator = a.isNormalNumerator := by
  cases h with
  | group h => cases h <;> rfl
  | _ => rfl

end SameKind

/-- A node rebuilt from children of the same kinds can keep them if it could keep its own. -/
theorem isNormalNode_rebuild {e : Expr} {f : Expr → Expr}
    (h : ∀ child ∈ e.children, SameKind child (f child))
    : (e.rebuild (e.children.map f)).isNormalNode = e.isNormalNode := by
  have hall {p : Expr → Bool} (hp : ∀ child ∈ e.children, p (f child) = p child)
      : (e.children.map f).all p = e.children.all p := by
    rw [Bool.eq_iff_iff, List.all_eq_true, List.all_eq_true, List.forall_mem_map]
    exact forall₂_congr fun child hc => by rw [hp child hc]
  cases e with
  | constant | symbol | call | foreign => rfl
  | power base exponent => exact (h exponent (by simp [children])).isNormalExponent_eq
  | quotient numerator denominator =>
      have hn := (h numerator (by simp [children])).isNormalNumerator_eq
      have hd := (h denominator (by simp [children])).isNormalExponent_eq
      simp [rebuild, children, isNormalNode, hn, hd]
  | group inner => exact (h inner (by simp [children])).isNormalContent_eq
  | sum operands => exact hall fun o ho => (h o ho).isNormalSummand_eq
  | product operands implicit => exact hall fun o ho => (h o ho).isNormalFactor_eq

/-- A node that can keep its children has none of its own operator. -/
theorem operator?_ne_of_isNormalNode {e : Expr} {operator : Operator} {operands : List Expr}
    (h : e.isNormalNode = true) (ho : e.operation? = some (operator, operands))
    : ∀ operand ∈ operands, operand.operator? ≠ some operator := by
  intro operand hm hoperator
  cases e with
  | sum operands =>
      cases ho
      have hsummand := List.all_eq_true.mp h operand hm
      cases operand <;> cases hoperator
      cases hsummand
  | product operands implicit =>
      cases ho
      have hfactor := List.all_eq_true.mp h operand hm
      cases operand <;> cases hoperator
      cases hfactor
  | _ => cases ho

-----------------------------------------------------------------------------------------
-- Bundling the operands of one node
-----------------------------------------------------------------------------------------

/-- Whether the operands of a node, if it is a sum or a product, are not worth collecting. -/
def isSettled (e : Expr) : Bool :=
  match e.operation? with
  | none => true
  | some (operator, operands) => !Bundle.areCollectable (Bundle.ofOperands operator operands)

def rankedBundles (operator : Operator) (operands : List Expr) : List Bundle :=
  Bundle.ordered operator (Bundle.ofOperands operator operands)

/-- The order of the ranks neither adds nor loses a bundle. -/
theorem mem_rankedBundles {operator : Operator} {operands : List Expr} {bundle : Bundle}
    : bundle ∈ rankedBundles operator operands ↔ bundle ∈ Bundle.ofOperands operator operands :=
  (Bundle.ordered_perm operator operands).mem_iff

/-- Bundles in the order of their ranks are a division of the operands. -/
theorem areDivision_rankedBundles (operator : Operator) (operands : List Expr)
    : Bundle.AreDivision operator (rankedBundles operator operands) :=
  Bundle.areDivision_ordered operator operands

/-- The members of ranked bundles are operands. -/
theorem mem_of_mem_members {operator : Operator} {operands : List Expr} {bundle : Bundle}
    (h : bundle ∈ rankedBundles operator operands) {m : Expr} (hm : m ∈ bundle.members)
    : m ∈ operands :=
  Bundle.members_subset (mem_rankedBundles.mp h) hm

/-- Every operand is a member of a ranked bundle, because ranking loses none. -/
theorem exists_mem_rankedBundles (operator : Operator) {operands : List Expr} {operand : Expr}
    (h : operand ∈ operands)
    : ∃ bundle ∈ rankedBundles operator operands, operand ∈ bundle.members :=
  List.mem_flatMap.mp ((Bundle.ordered_members_perm operator operands).mem_iff.mpr h)

/-- No member of a bundle of a node that can keep its children has the operator of the node. -/
theorem operator?_ne_of_mem_members {e : Expr} {operator : Operator} {operands : List Expr}
    (h : e.isNormalNode = true) (ho : e.operation? = some (operator, operands))
    : ∀ bundle ∈ rankedBundles operator operands, ∀ m ∈ bundle.members,
        m.operator? ≠ some operator :=
  fun _ hb m hm => operator?_ne_of_isNormalNode h ho m (mem_of_mem_members hb hm)

/-- A settled node stays as it is. -/
theorem bundled_of_isSettled {e : Expr} (h : e.isSettled = true) : e.bundled.value = e := by
  unfold isSettled at h
  unfold bundled
  split
  · rfl
  · next ho =>
    rw [ho] at h
    rw [if_neg (by simpa using h)]

/-- Several operands combine to a node. -/
theorem combine_of_two_le (operator : Operator) {operands : List Expr} (h : 2 ≤ operands.length)
    : operator.combine operands = operator.node operands := by
  match operands with
  | [] | [_] => simp at h
  | _ :: _ :: _ => rfl

/-- Only sums and products have anything to collect. -/
theorem operation?_of_not_isSettled {e : Expr} (h : e.isSettled = false)
    : ∃ operator operands, e.operation? = some (operator, operands) := by
  cases ho : e.operation? with
  | none => simp [isSettled, ho] at h
  | some operation => exact ⟨operation.1, operation.2, rfl⟩

/-- The bundles of a node that is not settled are worth collecting. -/
theorem areCollectable_of_not_isSettled {e : Expr} {operator : Operator} {operands : List Expr}
    (ho : e.operation? = some (operator, operands)) (h : e.isSettled = false)
    : Bundle.areCollectable (Bundle.ofOperands operator operands) = true := by
  simpa [isSettled, ho] using h

/-- A node that is not settled has several bundles, one of them with several members. -/
theorem several_of_not_isSettled {e : Expr} {operator : Operator} {operands : List Expr}
    (ho : e.operation? = some (operator, operands)) (h : e.isSettled = false)
    : 2 ≤ (rankedBundles operator operands).length
      ∧ ∃ bundle ∈ rankedBundles operator operands, 2 ≤ bundle.members.length := by
  have hc := areCollectable_of_not_isSettled ho h
  simp only [Bundle.areCollectable, Bool.and_eq_true, decide_eq_true_eq, List.any_eq_true] at hc
  rw [rankedBundles, (Bundle.ordered_perm operator operands).length_eq]
  exact ⟨hc.1, hc.2.imp fun bundle hb => ⟨mem_rankedBundles.mpr hb.1, hb.2⟩⟩

/-- A node that is not settled becomes the node of its bundles. -/
theorem bundled_of_not_isSettled {e : Expr} {operator : Operator} {operands : List Expr}
    (ho : e.operation? = some (operator, operands)) (h : e.isSettled = false)
    : e.bundled.value
      = operator.node
          ((rankedBundles operator operands).map fun bundle => operator.combine bundle.members)
    := by
  have hc := areCollectable_of_not_isSettled ho h
  have hlength := (several_of_not_isSettled ho h).1
  unfold bundled
  simp only [ho, if_pos hc]
  exact combine_of_two_le operator (by rwa [List.length_map])

@[simp]
theorem operation?_node (operator : Operator) (operands : List Expr)
    : (operator.node operands).operation? = some (operator, operands) := by
  cases operator <;> rfl

@[simp]
theorem operator?_node (operator : Operator) (operands : List Expr)
    : (operator.node operands).operator? = some operator := by
  cases operator <;> rfl

@[simp]
theorem children_node (operator : Operator) (operands : List Expr)
    : (operator.node operands).children = operands := by
  cases operator <;> rfl

/-- Bundling leaves fewer children at a node that is not settled. -/
theorem length_children_bundled_lt {e : Expr} (h : e.isSettled = false)
    : e.bundled.value.children.length < e.children.length := by
  obtain ⟨operator, operands, ho⟩ := operation?_of_not_isSettled h
  rw [bundled_of_not_isSettled ho h, children_node, List.length_map, children_of_operation? ho]
  exact Bundle.length_ordered_lt (areCollectable_of_not_isSettled ho h)

/-- Bundling leaves a node as it is exactly if the node is settled. -/
theorem bundled_eq_self_iff {e : Expr} : e.bundled.value = e ↔ e.isSettled = true := by
  refine ⟨fun heq => ?_, bundled_of_isSettled⟩
  cases hs : e.isSettled with
  | true => rfl
  | false =>
      have hfewer := length_children_bundled_lt hs
      rw [heq] at hfewer
      exact absurd hfewer (Nat.lt_irrefl _)

/-- A sum or a product keeps its kind when its operands are replaced. -/
theorem sameKind_node {e : Expr} {operator : Operator} {operands : List Expr}
    (h : e.operation? = some (operator, operands)) (others : List Expr)
    : SameKind e (operator.node others) := by
  cases e <;> cases h <;> constructor

/-- Bundling the operands of a node keeps its kind. -/
theorem sameKind_bundled (e : Expr) : SameKind e e.bundled.value := by
  cases hs : e.isSettled with
  | true => rw [bundled_of_isSettled hs]; exact .refl e
  | false =>
      obtain ⟨operator, operands, ho⟩ := operation?_of_not_isSettled hs
      rw [bundled_of_not_isSettled ho hs]
      exact sameKind_node ho _

-----------------------------------------------------------------------------------------
-- Bundling the operands of all nodes
-----------------------------------------------------------------------------------------

/-- The tree with the operands of all its nodes bundled. -/
def gathered (e : Expr) : Expr := e.bundledDeep.value

def withGatheredChildren (e : Expr) : Expr := e.rebuild (e.children.map gathered)

/-- Gathering goes through the children of a node and then bundles its operands. -/
theorem gathered_eq (e : Expr) : e.gathered = e.withGatheredChildren.bundled.value := by
  cases e with
  | sum | product | call =>
      simp only [gathered, bundledDeep, bundledDeepAll_value]
      rfl
  | _ => rfl

theorem children_withGatheredChildren (e : Expr)
    : e.withGatheredChildren.children = e.children.map gathered :=
  children_rebuild (List.length_map gathered)

/-- Gathering keeps the kinds of nodes, because bundling does and a group is gathered inside. -/
theorem sameKind_gathered (e : Expr) : SameKind e e.gathered := by
  induction e using Expr.induct with
  | group inner ih => exact .group ih
  | sum operands =>
      rw [gathered_eq]
      exact (SameKind.sum _ _).trans (sameKind_bundled _)
  | product operands implicit =>
      rw [gathered_eq]
      exact (SameKind.product _ _ _ _).trans (sameKind_bundled _)
  | _ => constructor

/-- Gathering the children of a node that can keep them gives such a node again. -/
theorem isNormalNode_withGatheredChildren (e : Expr)
    : e.withGatheredChildren.isNormalNode = e.isNormalNode :=
  isNormalNode_rebuild fun child _ => sameKind_gathered child

/-- Collecting all nodes of a well-formed tree leaves it well formed. -/
theorem WellFormed.gathered {e : Expr} (h : e.WellFormed) : e.gathered.WellFormed :=
  h.collectDeep_eq.2

/-- A well-formed node rebuilt from well-formed children is well formed. -/
theorem WellFormed.rebuild {e : Expr} {f : Expr → Expr} (h : e.WellFormed)
    (hf : ∀ child ∈ e.children, (f child).WellFormed)
    : (e.rebuild (e.children.map f)).WellFormed := by
  cases e with
  | constant | symbol | foreign => exact h
  | power | quotient | group => simpa [Expr.rebuild, children] using hf
  | call => simpa [Expr.rebuild, children] using hf
  | sum | product => simpa [Expr.rebuild, children] using ⟨(h.operands rfl).1, hf⟩

/-- A well-formed node stays well formed when its children are gathered. -/
theorem WellFormed.withGatheredChildren {e : Expr} (h : e.WellFormed)
    : e.withGatheredChildren.WellFormed :=
  h.rebuild fun child hc => (((wellFormed_iff e).mp h).2 child hc).gathered

-----------------------------------------------------------------------------------------
-- The nodes that are made at a node
-----------------------------------------------------------------------------------------

/-- The nodes that bundling the operands of a node makes: the node itself, and one for each
bundle of several operands. -/
def madeNodes (e : Expr) : List Expr :=
  e.bundled.value ::
    match e.isSettled, e.operation? with
    | false, some (operator, operands) =>
        ((rankedBundles operator operands).filter fun bundle => 2 ≤ bundle.members.length).map
          fun bundle => operator.node bundle.members
    | _, _ => []

/-- A settled node makes no node but itself. -/
theorem madeNodes_of_isSettled {e : Expr} (h : e.isSettled = true) : e.madeNodes = [e] := by
  rw [madeNodes, bundled_of_isSettled h, h]

/-- A node that is not settled makes one node for each bundle of several operands, behind its
own. -/
theorem madeNodes_of_not_isSettled {e : Expr} {operator : Operator} {operands : List Expr}
    (ho : e.operation? = some (operator, operands)) (h : e.isSettled = false)
    : e.madeNodes
      = e.bundled.value
        :: ((rankedBundles operator operands).filter fun bundle => 2 ≤ bundle.members.length).map
          fun bundle => operator.node bundle.members := by
  rw [madeNodes, h, ho]

variable {P : Expr → Prop}

/-- A property of all subtrees of a node is one of the node and of the subtrees of its operands. -/
theorem forall_subtrees_node {operator : Operator} {operands : List Expr}
    : (∀ node ∈ (operator.node operands).subtrees, P node)
      ↔ P (operator.node operands) ∧ ∀ e ∈ operands, ∀ node ∈ e.subtrees, P node := by
  rw [forall_subtrees, children_node]

/-- The nodes of combined operands are those of the operands and the node made of several. -/
theorem forall_subtrees_combine (operator : Operator) {operands : List Expr} (h : operands ≠ [])
    : (∀ node ∈ (operator.combine operands).subtrees, P node)
      ↔ (2 ≤ operands.length → P (operator.node operands))
        ∧ ∀ e ∈ operands, ∀ node ∈ e.subtrees, P node := by
  match operands with
  | [] => exact absurd rfl h
  | [e] => simp [Operator.combine]
  | e :: f :: rest =>
      rw [combine_of_two_le operator (by simp), forall_subtrees_node]
      simp

/-- The nodes of a bundled node are those that bundling makes and those of its children. -/
theorem forall_subtrees_bundled (e : Expr)
    : (∀ node ∈ e.bundled.value.subtrees, P node)
      ↔ (∀ node ∈ e.madeNodes, P node)
        ∧ ∀ child ∈ e.children, ∀ node ∈ child.subtrees, P node := by
  cases hs : e.isSettled with
  | true =>
      rw [bundled_of_isSettled hs, forall_subtrees, madeNodes_of_isSettled hs]
      simp
  | false =>
      obtain ⟨operator, operands, ho⟩ := operation?_of_not_isSettled hs
      have hperm := Bundle.ordered_members_perm operator operands
      have hbundle (bundle : Bundle) (hb : bundle ∈ rankedBundles operator operands) :=
        forall_subtrees_combine (P := P) operator (Bundle.members_ne_nil (mem_rankedBundles.mp hb))
      have hmembers : (∀ bundle ∈ rankedBundles operator operands, ∀ m ∈ bundle.members,
          ∀ node ∈ m.subtrees, P node) ↔ ∀ o ∈ operands, ∀ node ∈ o.subtrees, P node := by
        simp only [← hperm.mem_iff, List.mem_flatMap]
        exact ⟨fun h o ⟨bundle, hb, hm⟩ => h bundle hb o hm,
          fun h bundle hb m hm => h m ⟨bundle, hb, hm⟩⟩
      rw [madeNodes_of_not_isSettled ho hs, bundled_of_not_isSettled ho hs, forall_subtrees_node,
        List.forall_mem_map, children_of_operation? ho, ← hmembers, List.forall_mem_cons,
        List.forall_mem_map, forall₂_congr hbundle]
      simp only [forall_and, List.mem_filter, decide_eq_true_eq, and_imp, and_assoc]

/-- The nodes of a gathered tree are those that bundling makes at the nodes of the tree, once their
children are gathered. -/
theorem forall_subtrees_gathered (e : Expr)
    : (∀ node ∈ e.gathered.subtrees, P node)
      ↔ ∀ node ∈ e.subtrees, ∀ made ∈ node.withGatheredChildren.madeNodes, P made := by
  induction e using induct_children with
  | step e ih =>
      rw [gathered_eq, forall_subtrees_bundled, children_withGatheredChildren,
        List.forall_mem_map, forall_subtrees (e := e)]
      exact and_congr_right fun _ => forall₂_congr ih

end TermGrouping.Expr
