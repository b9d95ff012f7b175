import TermGrouping.Proofs.Collecting.Gathered

/-! Trees with nothing to collect. Collecting gives an alike tree exactly if every node of the tree
is settled, and then it gives the tree itself; so it never rewrites a tree in its attributes alone,
and its status tells the truth.
-/

namespace TermGrouping

namespace Expr

/-- Alike trees have the same operator, because the shape keeps it. -/
theorem Alike.operator?_eq {a b : Expr} (h : Alike a b) : a.operator? = b.operator? := by
  have hshape (e : Expr) : e.shape.operator? = e.operator? := by cases e <;> rfl
  rw [← hshape a, ← hshape b, show a.shape = b.shape from h]

/-- Alike trees have equally many children, because the shape keeps their number. -/
theorem Alike.length_children_eq {a b : Expr} (h : Alike a b)
    : a.children.length = b.children.length := by
  have hshape (e : Expr) : e.shape.children.length = e.children.length := by
    cases e <;> simp [shape, children, shapeAll_eq_map]
  rw [← hshape a, ← hshape b, show a.shape = b.shape from h]

/-- Nodes of one operator are alike if their operands are, one by one. -/
theorem alike_node_iff {operator : Operator} {as bs : List Expr}
    : Alike (operator.node as) (operator.node bs) ↔ as.map shape = bs.map shape := by
  cases operator <;> simp [Alike, Operator.node, shape, shapeAll_eq_map]

/-- A node rebuilt from new children is alike to the node if the children are. -/
theorem alike_rebuild_iff {e : Expr} {f : Expr → Expr}
    : Alike (e.rebuild (e.children.map f)) e ↔ ∀ child ∈ e.children, Alike (f child) child := by
  cases e <;>
    simp [Alike, rebuild, children, shape, shapeAll_eq_map, List.map_inj_left, Function.comp_def]

/-- A node whose children stay as they are stays as it is before its operands are bundled. -/
theorem withGatheredChildren_eq_self {e : Expr}
    (h : ∀ child ∈ e.children, child.gathered = child)
    : e.withGatheredChildren = e := by
  rw [withGatheredChildren, List.map_congr_left h, List.map_id', rebuild_children]

/-- A tree whose nodes are all settled stays as it is. -/
theorem gathered_eq_self {e : Expr} (h : ∀ node ∈ e.subtrees, node.isSettled = true)
    : e.gathered = e := by
  induction e using induct_children with
  | step e ih =>
      obtain ⟨hroot, hchildren⟩ := forall_subtrees.mp h
      have hsame := withGatheredChildren_eq_self fun child hc => ih child hc (hchildren child hc)
      rw [gathered_eq, hsame, bundled_of_isSettled hroot]

/-- All nodes of a tree are settled if gathering gives an alike tree: where it bundles operands, it
leaves fewer of them. -/
theorem isSettled_of_alike_gathered {e : Expr} (h : Alike e.gathered e)
    : ∀ node ∈ e.subtrees, node.isSettled = true := by
  induction e using induct_children with
  | step e ih =>
      rw [gathered_eq] at h
      cases hs : e.withGatheredChildren.isSettled with
      | true =>
          rw [bundled_of_isSettled hs] at h
          have hchildren := fun child hc => ih child hc (alike_rebuild_iff.mp h child hc)
          have hsame :=
            withGatheredChildren_eq_self fun child hc => gathered_eq_self (hchildren child hc)
          exact forall_subtrees.mpr ⟨hsame ▸ hs, hchildren⟩
      | false =>
          have hfewer := length_children_bundled_lt hs
          rw [h.length_children_eq, children_withGatheredChildren, List.length_map] at hfewer
          exact absurd hfewer (Nat.lt_irrefl _)

/-- Gathering gives an alike tree exactly if there is nothing to collect at any node. -/
theorem alike_gathered_iff {e : Expr}
    : Alike e.gathered e ↔ ∀ node ∈ e.subtrees, node.isSettled = true :=
  ⟨isSettled_of_alike_gathered, fun h => congrArg shape (gathered_eq_self h)⟩

/-- All nodes of a well-formed tree are settled if no sum and no product in it is collectable. -/
theorem WellFormed.forall_isSettled_iff {e : Expr} (h : e.WellFormed)
    : (∀ node ∈ e.subtrees, node.isSettled = true)
      ↔ ∀ node ∈ e.subtrees, node.isOperation = true → node.isCollectable = .ok false := by
  refine forall₂_congr fun node hn => ?_
  rw [(h.of_mem_subtrees node hn).isCollectable_eq, Except.ok.injEq, Bool.not_eq_false']
  refine ⟨fun hs _ => hs, fun hs => ?_⟩
  cases ho : node.operation? with
  | none => simp [isSettled, ho]
  | some operation => exact hs (by simp [isOperation, ho])

/-- The status of a well-formed tree is that of a change if the gathered tree is not alike to it. -/
theorem WellFormed.collectionStatus_eq {e : Expr} (h : e.WellFormed)
    : e.collectionStatus
      = .ok (if Alike e.gathered e then .unchanged e else .collected e e.gathered) := by
  rw [collectionStatus, h.collectDeep_eq.1]
  rfl

end Expr

/-- The status of a well-formed tree reports no change exactly if no sum and no product in the tree
is collectable. The collected tree then is the tree itself in every attribute, and otherwise it is
not even alike to it. -/
theorem collectionStatus_truthful {e : Expr} (h : e.WellFormed)
    : ∃ status collected, e.collectionStatus = .ok status ∧ e.collectDeep = .ok collected
        ∧ status.before = e
        ∧ (status.name = "NO_CHANGE"
            ↔ ∀ node ∈ e.subtrees, node.isOperation = true → node.isCollectable = .ok false)
        ∧ (status.name = "NO_CHANGE" → collected.value = e ∧ status.after = e)
        ∧ (status.name ≠ "NO_CHANGE"
            → status.after = collected.value ∧ ¬ Expr.Alike status.after e) := by
  refine ⟨_, _, h.collectionStatus_eq, h.collectDeep_eq.1, ?_⟩
  rw [← h.forall_isSettled_iff, ← Expr.alike_gathered_iff]
  by_cases halike : Expr.Alike e.gathered e
  · have hsame : e.gathered = e := Expr.gathered_eq_self (Expr.alike_gathered_iff.mp halike)
    rw [if_pos halike]
    exact ⟨rfl, iff_of_true rfl halike, fun _ => ⟨hsame, rfl⟩, fun hname => absurd rfl hname⟩
  · have hname : (Status.collected e e.gathered).name ≠ "NO_CHANGE" := by simp [Status.name]
    rw [if_neg halike]
    exact ⟨rfl, iff_of_false hname halike, fun heq => absurd heq hname, fun _ => ⟨rfl, halike⟩⟩

/-- A sum of two bundles deep in a tree whose other nodes have nothing to collect. -/
theorem collectionStatus_truthful_exponent
    : let x := Expr.symbol "x"
      let sum := Expr.sum [x, .constant .two, .product [.constant .two, x] true]
      let e := Expr.call "f" [.product [x, x] true, .power x (.group sum)]
      e.WellFormed
      ∧ ∃ status collected, e.collectionStatus = .ok status ∧ e.collectDeep = .ok collected
          ∧ status.name ≠ "NO_CHANGE" ∧ status.after = collected.value
          ∧ ¬ Expr.Alike status.after e := by
  intro x sum e
  have h : e.WellFormed := by decide
  obtain ⟨status, collected, hstatus, hcollect, -, hiff, -, hchange⟩ := collectionStatus_truthful h
  have hname : status.name ≠ "NO_CHANGE" := by
    intro heq
    have hnot := hiff.mp heq sum (by decide) rfl
    have hcollectable : sum.isCollectable = .ok true := rfl
    rw [hcollectable] at hnot
    cases hnot
  exact ⟨h, status, collected, hstatus, hcollect, hname, hchange hname⟩

end TermGrouping
