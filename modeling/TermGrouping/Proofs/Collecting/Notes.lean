import TermGrouping.Proofs.Collecting.Operations

/-! What the notes tell. Collecting in all of a tree takes one note at each sum and product, in the
order in which it visits them, and the message of each says whether the operands were left as they
are or how many groups of which kinds they were put into.
-/

namespace TermGrouping

/-- A sum or a product that is visited on the way through a tree. -/
structure Visit where
  node : Expr
  /-- The node with its children collected, whose operands are looked at. -/
  prepared : Expr
  /-- What is returned in the place of the node. -/
  returned : Expr
  /-- The groups that the operands are put into, in their order. -/
  groups : List Bundle
  message : String

namespace Visit

/-- The groups that get a node of their own, because they have several members. -/
def formed (visit : Visit) : List Bundle :=
  visit.groups.filter fun group => 2 ≤ group.members.length

/-- Whether the message is about groups. -/
def TellsOfGroups (visit : Visit) : Prop := ∃ rest, visit.message = "Collecting " ++ rest

/-- A visit that puts the operands of a node into groups, and a message that says so. -/
structure IsGrouping (visit : Visit) (operator : Operator) (operands : List Expr) : Prop where
  operation : visit.node.operation? = some (operator, operands)
  /-- The groups are the bundles of the collected operands in some order. -/
  groups : ∃ bundles, visit.prepared.bundles = .ok bundles ∧ visit.groups.Perm bundles
  /-- Each group is an operand of what is returned: its only member, or a node of several. -/
  returned
    : visit.returned
      = operator.node (visit.groups.map fun group => operator.combine group.members)
  several : 2 ≤ visit.returned.children.length
  fewer : visit.returned.children.length < operands.length
  message
    : visit.message
      = "Collecting " ++ toString operands.length ++ " operands into "
        ++ toString visit.returned.children.length ++ " groups: "
        ++ (Value.list (visit.groups.map fun group => .text group.key.kind.name)).display

/-- A visit whose message tells what has happened at the node. -/
structure IsFaithful (visit : Visit) : Prop where
  /-- The children of the node were collected before. -/
  prepared
    : ∃ kids, Expr.collectDeepAll visit.node.children = .ok kids
        ∧ visit.prepared = visit.node.rebuild kids.value
  /-- Then its own operands were, and the message is that of the only note taken of it. -/
  collected
    : ∃ note, visit.prepared.collect = .ok ⟨visit.returned, [note]⟩
        ∧ visit.message = note.message
  /-- It is what collecting in all of the node returns. -/
  result : ∃ notes, visit.node.collectDeep = .ok ⟨visit.returned, notes⟩
  settled
    : visit.message = "Nothing to collect in " ++ visit.node.kindName
      ↔ visit.returned = visit.prepared
  ungrouped : visit.returned = visit.prepared → visit.groups = []
  grouped
    : visit.returned ≠ visit.prepared → ∃ operator operands, visit.IsGrouping operator operands

end Visit

/-- The messages about settled nodes and about groups are told apart by their beginnings. -/
theorem nothing_append_ne_collecting_append (kind rest : String)
    : "Nothing to collect in " ++ kind ≠ "Collecting " ++ rest := by
  intro h
  have hfirst := congrArg (fun message : String => message.toList.head?) h
  simp at hfirst

/-- The wording of a note about groups, for rewriting. Unfolding the message itself is slow, because
it spells out the literals. -/
theorem Note.message_collected (operands : Nat) (kinds : List KeyKind)
    : (collected operands kinds).message
      = "Collecting " ++ toString operands ++ " operands into " ++ toString kinds.length
        ++ " groups: " ++ (Value.list (kinds.map fun kind => .text kind.name)).display :=
  rfl

namespace Expr

-----------------------------------------------------------------------------------------
-- One note at each operation
-----------------------------------------------------------------------------------------

/-- The groups that the operands of a node are put into, in their order. There are none if the node
is settled. -/
def formedGroups (e : Expr) : List Bundle :=
  match e.isSettled, e.operation? with
  | false, some (operator, operands) => rankedBundles operator operands
  | _, _ => []

theorem formedGroups_of_isSettled {e : Expr} (h : e.isSettled = true) : e.formedGroups = [] := by
  rw [formedGroups, h]

/-- The groups of a node that is not settled are its bundles in the order of their ranks. -/
theorem formedGroups_of_not_isSettled {e : Expr} {operator : Operator} {operands : List Expr}
    (ho : e.operation? = some (operator, operands)) (h : e.isSettled = false)
    : e.formedGroups = rankedBundles operator operands := by
  rw [formedGroups, h, ho]

/-- Beside the node itself, bundling makes one node for each group of several operands. -/
theorem length_madeNodes (e : Expr)
    : e.madeNodes.length
      = 1 + (e.formedGroups.filter fun group => 2 ≤ group.members.length).length := by
  cases hs : e.isSettled with
  | true => rw [madeNodes_of_isSettled hs, formedGroups_of_isSettled hs]; rfl
  | false =>
      obtain ⟨operator, operands, ho⟩ := operation?_of_not_isSettled hs
      rw [madeNodes_of_not_isSettled ho hs, formedGroups_of_not_isSettled ho hs, List.length_cons,
        List.length_map, Nat.add_comm]

def note (e : Expr) : Note :=
  if e.isSettled then .settled e.kindName
  else .collected e.children.length (e.formedGroups.map fun group => group.key.kind)

/-- Bundling takes one note of every node, by cases on whether the node is settled. -/
theorem notes_bundled (e : Expr) : e.bundled.notes = [e.note] := by
  cases hs : e.isSettled with
  | true =>
      cases ho : e.operation? with
      | none => simp [bundled, ho, note, hs]
      | some operation =>
          obtain ⟨operator, operands⟩ := operation
          have hc : Bundle.areCollectable (Bundle.ofOperands operator operands) = false := by
            simpa [isSettled, ho] using hs
          simp [bundled, ho, note, hs, hc]
  | false =>
      obtain ⟨operator, operands, ho⟩ := operation?_of_not_isSettled hs
      have hc := areCollectable_of_not_isSettled ho hs
      simp [bundled, ho, note, hs, hc, children_of_operation? ho,
        formedGroups_of_not_isSettled ho hs, rankedBundles]

/-- The notes of a list of trees are those of its trees, one after the other, by induction over the
list. -/
theorem bundledDeepAll_notes (es : List Expr)
    : (bundledDeepAll es).notes = es.flatMap fun e => e.bundledDeep.notes := by
  induction es with
  | nil => rfl
  | cons e es ih => rw [bundledDeepAll, ih, List.flatMap_cons]

/-- The notes of a tree are those of its children, and one of its own operands if it has any. -/
theorem notes_bundledDeep (e : Expr)
    : e.bundledDeep.notes
      = (e.children.flatMap fun child => child.bundledDeep.notes)
        ++ ([e].filter isOperation).map fun node => node.withGatheredChildren.note := by
  cases e with
  | sum | product =>
      simp only [bundledDeep, bundledDeepAll_notes, bundledDeepAll_value, notes_bundled]
      rfl
  | call => simp [bundledDeep, bundledDeepAll_notes, children, isOperation, operation?]
  | _ => simp [bundledDeep, children, isOperation, operation?]

/-- The notes of a tree are taken of its operations in postorder, by induction over the tree. -/
theorem notes_bundledDeep_eq_map (e : Expr)
    : e.bundledDeep.notes = e.operations.map fun node => node.withGatheredChildren.note := by
  induction e using induct_children with
  | step e ih =>
      rw [notes_bundledDeep, operations_eq, List.map_append, List.map_flatMap,
        List.flatMap_congr ih]

-----------------------------------------------------------------------------------------
-- One visit at each operation
-----------------------------------------------------------------------------------------

def visit (e : Expr) : Visit where
  node := e
  prepared := e.withGatheredChildren
  returned := e.gathered
  groups := e.withGatheredChildren.formedGroups
  message := e.withGatheredChildren.note.message

/-- The visits of the sums and products of a tree, in postorder. -/
def visits (e : Expr) : List Visit := e.operations.map visit

/-- The visited nodes are the sums and products in postorder. -/
theorem map_node_visits (e : Expr) : e.visits.map Visit.node = e.operations := by
  rw [visits, List.map_map]
  exact List.map_id _

/-- The messages of the visits are those of the notes, because both go through the same
operations. -/
theorem map_message_visits (e : Expr)
    : e.visits.map Visit.message = e.bundledDeep.notes.map Note.message := by
  rw [visits, notes_bundledDeep_eq_map, List.map_map, List.map_map]
  rfl

/-- Lists that are longer by one for each element are longer by the number of elements in all. -/
theorem length_flatMap_of_forall {α β γ : Type} {f : α → List β} {g : α → List γ} {l : List α}
    (h : ∀ a ∈ l, (f a).length = 1 + (g a).length)
    : (l.flatMap f).length = l.length + (l.flatMap g).length := by
  induction l with
  | nil => rfl
  | cons a l ih =>
      obtain ⟨ha, hl⟩ := List.forall_mem_cons.mp h
      simp only [List.flatMap_cons, List.length_append, List.length_cons, ha, ih hl]
      omega

/-- The gathered tree has one more operation for each group that gets a node of its own. -/
theorem length_operations_gathered (e : Expr)
    : e.gathered.operations.length
      = e.operations.length + (e.visits.flatMap Visit.formed).length := by
  rw [e.operations_gathered_perm.length_eq, visits, List.flatMap_map]
  exact length_flatMap_of_forall fun node _ => length_madeNodes node.withGatheredChildren

/-- No node of a tree is rewritten if none is once its children are collected. -/
theorem forall_isSettled_withGatheredChildren_iff {e : Expr}
    : (∀ node ∈ e.subtrees, node.withGatheredChildren.isSettled = true)
      ↔ ∀ node ∈ e.subtrees, node.isSettled = true := by
  induction e using induct_children with
  | step e ih =>
      rw [forall_subtrees, forall_subtrees, forall₂_congr ih]
      refine and_congr_left fun hchildren => ?_
      rw [withGatheredChildren_eq_self fun child hc => gathered_eq_self (hchildren child hc)]

-----------------------------------------------------------------------------------------
-- The visits are faithful
-----------------------------------------------------------------------------------------

theorem kindName_withGatheredChildren (e : Expr)
    : e.withGatheredChildren.kindName = e.kindName := by
  cases e <;> rfl

variable {e : Expr} {operator : Operator} {operands : List Expr}

/-- Collecting a well-formed node whose children are collected takes one note. -/
theorem WellFormed.collect_withGatheredChildren (h : e.WellFormed)
    : e.withGatheredChildren.collect = .ok ⟨e.gathered, [e.withGatheredChildren.note]⟩ := by
  rw [h.withGatheredChildren.collect_eq, gathered_eq, ← notes_bundled]

/-- The message of a settled node names its kind, which gathering the children does not change. -/
theorem message_visit_of_isSettled (hs : e.withGatheredChildren.isSettled = true)
    : e.visit.message = "Nothing to collect in " ++ e.kindName := by
  have hnote : e.withGatheredChildren.note = .settled e.kindName := by
    rw [note, hs, kindName_withGatheredChildren]
    rfl
  exact congrArg Note.message hnote

/-- The message of a node that is not settled counts its operands and its groups and lists the kinds
of the groups, by reading its note. -/
theorem message_visit_of_not_isSettled (hs : e.withGatheredChildren.isSettled = false)
    : e.visit.message
      = "Collecting " ++ toString e.children.length ++ " operands into "
        ++ toString e.withGatheredChildren.formedGroups.length ++ " groups: "
        ++ (Value.list (e.withGatheredChildren.formedGroups.map
            fun group => .text group.key.kind.name)).display := by
  have hnote : e.withGatheredChildren.note = .collected e.children.length
      (e.withGatheredChildren.formedGroups.map fun group => group.key.kind) := by
    rw [note, hs, children_withGatheredChildren, List.length_map]
    rfl
  have hmessage := congrArg Note.message hnote
  rw [Note.message_collected, List.length_map, List.map_map] at hmessage
  exact hmessage

/-- The message of a visit is about groups if the node is not settled. -/
theorem tellsOfGroups_visit_iff
    : e.visit.TellsOfGroups ↔ e.withGatheredChildren.isSettled = false := by
  cases hs : e.withGatheredChildren.isSettled with
  | true =>
      refine iff_of_false ?_ Bool.false_ne_true.symm
      rintro ⟨rest, hmessage⟩
      rw [message_visit_of_isSettled hs] at hmessage
      exact nothing_append_ne_collecting_append _ _ hmessage
  | false =>
      have hmessage : e.visit.message = _ := message_visit_of_not_isSettled hs
      simp only [String.append_assoc] at hmessage
      exact iff_of_true ⟨_, hmessage⟩ rfl

/-- The message of a visit says that there is nothing to collect exactly if the node is settled. -/
theorem message_visit_eq_nothing_iff
    : e.visit.message = "Nothing to collect in " ++ e.kindName
      ↔ e.withGatheredChildren.isSettled = true := by
  cases hs : e.withGatheredChildren.isSettled with
  | true => exact iff_of_true (message_visit_of_isSettled hs) rfl
  | false =>
      obtain ⟨rest, hrest⟩ : e.visit.TellsOfGroups := tellsOfGroups_visit_iff.mpr hs
      rw [hrest]
      exact iff_of_false (nothing_append_ne_collecting_append _ _).symm Bool.false_ne_true

/-- A visit of a node that is not settled puts its operands into groups. -/
theorem isGrouping_visit (h : e.WellFormed) (ho : e.operation? = some (operator, operands))
    (hs : e.withGatheredChildren.isSettled = false)
    : e.visit.IsGrouping operator operands := by
  have hprepared : e.withGatheredChildren.operation? = some (operator, operands.map gathered) := by
    rw [operation?_withGatheredChildren, ho, Option.map_some]
  have hgroups := formedGroups_of_not_isSettled hprepared hs
  have hreturned := bundled_of_not_isSettled hprepared hs
  rw [← hgroups, ← gathered_eq] at hreturned
  have hcount : e.gathered.children.length = e.withGatheredChildren.formedGroups.length := by
    rw [hreturned, children_node, List.length_map]
  constructor
  case operation => exact ho
  case groups =>
    have hperm := Bundle.ordered_perm operator (operands.map gathered)
    rw [← rankedBundles, ← hgroups] at hperm
    exact ⟨_, h.withGatheredChildren.bundles_eq_ok hprepared, hperm⟩
  case returned => exact hreturned
  case several =>
    have hseveral := (several_of_not_isSettled hprepared hs).1
    rwa [← hgroups, ← hcount] at hseveral
  case fewer =>
    have hfewer := length_children_bundled_lt hs
    rw [← gathered_eq, children_withGatheredChildren, List.length_map,
      children_of_operation? ho] at hfewer
    exact hfewer
  case message =>
    rw [message_visit_of_not_isSettled hs, children_of_operation? ho, ← hcount]
    rfl

/-- Only sums and products are not settled once their children are collected. -/
theorem exists_operation?_of_not_isSettled (hs : e.withGatheredChildren.isSettled = false)
    : ∃ operator operands, e.operation? = some (operator, operands) := by
  obtain ⟨operator, operands, ho⟩ := operation?_of_not_isSettled hs
  rw [operation?_withGatheredChildren] at ho
  obtain ⟨operation, hoperation, -⟩ := Option.map_eq_some_iff.mp ho
  exact ⟨operation.1, operation.2, hoperation⟩

/-- The message of each visit tells what has happened at the node. -/
theorem isFaithful_visit (h : e.WellFormed) : e.visit.IsFaithful := by
  have hchildren := ((wellFormed_iff e).mp h).2
  have hkids := collectDeepAll_eq_ok fun child hc => (hchildren child hc).collectDeep_eq.1
  have hprepared : e.withGatheredChildren = e.rebuild (bundledDeepAll e.children).value := by
    rw [bundledDeepAll_value]
    rfl
  have hreturned
      : e.gathered = e.withGatheredChildren ↔ e.withGatheredChildren.isSettled = true := by
    rw [gathered_eq]
    exact bundled_eq_self_iff
  constructor
  case prepared => exact ⟨_, hkids, hprepared⟩
  case collected => exact ⟨_, h.collect_withGatheredChildren, rfl⟩
  case result => exact ⟨_, h.collectDeep_eq.1⟩
  case settled => exact message_visit_eq_nothing_iff.trans hreturned.symm
  case ungrouped => exact fun heq => formedGroups_of_isSettled (hreturned.mp heq)
  case grouped =>
    intro hne
    have hs : e.withGatheredChildren.isSettled = false :=
      Bool.eq_false_iff.mpr fun hs => hne (hreturned.mpr hs)
    obtain ⟨operator, operands, ho⟩ := exists_operation?_of_not_isSettled hs
    exact ⟨operator, operands, isGrouping_visit h ho hs⟩

/-- No message is about groups exactly if all nodes of the tree are settled. -/
theorem forall_visits_iff
    : (∀ visit ∈ e.visits, ¬ visit.TellsOfGroups) ↔ ∀ node ∈ e.subtrees, node.isSettled = true := by
  rw [← forall_isSettled_withGatheredChildren_iff, visits, List.forall_mem_map]
  constructor
  · intro h node hn
    cases hs : node.withGatheredChildren.isSettled with
    | true => rfl
    | false =>
        obtain ⟨operator, operands, ho⟩ := exists_operation?_of_not_isSettled hs
        have hoperation := mem_operations.mpr ⟨hn, by simp [isOperation, ho]⟩
        exact absurd (tellsOfGroups_visit_iff.mpr hs) (h node hoperation)
  · intro h node hn htells
    have hs := h node (mem_operations.mp hn).1
    exact Bool.false_ne_true ((tellsOfGroups_visit_iff.mp htells).symm.trans hs)

end Expr

/-- Collecting in all of a well-formed tree takes one note at each sum and product, in postorder,
whose message tells what has happened there. The status is that of no change exactly if no message
is about groups, and the collected tree has one more sum or product for each group of several
operands. -/
theorem collectDeep_traced {e : Expr} (h : e.WellFormed)
    : ∃ (collected : Noted Expr) (status : Status) (visits : List Visit),
        e.collectDeep = .ok collected
        ∧ e.collectionStatus = .ok status
        ∧ visits.map Visit.node = e.operations
        ∧ visits.map Visit.message = collected.notes.map Note.message
        ∧ (∀ visit ∈ visits, visit.IsFaithful)
        ∧ (status.name = "NO_CHANGE" ↔ ∀ visit ∈ visits, ¬ visit.TellsOfGroups)
        ∧ collected.value.operations.length
          = e.operations.length + (visits.flatMap Visit.formed).length := by
  refine ⟨e.bundledDeep, _, e.visits, h.collectDeep_eq.1, h.collectionStatus_eq,
    e.map_node_visits, e.map_message_visits, ?_, ?_, e.length_operations_gathered⟩
  · intro visit hv
    obtain ⟨node, hn, rfl⟩ := List.mem_map.mp hv
    exact Expr.isFaithful_visit (h.of_mem_subtrees node (Expr.mem_operations.mp hn).1)
  · rw [Expr.forall_visits_iff, ← Expr.alike_gathered_iff]
    split <;> simp [Status.name, *]

/-- A product around a sum that is put into groups and one that is not. The new node that holds a
group has no message of its own. -/
theorem collectDeep_traced_nested
    : let x := Expr.symbol "x"
      let grouped := Expr.sum [x, .constant .two, x]
      let settled := Expr.sum [x, .symbol "y"]
      let e := Expr.product [grouped, .power (.symbol "y") settled] false
      let pair := Expr.sum [x, x]
      let sum := Expr.sum [pair, .constant .two]
      let product := Expr.product [sum, .power (.symbol "y") settled] false
      e.WellFormed
      ∧ ∃ (collected : Noted Expr) (visits : List Visit),
          e.collectDeep = .ok collected
          ∧ visits.map Visit.node = [grouped, settled, e]
          ∧ visits.map Visit.message
            = [
              "Collecting 3 operands into 2 groups: ['symbol', 'constant']",
              "Nothing to collect in Sum",
              "Nothing to collect in Product"
            ]
          ∧ (∀ visit ∈ visits, visit.IsFaithful)
          ∧ collected.value.operations = [pair, sum, settled, product]
          ∧ (visits.flatMap Visit.formed).length = 1 := by
  intro x grouped settled e pair sum product
  have h : e.WellFormed := by decide
  obtain ⟨collected, -, visits, hcollect, -, hnodes, hmessages, hfaithful, -, hlength⟩ :=
    collectDeep_traced h
  obtain rfl : e.bundledDeep = collected := Except.ok.inj (h.collectDeep_eq.1.symm.trans hcollect)
  have hoperations : e.operations = [grouped, settled, e] := by decide
  have hnotes : e.bundledDeep.notes.map Note.message
      = [
        "Collecting 3 operands into 2 groups: ['symbol', 'constant']",
        "Nothing to collect in Sum",
        "Nothing to collect in Product"
      ] := by
    decide +kernel
  have hmade : e.bundledDeep.value.operations = [pair, sum, settled, product] := by decide
  rw [hoperations] at hnodes
  rw [hnotes] at hmessages
  rw [hoperations, hmade] at hlength
  exact ⟨h, _, visits, hcollect, hnodes, hmessages, hfaithful, hmade,
    Nat.add_left_cancel hlength.symm⟩

end TermGrouping
