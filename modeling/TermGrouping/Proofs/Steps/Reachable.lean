import TermGrouping.Proofs.Collecting.Settled
import TermGrouping.Proofs.Steps.Genuine
import TermGrouping.Worksheet

/-! Runs of transformations. A formula can be flattened, collected, negated and taken apart in any
order and as often as one likes: no step of a run fails, every tree of it can be written, and its
constants still are what their texts say.
-/

namespace TermGrouping

/-- Whether a step changes a formula or goes on with a part of it, without building on it. -/
def Step.isTransformation : Step → Bool
  | flatten | collect | collectDeep | statusAfter | opposite | dropCoefficient | firstChild
    | lastChild => true
  | reread | group | raise _ | scale _ | add _ | multiply _ | divide _ | double _ => false

/-- The trees that a run comes to: it starts with a formula, and each tree after it is the result of
a transformation of the tree before, or one of its children. -/
inductive Reaches (formula : Expr) : Expr → Prop where
  | start : Reaches formula formula
  | step {e next : Expr} {step : Step}
    : Reaches formula e → step.isTransformation = true → step.apply e = .ok next
      → Reaches formula next
  | child {e child : Expr} {kids : List Expr}
    : Reaches formula e → Checked.children e = .ok kids → child ∈ kids → Reaches formula child

-----------------------------------------------------------------------------------------
-- One step, and a run of steps
-----------------------------------------------------------------------------------------

/-- A transformation of a genuine tree succeeds and gives a genuine tree. -/
theorem Step.apply_genuine {step : Step} {e : Expr} (hs : step.isTransformation = true)
    (h : e.IsGenuine)
    : ∃ next, step.apply e = .ok next ∧ next.IsGenuine := by
  have hw := h.readable.wellFormed
  cases step with
  | reread | group | raise | scale | add | multiply | divide | double => cases hs
  | flatten =>
      refine ⟨_, ?_, h.flatten⟩
      rw [apply, Checked.flatten_eq_ok hw]
      rfl
  | collect =>
      refine ⟨_, ?_, h.bundled⟩
      rw [apply, hw.collect_eq]
      rfl
  | collectDeep =>
      refine ⟨_, ?_, h.gathered⟩
      rw [apply, hw.collectDeep_eq.1]
      rfl
  | statusAfter =>
      rw [apply, hw.collectionStatus_eq]
      refine ⟨_, rfl, ?_⟩
      split
      · exact h
      · exact h.gathered
  | opposite =>
      refine ⟨_, ?_, h.opposite⟩
      rw [apply, hw.opposite_eq_ok]
      rfl
  | dropCoefficient =>
      refine ⟨_, ?_, h.asMultiple⟩
      rw [apply, hw.asMultiple_eq_ok]
      rfl
  | firstChild =>
      rw [apply, hw.children_eq_ok]
      refine ⟨_, rfl, ?_⟩
      cases hc : e.children.head? with
      | none => exact h
      | some child => exact h.of_mem_children child (List.mem_of_head? hc)
  | lastChild =>
      rw [apply, hw.children_eq_ok]
      refine ⟨_, rfl, ?_⟩
      cases hc : e.children.getLast? with
      | none => exact h
      | some child => exact h.of_mem_children child (List.mem_of_getLast? hc)

/-- A run that starts with a genuine tree comes to genuine trees only. -/
theorem Reaches.genuine {formula e : Expr} (h : Reaches formula e) (hs : formula.IsGenuine)
    : e.IsGenuine := by
  induction h with
  | start => exact hs
  | step _ ht happly ih =>
      obtain ⟨next, hnext, hgenuine⟩ := Step.apply_genuine ht ih
      rw [happly] at hnext
      cases hnext
      exact hgenuine
  | child _ hkids hc ih =>
      rw [ih.readable.wellFormed.children_eq_ok] at hkids
      cases hkids
      exact ih.of_mem_children _ hc

/-- In a run that starts with what a text is read as, every transformation of every tree succeeds,
the children of the tree can be taken, it can be told whether it is collectable, and it can be
written. Every tree is well formed, no function in it is without arguments, and every constant in
it keeps to how it was written. -/
theorem reaches_transformable {text : String} {formula e : Expr} (hparse : parse text = .ok formula)
    (h : Reaches formula e)
    : (∀ step : Step, step.isTransformation = true → ∃ next, step.apply e = .ok next)
      ∧ Checked.children e = .ok e.children
      ∧ (∃ isCollectable, e.isCollectable = .ok isCollectable)
      ∧ (∃ written, e.text = .ok written)
      ∧ e.WellFormed
      ∧ (∀ name arguments, .call name arguments ∈ e.subtrees → arguments ≠ [])
      ∧ ∀ literal, .constant literal ∈ e.subtrees → literal.IsGenuine := by
  have hgenuine := h.genuine (genuine_of_parse hparse)
  have hwell := hgenuine.readable.wellFormed
  refine ⟨fun step hs => ?_, hwell.children_eq_ok, ⟨_, hwell.isCollectable_eq⟩,
    ⟨_, hgenuine.readable.text_eq⟩, hwell, fun name arguments hcall => ?_, fun literal hl => ?_⟩
  · obtain ⟨next, hnext, _⟩ := Step.apply_genuine hs hgenuine
    exact ⟨next, hnext⟩
  · cases hgenuine.readable.of_mem_subtrees _ hcall with
    | call => exact List.cons_ne_nil _ _
  · exact hgenuine.constants literal (List.mem_filter.mpr ⟨hl, rfl⟩)

/-- The opposite of a bundle that is taken out of a collected sum. -/
theorem reaches_transformable_bundle
    : let x := Expr.symbol "x"
      let two := Expr.constant ⟨2, false, some "2"⟩
      let half := Expr.constant ⟨-1 / 2, true, some "-1/2"⟩
      let bundle := Expr.sum [.product [two, x] true, x]
      let formula := Expr.sum [.sum [.product [two, x] true, half], x]
      let e := Expr.product [.constant .minusOne, bundle] true
      parse "2x - 1/2 + x" = .ok formula
      ∧ Reaches formula e
      ∧ (∀ step : Step, step.isTransformation = true → ∃ next, step.apply e = .ok next)
      ∧ (∃ written, e.text = .ok written)
      ∧ e.WellFormed
      ∧ ∀ literal, .constant literal ∈ e.subtrees → literal.IsGenuine := by
  intro x two half bundle formula e
  have hparse : parse "2x - 1/2 + x" = .ok formula := by
    unfold formula half two x
    cbv
  have hflat : Reaches formula (.sum [.product [two, x] true, half, x]) :=
    Reaches.start.step (rfl : Step.flatten.isTransformation = true) rfl
  have hcollected : Reaches formula (.sum [bundle, half]) :=
    hflat.step (rfl : Step.statusAfter.isTransformation = true) rfl
  have hbundle : Reaches formula bundle := hcollected.child rfl (.head _)
  have h : Reaches formula e := hbundle.step (rfl : Step.opposite.isTransformation = true) rfl
  obtain ⟨hsteps, -, -, hwritten, hwell, -, hconstants⟩ := reaches_transformable hparse h
  exact ⟨hparse, h, hsteps, hwritten, hwell, hconstants⟩

end TermGrouping
