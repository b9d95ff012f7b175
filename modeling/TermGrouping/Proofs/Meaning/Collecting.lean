import TermGrouping.Proofs.Collected
import TermGrouping.Proofs.Meaning.Flattening

/-! Collecting keeps the meaning of a tree. The bundles of a node permute its operands, and neither
a sum nor a product depends on the order or on the brackets of its operands.
-/

namespace TermGrouping

def Operator.total : Operator → List Rat → Rat
  | sum, values => values.sum
  | product, values => values.prod

namespace Operator

theorem total_singleton (operator : Operator) (value : Rat) : operator.total [value] = value := by
  cases operator <;> simp [total]

/-- The total of values does not depend on their order, as sums and products of rationals do not. -/
theorem total_perm (operator : Operator) {values others : List Rat} (h : values.Perm others)
    : operator.total values = operator.total others := by
  cases operator with
  | sum => exact h.sum_eq
  | product => exact h.prod_eq

/-- The total of several lists is the total of their totals. -/
theorem total_flatten (operator : Operator) (values : List (List Rat))
    : operator.total values.flatten = operator.total (values.map operator.total) := by
  cases operator with
  | sum => exact List.sum_flatten
  | product => exact List.prod_flatten

end Operator

namespace Expr

variable (I : Interpretation)

theorem meaning_node (operator : Operator) (operands : List Expr)
    : (operator.node operands).meaning I = operator.total (operands.map (meaning I)) := by
  cases operator with
  | sum => exact meaning_sum I operands
  | product => exact meaning_product I operands false

/-- Combined operands mean the total of their meanings, also where there is only one. -/
theorem meaning_combine (operator : Operator) (operands : List Expr)
    : (operator.combine operands).meaning I = operator.total (operands.map (meaning I)) := by
  unfold Operator.combine
  split
  · rw [List.map_singleton, Operator.total_singleton]
  · exact meaning_node I operator _

/-- A sum or a product means the total of the meanings of its operands. -/
theorem meaning_of_operation? {e : Expr} {operator : Operator} {operands : List Expr}
    (ho : e.operation? = some (operator, operands))
    : e.meaning I = operator.total (operands.map (meaning I)) := by
  unfold operation? at ho
  split at ho <;> cases ho
  · exact meaning_sum I operands
  · exact meaning_product I operands _

/-- Combining lists of operands one by one and then together is combining all operands. -/
theorem meaning_combine_combine (operator : Operator) (bundles : List Bundle)
    : (operator.combine (bundles.map fun bundle => operator.combine bundle.members)).meaning I
      = operator.total ((bundles.flatMap Bundle.members).map (meaning I)) := by
  have hmembers (bundle : Bundle)
      : (operator.combine bundle.members).meaning I
        = operator.total (bundle.members.map (meaning I)) :=
    meaning_combine I operator bundle.members
  rw [meaning_combine, List.flatMap_def, List.map_flatten, Operator.total_flatten]
  simp [List.map_map, Function.comp_def, hmembers]

/-- Bundling the operands of a node keeps its meaning. -/
theorem meaning_bundled (e : Expr) : e.bundled.value.meaning I = e.meaning I := by
  unfold bundled
  cases ho : e.operation? with
  | none => rfl
  | some operation =>
      obtain ⟨operator, operands⟩ := operation
      dsimp only
      split
      · rw [meaning_combine_combine, meaning_of_operation? I ho]
        exact operator.total_perm ((Bundle.ordered_members_perm operator operands).map _)
      · rfl

/-- Bundling the operands of all nodes of a tree keeps its meaning. -/
theorem meaning_bundledDeep (e : Expr) : e.bundledDeep.value.meaning I = e.meaning I := by
  have hmap (es : List Expr) (ih : ∀ e ∈ es, e.bundledDeep.value.meaning I = e.meaning I)
      : (bundledDeepAll es).value.map (meaning I) = es.map (meaning I) := by
    rw [bundledDeepAll_value, List.map_map]
    exact List.map_congr_left ih
  induction e using Expr.induct with
  | constant | symbol | foreign => rfl
  | power base exponent ihb ihe => simp only [bundledDeep, meaning, ihb, ihe]
  | quotient numerator denominator ihn ihd => simp only [bundledDeep, meaning, ihn, ihd]
  | group inner ih => simp only [bundledDeep, meaning, ih]
  | call name arguments ih =>
      simp only [bundledDeep, meaning, meanings_eq_map, hmap arguments ih]
  | sum operands ih =>
      rw [bundledDeep, meaning_bundled, meaning_sum, hmap operands ih, meaning_sum]
  | product operands implicit ih =>
      rw [bundledDeep, meaning_bundled, meaning_product, hmap operands ih, meaning_product]

end Expr

/-- Flattening and collecting succeed on every well-formed tree and keep its meaning. So the tree
that a text is read as, its flat form and the collected flat form all mean the same. -/
theorem meaning_flatten_collect (I : Interpretation)
    : (∀ e : Expr,
        e.WellFormed
        → Checked.flatten e = .ok e.flatten
          ∧ e.flatten.meaning I = e.meaning I
          ∧ ∃ collected,
              e.collectDeep = .ok collected ∧ collected.value.meaning I = e.meaning I)
      ∧ ∀ text e,
          parse text = .ok e
          → Checked.flatten e = .ok e.flatten
            ∧ e.flatten.meaning I = e.meaning I
            ∧ ∃ collected,
                e.flatten.collectDeep = .ok collected
                ∧ collected.value.meaning I = e.meaning I := by
  constructor
  · intro e h
    exact ⟨Checked.flatten_eq_ok h, Expr.meaning_flatten I e, _, h.collectDeep_eq.1,
      Expr.meaning_bundledDeep I e⟩
  · intro text e hparse
    have h := wellFormed_of_parse hparse
    refine ⟨Checked.flatten_eq_ok h, Expr.meaning_flatten I e, _, h.flatten.collectDeep_eq.1, ?_⟩
    exact (Expr.meaning_bundledDeep I e.flatten).trans (Expr.meaning_flatten I e)

/-- The statement at a tree with brackets to drop and terms to collect, read from its text. -/
theorem meaning_flatten_collect_brackets
    : let I : Interpretation :=
        ⟨fun _ => 5, fun _ values => values.length, fun a b => a * b, fun a b => a / b⟩
      let x := Expr.symbol "x"
      let e := Expr.sum [x, .group (.sum [.power x (.symbol "y"), x])]
      e.WellFormed
      ∧ parse "x + (x^y + x)" = .ok e
      ∧ e.flatten.meaning I = e.meaning I
      ∧ (∃ collected, e.collectDeep = .ok collected ∧ collected.value.meaning I = e.meaning I)
      ∧ ∃ collected,
          e.flatten.collectDeep = .ok collected ∧ collected.value.meaning I = e.meaning I := by
  intro I x e
  have hwell : e.WellFormed := by decide
  have hparse : parse "x + (x^y + x)" = .ok e := by cbv
  obtain ⟨htree, htext⟩ := meaning_flatten_collect I
  exact ⟨hwell, hparse, (htree e hwell).2.1, (htree e hwell).2.2, (htext _ e hparse).2.2⟩

end TermGrouping
