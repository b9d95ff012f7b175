import TermGrouping.Bundle.Collecting
import TermGrouping.Checked
import TermGrouping.Proofs.Bundles
import TermGrouping.Proofs.WellFormed

/-! Collecting in well-formed trees. No check fails in a well-formed tree, so collecting is a plain
function of it; the function is given here, and its trees are well formed again.
-/

namespace TermGrouping

namespace Expr

/-- A node with its operands bundled. A node that is no sum and no product stays as it is. -/
def bundled (e : Expr) : Noted Expr :=
  match e.operation? with
  | none => ⟨e, [.settled e.kindName]⟩
  | some (operator, operands) =>
      if Bundle.areCollectable (Bundle.ofOperands operator operands) then
        let ordered := Bundle.ordered operator (Bundle.ofOperands operator operands)
        {
          value := operator.combine (ordered.map fun bundle => operator.combine bundle.members)
          notes := [.collected operands.length (ordered.map fun bundle => bundle.key.kind)]
        }
      else ⟨e, [.settled e.kindName]⟩

mutual
/-- A tree with the operands of all its nodes bundled, children before parents. -/
def bundledDeep : Expr → Noted Expr
  | power base exponent =>
      ⟨power base.bundledDeep.value exponent.bundledDeep.value,
        base.bundledDeep.notes ++ exponent.bundledDeep.notes⟩
  | sum operands =>
      let node := (sum (bundledDeepAll operands).value).bundled
      ⟨node.value, (bundledDeepAll operands).notes ++ node.notes⟩
  | product operands implicit =>
      let node := (product (bundledDeepAll operands).value implicit).bundled
      ⟨node.value, (bundledDeepAll operands).notes ++ node.notes⟩
  | group inner => ⟨group inner.bundledDeep.value, inner.bundledDeep.notes⟩
  | call name arguments =>
      ⟨call name (bundledDeepAll arguments).value, (bundledDeepAll arguments).notes⟩
  | quotient numerator denominator =>
      ⟨quotient numerator.bundledDeep.value denominator.bundledDeep.value,
        numerator.bundledDeep.notes ++ denominator.bundledDeep.notes⟩
  | e => ⟨e, []⟩

def bundledDeepAll : List Expr → Noted (List Expr)
  | [] => ⟨[], []⟩
  | e :: es =>
      ⟨e.bundledDeep.value :: (bundledDeepAll es).value,
        e.bundledDeep.notes ++ (bundledDeepAll es).notes⟩
end

theorem bundledDeepAll_value (es : List Expr)
    : (bundledDeepAll es).value = es.map fun e => e.bundledDeep.value := by
  induction es with
  | nil => rfl
  | cons e es ih => simp [bundledDeepAll, ih]

/-- Collecting a list bundles all of its trees if collecting each of them does, by induction over
the list. -/
theorem collectDeepAll_eq_ok {es : List Expr} (h : ∀ e ∈ es, e.collectDeep = .ok e.bundledDeep)
    : collectDeepAll es = .ok (bundledDeepAll es) := by
  induction es with
  | nil => rfl
  | cons e es ih =>
      obtain ⟨he, hes⟩ := List.forall_mem_cons.mp h
      rw [collectDeepAll, he, ih hes]
      rfl

-----------------------------------------------------------------------------------------
-- The checks of a well-formed node succeed
-----------------------------------------------------------------------------------------

theorem WellFormed.fault?_eq_none {e : Expr} (h : e.WellFormed) : e.fault? = none :=
  ((wellFormed_iff e).mp h).1

theorem WellFormed.check_eq_ok {e : Expr} (h : e.WellFormed) : e.check = .ok () := by
  rw [check, h.fault?_eq_none]

/-- No plain value stands anywhere in a well-formed tree. -/
theorem WellFormed.value?_eq_none {e node : Expr} (h : e.WellFormed) (hn : node ∈ e.subtrees)
    : node.value? = none := by
  have hf := h node hn
  unfold fault? at hf
  split at hf
  · cases hf
  · assumption
  · assumption

/-- What remains of a well-formed term without its coefficient is well formed: one factor, or a
product of several. -/
theorem WellFormed.asMultiple {e : Expr} (h : e.WellFormed) : e.asMultiple.2.WellFormed := by
  unfold Expr.asMultiple
  split
  · next coefficient rest implicit =>
    obtain ⟨hlength, hfactors⟩ := wellFormed_product.mp h
    match rest with
    | [] => simp at hlength
    | [factor] => exact hfactors factor (by simp)
    | first :: second :: rest =>
        exact wellFormed_product.mpr ⟨by simp, (List.forall_mem_cons.mp hfactors).2⟩
  · exact h

/-- The tree that identifies an operand is the operand itself or an exponent in it. -/
theorem WellFormed.key_tree {e tree : Expr} {operator : Operator} (h : e.WellFormed)
    (ht : (operator.key e).tree? = some tree)
    : tree.WellFormed := by
  cases operator with
  | sum =>
      simp only [Operator.key, summandKey] at ht
      split at ht
      · split at ht <;> cases ht
      · have hrest := h.asMultiple
        cases hk : termKey? e.asMultiple.2 with
        | none =>
            rw [hk] at ht
            cases ht
            exact h
        | some key =>
            rw [hk] at ht
            unfold termKey? at hk
            split at hk
            · cases hk
              cases ht
            · next hpower =>
              cases hk
              cases ht
              rw [hpower] at hrest
              exact (wellFormed_power.mp hrest).2
            · cases hk
  | product =>
      simp only [Operator.key, factorKey] at ht
      split at ht
      · cases ht
      · cases ht
      · cases ht
      · cases ht
        exact h

/-- The key of a well-formed operand can be looked up: no plain value stands in its tree, and so no
list. -/
theorem WellFormed.checkKey_eq_ok {e : Expr} (operator : Operator) (h : e.WellFormed)
    : checkKey (operator.key e) = .ok () := by
  unfold checkKey
  rw [if_neg]
  rw [Bool.not_eq_true, Option.any_eq_false]
  intro tree ht
  rw [List.any_eq_false]
  intro node hn
  rw [(h.key_tree ht).value?_eq_none hn]
  exact Bool.false_ne_true

/-- A traversal succeeds if it succeeds at each member. -/
theorem forM_eq_ok {α ε : Type} {f : α → Except ε Unit} {l : List α}
    (h : ∀ a ∈ l, f a = .ok ())
    : l.forM f = .ok () := by
  induction l with
  | nil => rfl
  | cons a l ih =>
      change (f a >>= fun _ => l.forM f) = .ok ()
      rw [h a List.mem_cons_self]
      exact ih fun b hb => h b (List.mem_cons_of_mem a hb)

/-- A sum or a product is well formed if it has several operands, all of them well formed. -/
theorem wellFormed_iff_operands {e : Expr} {operator : Operator} {operands : List Expr}
    (ho : e.operation? = some (operator, operands))
    : e.WellFormed ↔ 2 ≤ operands.length ∧ ∀ operand ∈ operands, operand.WellFormed := by
  unfold operation? at ho
  split at ho <;> cases ho
  · exact wellFormed_sum
  · exact wellFormed_product

/-- A well-formed sum or product has at least two operands, all of them well formed. -/
theorem WellFormed.operands {e : Expr} {operator : Operator} {operands : List Expr}
    (h : e.WellFormed) (ho : e.operation? = some (operator, operands))
    : 2 ≤ operands.length ∧ ∀ operand ∈ operands, operand.WellFormed :=
  (wellFormed_iff_operands ho).mp h

/-- A well-formed node has bundles, because none of its operands is refused on the way. -/
theorem WellFormed.bundles_eq_ok {e : Expr} {operator : Operator} {operands : List Expr}
    (h : e.WellFormed) (ho : e.operation? = some (operator, operands))
    : e.bundles = .ok (Bundle.ofOperands operator operands) := by
  have hall : (operands.forM fun operand => do
      operand.check
      checkKey (operator.key operand)) = Except.ok () := by
    apply forM_eq_ok
    intro operand hm
    have hw := (h.operands ho).2 operand hm
    rw [hw.check_eq_ok]
    exact hw.checkKey_eq_ok operator
  unfold bundles
  rw [h.check_eq_ok, ho]
  simp only [bind, Except.bind, pure, Except.pure] at hall ⊢
  rw [hall]

/-- Collecting the operands of a well-formed node bundles them. -/
theorem WellFormed.collect_eq {e : Expr} (h : e.WellFormed) : e.collect = .ok e.bundled := by
  unfold collect bundled
  cases ho : e.operation? with
  | none => rfl
  | some operation =>
      obtain ⟨operator, operands⟩ := operation
      simp only [h.bundles_eq_ok ho]
      simp only [bind, Except.bind, pure, Except.pure]
      split <;> rfl

theorem WellFormed.firstFactor_eq_ok {e : Expr} (h : e.WellFormed)
    : Checked.firstFactor e = .ok () := by
  have hempty : e.isEmptyProduct = false := by
    unfold isEmptyProduct
    split
    · simp at h
    · rfl
  simp [Checked.firstFactor, hempty]

theorem WellFormed.children_eq_ok {e : Expr} (h : e.WellFormed)
    : Checked.children e = .ok e.children := by
  have hvalue : e.value? = none := h.value?_eq_none (by rw [subtrees_eq]; exact .head _)
  rw [Checked.children, Checked.rootExpression, hvalue]
  rfl

theorem WellFormed.opposite_eq_ok {e : Expr} (h : e.WellFormed)
    : Checked.opposite e = .ok e.opposite := by
  rw [Checked.opposite, h.firstFactor_eq_ok]
  rfl

theorem WellFormed.asMultiple_eq_ok {e : Expr} (h : e.WellFormed)
    : Checked.asMultiple e = .ok e.asMultiple := by
  rw [Checked.asMultiple, h.firstFactor_eq_ok]
  rfl

-----------------------------------------------------------------------------------------
-- Bundling keeps trees well formed
-----------------------------------------------------------------------------------------

/-- Well-formed operands combine to a well-formed node, or to the only one of them. -/
theorem wellFormed_combine (operator : Operator) {operands : List Expr} (hne : operands ≠ [])
    (h : ∀ e ∈ operands, e.WellFormed)
    : (operator.combine operands).WellFormed := by
  match operands with
  | [] => exact absurd rfl hne
  | [e] => exact h e List.mem_cons_self
  | e :: f :: rest =>
      cases operator with
      | sum => exact wellFormed_sum.mpr ⟨by simp, h⟩
      | product => exact wellFormed_product.mpr ⟨by simp, h⟩

theorem children_of_operation? {e : Expr} {operator : Operator} {operands : List Expr}
    (h : e.operation? = some (operator, operands))
    : e.children = operands := by
  cases e <;> cases h <;> rfl

/-- A property of a node and its operands that combining keeps is one of the bundled node. -/
theorem bundled_of_combine {P : Expr → Prop} {e : Expr} (he : P e)
    (hchildren : ∀ child ∈ e.children, P child)
    (hcombine : ∀ operator operands, operands ≠ [] → (∀ operand ∈ operands, P operand)
      → P (Operator.combine operator operands))
    : P e.bundled.value := by
  unfold bundled
  cases ho : e.operation? with
  | none => exact he
  | some operation =>
      obtain ⟨operator, operands⟩ := operation
      rw [children_of_operation? ho] at hchildren
      dsimp only
      split
      · next hc =>
        simp only [Bundle.areCollectable, Bool.and_eq_true, decide_eq_true_eq] at hc
        have hperm := Bundle.ordered_perm operator operands
        apply hcombine
        · intro hnil
          have hlength := hperm.length_eq
          rw [List.map_eq_nil_iff.mp hnil, List.length_nil] at hlength
          omega
        · intro node hn
          obtain ⟨bundle, hb, rfl⟩ := List.mem_map.mp hn
          have hb := hperm.subset hb
          exact hcombine operator _ (Bundle.members_ne_nil hb) fun operand hm =>
            hchildren operand (Bundle.members_subset hb hm)
      · exact he

/-- Bundling keeps trees well formed: the node has several operands left, and so does every bundle
that becomes a node. -/
theorem WellFormed.bundled {e : Expr} (h : e.WellFormed) : e.bundled.value.WellFormed :=
  bundled_of_combine h ((wellFormed_iff e).mp h).2 fun operator _ hne =>
    wellFormed_combine operator hne

/-- Collecting in all of a well-formed tree bundles the operands of all its nodes, and the tree
stays well formed. -/
theorem WellFormed.collectDeep_eq {e : Expr} (h : e.WellFormed)
    : e.collectDeep = .ok e.bundledDeep ∧ e.bundledDeep.value.WellFormed := by
  have hall (es : List Expr) (hes : ∀ e ∈ es, e.WellFormed)
      (ih : ∀ e ∈ es, e.WellFormed
        → e.collectDeep = .ok e.bundledDeep ∧ e.bundledDeep.value.WellFormed)
      : collectDeepAll es = .ok (bundledDeepAll es)
        ∧ ∀ e ∈ (bundledDeepAll es).value, e.WellFormed := by
    constructor
    · exact collectDeepAll_eq_ok fun e he => (ih e he (hes e he)).1
    · rw [bundledDeepAll_value]
      intro node hn
      obtain ⟨e, he, rfl⟩ := List.mem_map.mp hn
      exact (ih e he (hes e he)).2
  induction e using Expr.induct with
  | constant | symbol => exact ⟨rfl, h⟩
  | foreign value => exact absurd h (not_wellFormed_foreign value)
  | power base exponent ihb ihe =>
      obtain ⟨hb, he⟩ := wellFormed_power.mp h
      rw [collectDeep, (ihb hb).1, (ihe he).1]
      exact ⟨rfl, wellFormed_power.mpr ⟨(ihb hb).2, (ihe he).2⟩⟩
  | quotient numerator denominator ihn ihd =>
      obtain ⟨hn, hd⟩ := wellFormed_quotient.mp h
      rw [collectDeep, (ihn hn).1, (ihd hd).1]
      exact ⟨rfl, wellFormed_quotient.mpr ⟨(ihn hn).2, (ihd hd).2⟩⟩
  | group inner ih =>
      have hi := ih (wellFormed_group.mp h)
      rw [collectDeep, hi.1]
      exact ⟨rfl, wellFormed_group.mpr hi.2⟩
  | call name arguments ih =>
      have hkids := hall arguments (wellFormed_call.mp h) ih
      rw [collectDeep, hkids.1]
      exact ⟨rfl, wellFormed_call.mpr hkids.2⟩
  | sum operands ih =>
      obtain ⟨hlength, hoperands⟩ := wellFormed_sum.mp h
      have hkids := hall operands hoperands ih
      have hnode : (sum (bundledDeepAll operands).value).WellFormed :=
        wellFormed_sum.mpr ⟨by simpa [bundledDeepAll_value] using hlength, hkids.2⟩
      rw [collectDeep, h.check_eq_ok, hkids.1]
      simp only [bind, Except.bind, hnode.collect_eq]
      exact ⟨rfl, hnode.bundled⟩
  | product operands implicit ih =>
      obtain ⟨hlength, hoperands⟩ := wellFormed_product.mp h
      have hkids := hall operands hoperands ih
      have hnode : (product (bundledDeepAll operands).value implicit).WellFormed :=
        wellFormed_product.mpr ⟨by simpa [bundledDeepAll_value] using hlength, hkids.2⟩
      rw [collectDeep, h.check_eq_ok, hkids.1]
      simp only [bind, Except.bind, hnode.collect_eq]
      exact ⟨rfl, hnode.bundled⟩

end Expr

/-- Flattening refuses no well-formed tree. -/
theorem Checked.flatten_eq_ok {e : Expr} (h : e.WellFormed)
    : Checked.flatten e = .ok e.flatten := by
  have hfirst : e.firstValue? = none := by
    rw [Expr.firstValue?, List.findSome?_eq_none_iff]
    exact fun node hn => h.value?_eq_none hn
  rw [Checked.flatten, Checked.allExpressions, hfirst]
  rfl

end TermGrouping
