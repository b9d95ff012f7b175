import TermGrouping.Expr.Flattening
import TermGrouping.Proofs.Parsing.Formula

/-! Well-formed trees. What a text is read as is well formed, and flattening keeps it so: a spliced
node has at least as many operands as the node it comes from.
-/

namespace TermGrouping.Expr

@[simp]
theorem wellFormed_constant (literal : Literal) : (constant literal).WellFormed := by
  rw [wellFormed_iff]
  simp [fault?, value?, operation?, children]

@[simp]
theorem wellFormed_symbol (name : String) : (symbol name).WellFormed := by
  rw [wellFormed_iff]
  simp [fault?, value?, operation?, children]

@[simp]
theorem not_wellFormed_foreign (value : Value) : ¬ (foreign value).WellFormed := by
  rw [wellFormed_iff]
  simp [fault?, value?]

@[simp]
theorem wellFormed_power {base exponent : Expr}
    : (power base exponent).WellFormed ↔ base.WellFormed ∧ exponent.WellFormed := by
  rw [wellFormed_iff]
  simp [fault?, value?, operation?, children]

@[simp]
theorem wellFormed_quotient {numerator denominator : Expr}
    : (quotient numerator denominator).WellFormed
      ↔ numerator.WellFormed ∧ denominator.WellFormed := by
  rw [wellFormed_iff]
  simp [fault?, value?, operation?, children]

@[simp]
theorem wellFormed_group {inner : Expr} : (group inner).WellFormed ↔ inner.WellFormed := by
  rw [wellFormed_iff]
  simp [fault?, value?, operation?, children]

@[simp]
theorem wellFormed_call {name : String} {arguments : List Expr}
    : (call name arguments).WellFormed ↔ ∀ e ∈ arguments, e.WellFormed := by
  rw [wellFormed_iff]
  simp [fault?, value?, operation?, children]

@[simp]
theorem wellFormed_sum {operands : List Expr}
    : (sum operands).WellFormed ↔ 2 ≤ operands.length ∧ ∀ e ∈ operands, e.WellFormed := by
  rw [wellFormed_iff]
  refine and_congr_left fun _ => ?_
  simp only [fault?, value?, operation?, ite_eq_right_iff, reduceCtorEq, imp_false, Nat.not_lt]
  exact Iff.rfl

@[simp]
theorem wellFormed_product {operands : List Expr} {implicit : Bool}
    : (product operands implicit).WellFormed
      ↔ 2 ≤ operands.length ∧ ∀ e ∈ operands, e.WellFormed := by
  rw [wellFormed_iff]
  refine and_congr_left fun _ => ?_
  simp only [fault?, value?, operation?, ite_eq_right_iff, reduceCtorEq, imp_false, Nat.not_lt]
  exact Iff.rfl

-----------------------------------------------------------------------------------------
-- What is read is well formed
-----------------------------------------------------------------------------------------

theorem WellFormed.opposite {e : Expr} (h : e.WellFormed) : e.opposite.WellFormed := by
  unfold Expr.opposite
  split
  · exact wellFormed_constant _
  · simpa using h
  · simp only [wellFormed_product, List.length_cons, List.forall_mem_cons] at h ⊢
    exact ⟨by omega, wellFormed_constant _, h.2⟩
  · simpa using h

theorem WellFormed.signed {e : Expr} (h : e.WellFormed) (sign : Sign)
    : (sign.apply e).WellFormed := by
  cases sign with
  | plus => exact h
  | minus => exact h.opposite

end Expr

/-- Every derived tree is well formed, because the grammar builds binary nodes. -/
theorem Derives.wellFormed {category : Category} {tokens : List Token} {e : Expr}
    (h : Derives category tokens e)
    : e.WellFormed := by
  induction h using Derives.induct fun _ arguments => ∀ e ∈ arguments, e.WellFormed with
  | term _ ih | factor _ ih | unsigned _ ih | base _ ih | exponentBase _ ih
    | atomOperand _ ih => exact ih
  | terms sign _ _ ihl ihr => simpa using ⟨ihl, ihr.signed sign⟩
  | signed sign _ ih | exponentSigned sign _ ih => exact ih.signed sign
  | times _ _ ihl ihr | dividedBy _ _ ihl ihr | beside _ _ ihl ihr | raised _ _ ihl ihr
    | exponentRaised _ _ ihl ihr => simpa using ⟨ihl, ihr⟩
  | fraction | decimal => exact Expr.wellFormed_constant _
  | symbol => exact Expr.wellFormed_symbol _
  | call _ _ ih => simpa using ih
  | group _ ih => simpa using ih
  | one _ ih e he => exact List.mem_singleton.mp he ▸ ih
  | more _ _ ihl ihr e he =>
      rcases List.mem_append.mp he with he | he
      · exact ihl e he
      · exact List.mem_singleton.mp he ▸ ihr

/-- Every tree that a text is read as is well formed. -/
theorem wellFormed_of_parse {text : String} {e : Expr} (h : parse text = .ok e) : e.WellFormed := by
  obtain ⟨_, _, hd, _⟩ := parse_eq_ok_iff.mp h
  exact hd.wellFormed

-----------------------------------------------------------------------------------------
-- Flat trees are well formed
-----------------------------------------------------------------------------------------

namespace Expr

theorem WellFormed.dropBrackets {e : Expr} (h : e.WellFormed) (level : Int)
    : (e.dropBrackets level).WellFormed := by
  unfold Expr.dropBrackets
  split
  · split
    · exact wellFormed_group.mp h
    · exact h
  · exact h

/-- An operand contributes well-formed operands to a sum, and at least one. -/
theorem WellFormed.summands {e : Expr} (h : e.WellFormed)
    : 1 ≤ e.summands.length ∧ ∀ operand ∈ e.summands, operand.WellFormed := by
  have hd := h.dropBrackets sumLevel
  unfold Expr.summands termsOf
  split
  · rename_i operands he
    rw [he, wellFormed_sum] at hd
    exact ⟨by omega, hd.2⟩
  · simpa using hd

/-- A factor contributes well-formed factors to a product, and at least one. -/
theorem WellFormed.factors {e : Expr} (h : e.WellFormed)
    : 1 ≤ e.factors.length ∧ ∀ operand ∈ e.factors, operand.WellFormed := by
  have hd := h.dropBrackets productLevel
  unfold Expr.factors factorsOf
  split
  · rename_i operands implicit he
    rw [he, wellFormed_product] at hd
    exact ⟨by omega, hd.2⟩
  · simpa using hd

/-- Replacing each member of a list by at least one makes no shorter list. -/
theorem length_le_flatMap {α β : Type} (f : α → List β) (l : List α)
    (h : ∀ a ∈ l, 1 ≤ (f a).length)
    : l.length ≤ (l.flatMap f).length := by
  induction l with
  | nil => simp
  | cons a l ih =>
      have ha := h a List.mem_cons_self
      have hl := ih fun b hb => h b (List.mem_cons_of_mem a hb)
      simp only [List.length_cons, List.flatMap_cons, List.length_append]
      omega

/-- A flat tree of a well-formed tree is well formed. -/
theorem WellFormed.flatten {e : Expr} (h : e.WellFormed) : e.flatten.WellFormed := by
  induction e using Expr.induct with
  | constant | symbol | foreign => exact h
  | power base exponent ihb ihe =>
      simp only [Expr.flatten, wellFormed_power] at h ⊢
      exact ⟨(ihb h.1).dropBrackets _, (ihe h.2).dropBrackets _⟩
  | quotient numerator denominator ihn ihd =>
      simp only [Expr.flatten, wellFormed_quotient] at h ⊢
      exact ⟨(ihn h.1).dropBrackets _, (ihd h.2).dropBrackets _⟩
  | group inner ih =>
      have hi := ih (wellFormed_group.mp h)
      simp only [Expr.flatten, bracketed]
      split
      · exact hi
      · exact wellFormed_group.mpr hi
  | call name arguments ih =>
      simp only [Expr.flatten, flattenAll_eq_map, wellFormed_call, List.forall_mem_map] at h ⊢
      exact fun e he => ih e he (h e he)
  | sum operands ih =>
      simp only [Expr.flatten, flattenAll_eq_map, wellFormed_sum] at h ⊢
      have hf (e : Expr) (he : e ∈ operands.map Expr.flatten) : e.WellFormed := by
        obtain ⟨operand, ho, rfl⟩ := List.mem_map.mp he
        exact ih operand ho (h.2 operand ho)
      constructor
      · have hl := length_le_flatMap Expr.summands (operands.map Expr.flatten)
          fun e he => (hf e he).summands.1
        rw [List.length_map] at hl
        omega
      · intro e he
        obtain ⟨operand, ho, he⟩ := List.mem_flatMap.mp he
        exact (hf operand ho).summands.2 e he
  | product operands implicit ih =>
      simp only [Expr.flatten, flattenAll_eq_map, spliceProduct, wellFormed_product] at h ⊢
      have hf (e : Expr) (he : e ∈ operands.map Expr.flatten) : e.WellFormed := by
        obtain ⟨operand, ho, rfl⟩ := List.mem_map.mp he
        exact ih operand ho (h.2 operand ho)
      constructor
      · have hl := length_le_flatMap Expr.factors (operands.map Expr.flatten)
          fun e he => (hf e he).factors.1
        rw [List.length_map] at hl
        omega
      · intro e he
        obtain ⟨operand, ho, he⟩ := List.mem_flatMap.mp he
        exact (hf operand ho).factors.2 e he

end Expr

end TermGrouping
