import Mathlib.Data.List.Basic
import TermGrouping.Expr.Flattening
import TermGrouping.Expr.Normal

/-! Flat trees are normal. What a place takes over from its flat operand can stay there, whether
the brackets of the operand went or stayed; and a node flattens to itself with flat children if
these can stay where they are.
-/

namespace TermGrouping.Expr

/-- A tree is normal if its root can keep its children and these are normal. -/
theorem isNormal_iff (e : Expr)
    : e.IsNormal ↔ e.isNormalNode = true ∧ ∀ child ∈ e.children, child.IsNormal :=
  forall_subtrees

theorem sumLevel_le_strength (e : Expr) : sumLevel ≤ e.strength := by
  cases e with
  | constant literal =>
      simp only [strength]
      split <;> decide
  | _ => simp [strength, sumLevel, productLevel, powerLevel, atomLevel]

/-- Dropping brackets either does nothing or leaves the content of a group that binds at the
level. -/
theorem dropBrackets_cases (level : Int) (e : Expr)
    : (e.dropBrackets level = e ∧ ∀ inner, e = group inner → inner.strength < level)
      ∨ ∃ inner, e = group inner ∧ level ≤ inner.strength ∧ e.dropBrackets level = inner := by
  cases e with
  | group inner =>
      by_cases h : level ≤ inner.strength
      · exact .inr ⟨inner, rfl, h, if_pos h⟩
      · refine .inl ⟨if_neg h, fun _ he => ?_⟩
        cases he
        omega
  | _ => exact .inl ⟨rfl, fun _ he => nomatch he⟩

/-- Dropping brackets keeps trees normal: the result is the tree or the content of its brackets. -/
theorem IsNormal.dropBrackets {e : Expr} (h : e.IsNormal) (level : Int)
    : (e.dropBrackets level).IsNormal := by
  rcases dropBrackets_cases level e with ⟨he, _⟩ | ⟨inner, rfl, _, he⟩
  · rwa [he]
  · rw [he]
    exact ((isNormal_iff _).mp h).2 inner List.mem_cons_self

/-- The content of normal brackets is no group. -/
theorem IsNormal.ne_group {inner : Expr} (h : (group inner).IsNormal) (other : Expr)
    : inner ≠ group other := by
  rintro rfl
  cases ((isNormal_iff _).mp h).1

-----------------------------------------------------------------------------------------
-- What stands in each place of a flat node
-----------------------------------------------------------------------------------------

/-- What a normal operand contributes to a sum are normal operands of a normal sum. -/
theorem IsNormal.summands {e : Expr} (h : e.IsNormal)
    : ∀ operand ∈ e.summands, operand.isNormalSummand = true ∧ operand.IsNormal := by
  have hnormal := h.dropBrackets sumLevel
  have hgroup (inner : Expr) : e.dropBrackets sumLevel ≠ group inner := by
    intro hinner
    rcases dropBrackets_cases sumLevel e with ⟨hsame, hlt⟩ | ⟨content, rfl, _, hcontent⟩
    · exact absurd (hlt inner (hsame.symm.trans hinner)) (Int.not_lt.mpr (sumLevel_le_strength _))
    · exact h.ne_group inner (hcontent.symm.trans hinner)
  intro operand ho
  unfold Expr.summands at ho
  generalize e.dropBrackets sumLevel = bare at hnormal hgroup ho
  cases bare with
  | sum operands =>
      obtain ⟨hnode, hchildren⟩ := (isNormal_iff _).mp hnormal
      exact ⟨List.all_eq_true.mp hnode operand ho, hchildren operand ho⟩
  | group inner => exact absurd rfl (hgroup inner)
  | _ =>
      cases List.mem_singleton.mp ho
      exact ⟨rfl, hnormal⟩

/-- Brackets that cannot go from a factor or a numerator hold a sum. -/
theorem eq_sum_of_strength_lt {e : Expr} (h : e.strength < productLevel)
    : ∃ operands, e = sum operands := by
  cases e with
  | sum operands => exact ⟨operands, rfl⟩
  | constant literal =>
      simp only [strength] at h
      split at h <;> exact absurd h (by decide)
  | _ => simp [strength, productLevel, powerLevel, atomLevel] at h

/-- Without brackets that can go, a normal factor is bracketed only if it is a sum. -/
theorem IsNormal.dropBrackets_productLevel {e : Expr} (h : e.IsNormal) (inner : Expr)
    (he : e.dropBrackets productLevel = group inner)
    : ∃ operands, inner = sum operands := by
  rcases dropBrackets_cases productLevel e with ⟨hsame, hlt⟩ | ⟨content, rfl, _, hcontent⟩
  · exact eq_sum_of_strength_lt (hlt inner (hsame.symm.trans he))
  · exact absurd (hcontent.symm.trans he) (h.ne_group inner)

/-- What a normal factor contributes to a product are normal factors of a normal product. -/
theorem IsNormal.factors {e : Expr} (h : e.IsNormal)
    : ∀ operand ∈ e.factors, operand.isNormalFactor = true ∧ operand.IsNormal := by
  have hnormal := h.dropBrackets productLevel
  have hgroup := h.dropBrackets_productLevel
  intro operand ho
  unfold Expr.factors at ho
  generalize e.dropBrackets productLevel = bare at hnormal hgroup ho
  cases bare with
  | product operands implicit =>
      obtain ⟨hnode, hchildren⟩ := (isNormal_iff _).mp hnormal
      exact ⟨List.all_eq_true.mp hnode operand ho, hchildren operand ho⟩
  | group inner =>
      obtain ⟨operands, rfl⟩ := hgroup inner rfl
      cases List.mem_singleton.mp ho
      exact ⟨rfl, hnormal⟩
  | _ =>
      cases List.mem_singleton.mp ho
      exact ⟨rfl, hnormal⟩

/-- A normal tree can be a numerator once its brackets are dropped where they can go. -/
theorem IsNormal.isNormalNumerator {e : Expr} (h : e.IsNormal)
    : (e.dropBrackets productLevel).isNormalNumerator = true := by
  have hgroup := h.dropBrackets_productLevel
  generalize e.dropBrackets productLevel = bare at hgroup
  cases bare with
  | group inner =>
      obtain ⟨operands, rfl⟩ := hgroup inner rfl
      rfl
  | _ => rfl

/-- A normal tree can be an exponent once its brackets are dropped where they can go. -/
theorem IsNormal.isNormalExponent {e : Expr} (h : e.IsNormal)
    : (e.dropBrackets powerLevel).isNormalExponent = true := by
  have hgroup (base exponent : Expr)
      : e.dropBrackets powerLevel ≠ group (power base exponent) := by
    intro he
    rcases dropBrackets_cases powerLevel e with ⟨hsame, hlt⟩ | ⟨content, rfl, _, hcontent⟩
    · exact absurd (hlt _ (hsame.symm.trans he)) (Int.lt_irrefl powerLevel)
    · exact h.ne_group _ (hcontent.symm.trans he)
  generalize e.dropBrackets powerLevel = bare at hgroup
  cases bare with
  | group inner =>
      cases inner with
      | power base exponent => exact absurd rfl (hgroup base exponent)
      | _ => rfl
  | _ => rfl

/-- Brackets that are not left out have normal content. -/
theorem isNormalContent_of_strength_ne {e : Expr} (h : e.strength ≠ atomLevel)
    : e.isNormalContent = true := by
  cases e with
  | constant literal =>
      simp only [strength] at h
      split at h
      · next hnegative => exact decide_eq_true hnegative
      · exact absurd rfl h
  | symbol | group | call => exact absurd rfl h
  | _ => rfl

/-- Brackets around a normal tree are normal, because they only go around what can come apart. -/
theorem IsNormal.bracketed {e : Expr} (h : e.IsNormal) : e.bracketed.IsNormal := by
  unfold Expr.bracketed
  split
  · exact h
  · exact (isNormal_iff _).mpr
      ⟨isNormalContent_of_strength_ne ‹_›, List.forall_mem_singleton.mpr h⟩

/-- Flat trees are normal. -/
theorem isNormal_flatten (e : Expr) : e.flatten.IsNormal := by
  have hall (es : List Expr) (ih : ∀ e ∈ es, e.flatten.IsNormal)
      : ∀ e ∈ flattenAll es, e.IsNormal := by
    rw [flattenAll_eq_map]
    exact List.forall_mem_map.mpr ih
  induction e using Expr.induct with
  | constant | symbol | foreign =>
      exact (isNormal_iff _).mpr ⟨rfl, fun _ hc => nomatch hc⟩
  | power base exponent ihb ihe =>
      refine (isNormal_iff _).mpr ⟨ihe.isNormalExponent, ?_⟩
      exact List.forall_mem_cons.mpr ⟨ihb.dropBrackets atomLevel,
        List.forall_mem_singleton.mpr (ihe.dropBrackets powerLevel)⟩
  | quotient numerator denominator ihn ihd =>
      refine (isNormal_iff _).mpr
        ⟨Bool.and_eq_true_iff.mpr ⟨ihn.isNormalNumerator, ihd.isNormalExponent⟩, ?_⟩
      exact List.forall_mem_cons.mpr ⟨ihn.dropBrackets productLevel,
        List.forall_mem_singleton.mpr (ihd.dropBrackets powerLevel)⟩
  | group inner ih => exact ih.bracketed
  | call name arguments ih => exact (isNormal_iff _).mpr ⟨rfl, hall arguments ih⟩
  | sum operands ih =>
      have hterms (t : Expr) (ht : t ∈ (flattenAll operands).flatMap Expr.summands)
          : t.isNormalSummand = true ∧ t.IsNormal := by
        obtain ⟨operand, ho, ht⟩ := List.mem_flatMap.mp ht
        exact (hall operands ih operand ho).summands t ht
      exact (isNormal_iff _).mpr
        ⟨List.all_eq_true.mpr fun t ht => (hterms t ht).1, fun t ht => (hterms t ht).2⟩
  | product operands implicit ih =>
      have hfactors (t : Expr) (ht : t ∈ (flattenAll operands).flatMap Expr.factors)
          : t.isNormalFactor = true ∧ t.IsNormal := by
        obtain ⟨operand, ho, ht⟩ := List.mem_flatMap.mp ht
        exact (hall operands ih operand ho).factors t ht
      exact (isNormal_iff _).mpr
        ⟨List.all_eq_true.mpr fun t ht => (hfactors t ht).1, fun t ht => (hfactors t ht).2⟩

-----------------------------------------------------------------------------------------
-- A node whose flat children can stay where they are
-----------------------------------------------------------------------------------------

theorem strength_le_atomLevel (e : Expr) : e.strength ≤ atomLevel := by
  cases e with
  | constant literal =>
      simp only [strength]
      split <;> decide
  | _ => simp [strength, sumLevel, productLevel, powerLevel, atomLevel]

/-- Brackets in a flat tree hold what can come apart. -/
theorem strength_lt_of_flatten_eq_group {e inner : Expr} (h : e.flatten = group inner)
    : inner.strength < atomLevel := by
  induction e using Expr.induct with
  | group content ih =>
      rw [flatten, bracketed] at h
      split at h
      · exact ih h
      · next hne =>
        cases h
        exact Int.lt_iff_le_and_ne.mpr ⟨strength_le_atomLevel _, hne⟩
  | _ => cases h

/-- The base of a flat power keeps its brackets, because they are needed wherever they stand. -/
theorem dropBrackets_flatten (e : Expr) : e.flatten.dropBrackets atomLevel = e.flatten := by
  rcases dropBrackets_cases atomLevel e.flatten with ⟨he, _⟩ | ⟨inner, hgroup, hle, _⟩
  · exact he
  · exact absurd (strength_lt_of_flatten_eq_group hgroup) (Int.not_lt.mpr hle)

/-- A normal operand of a sum contributes itself alone. -/
theorem summands_of_isNormalSummand {e : Expr} (h : e.isNormalSummand = true)
    : e.summands = [e] := by
  cases e with
  | sum | group => cases h
  | _ => rfl

/-- A normal factor contributes itself to a product and lets it stay implicit. -/
theorem factors_of_isNormalFactor {e : Expr} (h : e.isNormalFactor = true)
    : e.factors = [e] ∧ e.staysImplicit = true := by
  cases e with
  | product => cases h
  | group inner =>
      cases inner with
      | sum => exact ⟨rfl, rfl⟩
      | _ => cases h
  | _ => exact ⟨rfl, rfl⟩

theorem dropBrackets_of_isNormalNumerator {e : Expr} (h : e.isNormalNumerator = true)
    : e.dropBrackets productLevel = e := by
  cases e with
  | group inner =>
      cases inner with
      | sum => rfl
      | _ => cases h
  | _ => rfl

/-- A normal exponent that is a flat tree keeps its brackets, because they hold no power. -/
theorem dropBrackets_of_isNormalExponent {e : Expr} (h : e.flatten.isNormalExponent = true)
    : e.flatten.dropBrackets powerLevel = e.flatten := by
  rcases dropBrackets_cases powerLevel e.flatten with ⟨he, _⟩ | ⟨inner, hgroup, hle, _⟩
  · exact he
  · have hlt := strength_lt_of_flatten_eq_group hgroup
    rw [hgroup] at h
    cases inner with
    | power => cases h
    | constant literal =>
        simp only [strength] at hle hlt
        split at hle
        · exact absurd hle (by decide)
        · simp_all
    | _ => simp_all [strength, sumLevel, productLevel, powerLevel, atomLevel, isNormalExponent]

/-- Normal content needs its brackets. -/
theorem bracketed_of_isNormalContent {e : Expr} (h : e.isNormalContent = true)
    (hvalue : e.value? = none)
    : e.bracketed = group e := by
  unfold bracketed
  rw [if_neg]
  cases e with
  | constant literal =>
      have hnegative : literal.value < 0 := of_decide_eq_true h
      simp only [strength, if_pos hnegative]
      decide
  | symbol | group | call => cases h
  | foreign => cases hvalue
  | _ => simp [strength, sumLevel, productLevel, powerLevel, atomLevel]

/-- A node whose flat children can stay where they are flattens to itself with these children. -/
theorem flatten_eq_rebuild {e : Expr}
    (hnode : (e.rebuild (e.children.map flatten)).isNormalNode = true)
    (hvalue : ∀ child ∈ e.children, child.flatten.value? = none)
    : e.flatten = e.rebuild (e.children.map flatten) := by
  cases e with
  | constant | symbol | foreign => rfl
  | power base exponent =>
      simp only [flatten, dropBrackets_flatten, dropBrackets_of_isNormalExponent hnode]
      rfl
  | quotient numerator denominator =>
      obtain ⟨hn, hd⟩ := Bool.and_eq_true_iff.mp hnode
      simp only [flatten, dropBrackets_of_isNormalNumerator hn, dropBrackets_of_isNormalExponent hd]
      rfl
  | group inner =>
      simp only [flatten]
      exact bracketed_of_isNormalContent hnode (hvalue inner List.mem_cons_self)
  | call name arguments =>
      simp only [flatten, flattenAll_eq_map]
      rfl
  | sum operands =>
      have hsummands (t : Expr) (ht : t ∈ operands.map flatten) : t.summands = [t] :=
        summands_of_isNormalSummand (List.all_eq_true.mp hnode t ht)
      simp only [flatten, flattenAll_eq_map]
      rw [List.flatMap_congr hsummands, List.flatMap_singleton']
      rfl
  | product operands implicit =>
      have hfactors (t : Expr) (ht : t ∈ operands.map flatten) :=
        factors_of_isNormalFactor (List.all_eq_true.mp hnode t ht)
      have himplicit : (operands.map flatten).all staysImplicit = true :=
        List.all_eq_true.mpr fun t ht => (hfactors t ht).2
      simp only [flatten, flattenAll_eq_map, spliceProduct]
      rw [List.flatMap_congr fun t ht => (hfactors t ht).1, List.flatMap_singleton', himplicit,
        Bool.and_true]
      rfl

end TermGrouping.Expr
