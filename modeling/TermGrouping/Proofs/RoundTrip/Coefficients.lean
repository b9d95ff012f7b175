import TermGrouping.Proofs.RoundTrip.Joints
import TermGrouping.Proofs.RoundTrip.Merging

/-! Coefficients that a tree gets by being read back. A base with a sign of its own comes back as a
product with the coefficient minus one, so a tree with such a base is not read back as itself.
-/

namespace TermGrouping

/-- A joint of a product counts two, and a constant minus one takes one of them back. -/
def coefficientWeights : Weights where
  constant value := if value = -1 then -1 else 0
  sum := 0
  product := 2

@[simp]
theorem coefficientWeights_constant (value : Rat)
    : coefficientWeights.constant value = if value = -1 then -1 else 0 := rfl

@[simp]
theorem coefficientWeights_sum : coefficientWeights.sum = 0 := rfl

@[simp]
theorem coefficientWeights_product : coefficientWeights.product = 2 := rfl

namespace Expr

/-- The joints of the products of a tree, without those of coefficients minus one. -/
def coefficients (e : Expr) : Int := e.measure coefficientWeights

/-- How many bases with a sign of their own a node has. -/
def signedBases (e : Expr) : Int := if e.hasSignedBase then 1 else 0

/-- A sum nested to the left counts a joint for each further operand, by induction over them. -/
theorem measure_foldl_sum (w : Weights) (a : Expr) (rest : List Expr)
    : (rest.foldl (fun a b => sum [a, b]) a).measure w
      = a.measure w + measureAll w w.sum rest := by
  induction rest generalizing a with
  | nil => simp
  | cons e rest ih =>
      simp only [List.foldl_cons, ih, measure_sum, measureAll_cons, measureAll_nil]
      ring

theorem measure_foldl_product (w : Weights) (implicit : Bool) (a : Expr) (rest : List Expr)
    : (rest.foldl (fun a b => product [a, b] implicit) a).measure w
      = a.measure w + measureAll w w.product rest := by
  induction rest generalizing a with
  | nil => simp
  | cons e rest ih =>
      simp only [List.foldl_cons, ih, measure_product, measureAll_cons, measureAll_nil]
      ring

@[simp]
theorem measure_grouped (w : Weights) (needed : Bool) (e : Expr)
    : (e.grouped needed).measure w = e.measure w := by
  cases needed <;> simp [grouped]

/-- A factor minus one in front takes one joint more than it gives back. -/
theorem coefficients_minusOne (e : Expr)
    : (product [constant .minusOne, e] true).coefficients = e.coefficients + 1 := by
  simp only [coefficients, measure_product, measureAll_cons, measureAll_nil, measure_constant,
    coefficientWeights_constant, coefficientWeights_product, Literal.minusOne, if_true]
  ring

theorem coefficients_opposite_power (base exponent : Expr)
    : (power base exponent).opposite.coefficients = (power base exponent).coefficients + 1 :=
  coefficients_minusOne _

/-- A coefficient one is a joint that gives nothing back. -/
theorem coefficients_opposite_opposite_power (base exponent : Expr)
    : (power base exponent).opposite.opposite.coefficients
      = (power base exponent).coefficients + 2 := by
  change (product [constant Literal.minusOne.opposite, power base exponent] true).coefficients = _
  have hone : ¬ Literal.minusOne.opposite.value = -1 := by decide
  simp only [coefficients, measure_product, measureAll_cons, measureAll_nil, measure_constant,
    coefficientWeights_constant, coefficientWeights_product, hone, if_false]
  ring

/-- The opposite of what can follow another factor has one coefficient more, also where it is a
product with the coefficient minus one already. -/
theorem IsReadable.coefficients_opposite {e : Expr} (h : e.IsReadable)
    (hf : e.canFollow = true)
    : (e.reread.grouped e.bracketedLater).opposite.coefficients
      = (e.reread.grouped e.bracketedLater).coefficients + 1 := by
  cases hs : e.hasSignedBase with
  | false =>
      obtain ⟨hfollow, ho⟩ := h.canFollow_reread hf hs
      rw [opposite_of_canFollow hfollow ho, coefficients_minusOne]
  | true =>
      cases h with
      | @power base exponent =>
          simp only [reread, hs, if_true, bracketedLater, grouped, Bool.false_eq_true, if_false]
          rw [coefficients_opposite_opposite_power, coefficients_opposite_power, add_assoc]
          rfl
      | _ => simp [hasSignedBase] at hs

/-- A base with a sign of its own is a zero, because other bases with a sign are bracketed. -/
theorem value_of_hasSignedBase {literal : Literal} {exponent : Expr} (h : literal.IsReadable)
    (hs : hasSignedBase (power (constant literal) exponent) = true)
    : literal.value = 0 := by
  simp only [hasSignedBase, basePlain, Bool.and_eq_true, decide_eq_true_eq] at hs
  obtain ⟨⟨hvalue, _⟩, hsigned⟩ := hs
  have hv := h.value
  rw [if_pos hsigned] at hv
  have hn := literal.numeral.value_nonneg
  rw [hv] at hvalue ⊢
  exact le_antisymm (neg_nonpos.mpr hn) hvalue

/-- The signed bases of a tree without one at its root are those of its children. -/
theorem total_signedBases {e : Expr} (h : e.hasSignedBase = false)
    : total signedBases e = totalAll signedBases e.children := by
  rw [total_eq, signedBases, h]
  exact zero_add _

/-- What a list of trees is read back as has the coefficients of the trees and those of their
signed bases. -/
theorem measureAll_rereadAll {es : List Expr} (joint : Int) (needed : Expr → Bool)
    (h : ∀ e ∈ es, e.reread.coefficients = e.coefficients + total signedBases e)
    : measureAll coefficientWeights joint (rereadAll needed es)
      = measureAll coefficientWeights joint es + totalAll signedBases es := by
  induction es with
  | nil => rfl
  | cons e es ih =>
      obtain ⟨he, hes⟩ := List.forall_mem_cons.mp h
      simp only [coefficients] at he
      simp only [rereadAll, measureAll_cons, measure_grouped, he, ih hes, totalAll_cons]
      ring

/-- A power whose base has a sign of its own is read back with a coefficient more. -/
theorem coefficients_reread_signedBase {literal : Literal} {exponent : Expr}
    (hl : literal.IsReadable) (hs : hasSignedBase (power (constant literal) exponent) = true)
    (hx : exponent.reread.coefficients = exponent.coefficients + total signedBases exponent)
    : (power (constant literal) exponent).reread.coefficients
      = (power (constant literal) exponent).coefficients
        + total signedBases (power (constant literal) exponent) := by
  have hvalue := value_of_hasSignedBase hl hs
  have hreread : literal.reread.opposite.value = 0 := by
    rw [Literal.opposite, hl.reread_value, hvalue, neg_zero]
  have htotal : total signedBases (power (constant literal) exponent)
      = 1 + total signedBases exponent := by
    rw [total_eq]
    simp [signedBases, hs, children, total_signedBases (e := constant literal) rfl]
  have hopposite := coefficients_opposite_power (constant literal.reread.opposite)
    (exponent.reread.grouped exponent.bracketedLater)
  simp only [coefficients] at hx hopposite ⊢
  simp only [reread, hs, if_true, opposite] at hopposite ⊢
  rw [htotal, hopposite]
  simp [hreread, hvalue, hx]
  ring

/-- A coefficient that is written as a sign is read back as the coefficient of the factor behind
it. -/
theorem coefficients_reread_minusOne {head : Expr} {rest : List Expr} {implicit : Bool}
    (hj : isJuxtaposed (head :: rest) implicit = true) (hm : head.isMinusOne = true)
    (hne : rest ≠ []) (hr : ∀ e ∈ rest, e.IsReadable)
    (ihr : ∀ e ∈ rest, e.reread.coefficients = e.coefficients + total signedBases e)
    : (product (head :: rest) implicit).reread.coefficients
      = (product (head :: rest) implicit).coefficients
        + totalAll signedBases (head :: rest) := by
  cases head with
  | constant literal =>
      have hvalue : literal.value = -1 := by simpa [isMinusOne] using hm
      have hzero : total signedBases (constant literal) = 0 := rfl
      obtain ⟨first, later, rfl⟩ := List.exists_cons_of_ne_nil hne
      obtain ⟨hfirst, hlater⟩ := List.forall_mem_cons.mp ihr
      simp only [isJuxtaposed, List.drop_succ_cons, List.drop_zero, List.all_cons,
        Bool.and_eq_true] at hj
      have hopposite := (hr first (.head _)).coefficients_opposite hj.2.1
      have hbehind := measureAll_rereadAll 2 bracketedLater hlater
      simp only [coefficients, measure_grouped] at hfirst hopposite ⊢
      simp only [reread, isJuxtaposed, List.drop_succ_cons, List.drop_zero, List.all_cons, hj, hm,
        Bool.and_self, if_true, rereadAll, measure_foldl_product, coefficientWeights_product,
        hopposite, hbehind, hfirst, measure_product, measureAll_cons, measure_constant,
        coefficientWeights_constant, hvalue, totalAll_cons, hzero]
      ring
  | _ => simp [isMinusOne] at hm

/-- A tree that is read back has a coefficient more for every base with a sign of its own. -/
theorem IsReadable.coefficients_reread {e : Expr} (h : e.IsReadable)
    : e.reread.coefficients = e.coefficients + total signedBases e := by
  induction h with
  | constant hl =>
      rw [total_signedBases rfl]
      simp [coefficients, reread, hl.reread_value, children]
  | symbol => rfl
  | @power base exponent hb _ ihb ihx =>
      cases hs : hasSignedBase (.power base exponent) with
      | false =>
          rw [total_signedBases hs]
          simp only [coefficients] at ihb ihx ⊢
          simp only [reread, hs, Bool.false_eq_true, if_false, measure_power, measure_grouped, ihb,
            ihx, children, totalAll_cons, totalAll_nil]
          ring
      | true =>
          cases hb with
          | constant hl => exact coefficients_reread_signedBase hl hs ihx
          | _ => simp [hasSignedBase] at hs
  | quotient _ _ ihn ihd =>
      rw [total_signedBases rfl]
      simp only [coefficients] at ihn ihd ⊢
      simp only [reread, measure_quotient, measure_grouped, ihn, ihd, children, totalAll_cons,
        totalAll_nil]
      ring
  | group _ ih =>
      rw [total_signedBases rfl]
      simpa [coefficients, reread, children] using ih
  | sum _ _ _ ihh ihr =>
      rw [total_signedBases rfl]
      simp only [coefficients] at ihh ⊢
      simp only [reread, measure_foldl_sum, measure_grouped, measureAll_rereadAll _ _ ihr, ihh,
        measure_sum, measureAll_cons, children, totalAll_cons]
      ring
  | call _ _ _ ihh ihr =>
      rw [total_signedBases rfl]
      have h := measureAll_rereadAll 0 (fun _ => false) (List.forall_mem_cons.mpr ⟨ihh, ihr⟩)
      simpa [coefficients, reread, children] using h
  | @product head rest implicit hne hh hr ihh ihr =>
      rw [total_signedBases rfl]
      have hsplit (implicit' : Bool)
          : ((rereadAll bracketedLater rest).foldl (fun a b => .product [a, b] implicit')
              (head.reread.grouped head.bracketedFirst)).coefficients
            = (Expr.product (head :: rest) implicit).coefficients
              + totalAll signedBases (head :: rest) := by
        simp only [coefficients] at ihh ⊢
        simp only [measure_foldl_product, measure_grouped, coefficientWeights_product,
          measureAll_rereadAll 2 bracketedLater ihr, ihh, measure_product, measureAll_cons,
          totalAll_cons]
        ring
      cases hj : isJuxtaposed (head :: rest) implicit with
      | false =>
          simp only [reread, hj, Bool.false_eq_true, if_false]
          exact hsplit false
      | true =>
          cases hm : head.isMinusOne with
          | false =>
              simp only [reread, hj, hm, Bool.false_eq_true, if_false, if_true]
              exact hsplit true
          | true => exact coefficients_reread_minusOne hj hm hne hr ihr

/-- A tree that is read back with its own coefficients has no base with a sign of its own. -/
theorem IsReadable.hasSignedBase_of_reread {e : Expr} (h : e.IsReadable)
    (hc : e.reread.coefficients = e.coefficients)
    : ∀ node ∈ e.subtrees, node.hasSignedBase = false := by
  intro node hn
  have hzero : total signedBases e = 0 := by
    have := h.coefficients_reread
    omega
  have hnonneg (e : Expr) : 0 ≤ e.signedBases := by
    unfold signedBases
    split <;> decide
  simpa [signedBases] using eq_zero_of_total hnonneg hzero node hn

end Expr

end TermGrouping
