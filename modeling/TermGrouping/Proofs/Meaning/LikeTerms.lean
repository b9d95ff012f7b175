import TermGrouping.Proofs.Collecting.Repetition
import TermGrouping.Proofs.Meaning.Coefficients

/-! Like terms. Operands of a sum with alike keys are multiples of one tree, whatever the parts of
it mean, and operands of a product with alike keys are constants, powers of one symbol or the same
tree. The opposite of a term is a like term of it, because only the coefficient changes.
-/

namespace TermGrouping

/-- A key without a tree is alike only to itself. -/
theorem Key.Alike.eq_of_tree? {a b : Key} (h : Alike a b) (ha : a.tree? = none) : b = a := by
  unfold Alike at h
  cases a <;> cases b <;> simp_all [Key.shape, Key.tree?]

namespace Expr

/-- A tree means what its shape means: written forms do not count. -/
theorem meaning_shape (I : Interpretation) (e : Expr) : e.shape.meaning I = e.meaning I := by
  have hmap (es : List Expr) (ih : ∀ e ∈ es, e.shape.meaning I = e.meaning I)
      : (shapeAll es).map (meaning I) = es.map (meaning I) := by
    rw [shapeAll_eq_map, List.map_map]
    exact List.map_congr_left ih
  induction e using Expr.induct with
  | constant | symbol | foreign => rfl
  | power base exponent ihb ihe => simp only [shape, meaning, ihb, ihe]
  | quotient numerator denominator ihn ihd => simp only [shape, meaning, ihn, ihd]
  | group inner ih => simp only [shape, meaning, ih]
  | call name arguments ih => simp only [shape, meaning, meanings_eq_map, hmap arguments ih]
  | sum operands ih => rw [shape, meaning_sum, hmap operands ih, meaning_sum]
  | product operands implicit ih => rw [shape, meaning_product, hmap operands ih, meaning_product]

/-- Alike trees have the same meaning, because the shape keeps it. -/
theorem Alike.meaning_eq (I : Interpretation) {a b : Expr} (h : Alike a b)
    : a.meaning I = b.meaning I := by
  rw [← meaning_shape, show a.shape = b.shape from h, meaning_shape]

/-- Operands with alike keys of no special kind are alike. -/
theorem alike_of_kind_eq_other (operator : Operator) {a b : Expr}
    (h : Key.Alike (operator.key a) (operator.key b)) (hkind : (operator.key a).kind = .other)
    : Alike a b := by
  have hother := h.kind_eq.symm.trans hkind
  rw [key_of_kind_eq_other hkind, key_of_kind_eq_other hother] at h
  exact Key.other.inj h

-----------------------------------------------------------------------------------------
-- Operands of a sum with alike keys
-----------------------------------------------------------------------------------------

/-- Terms that are multiples of one tree, whatever its parts mean. -/
def AreLikeTerms (a b : Expr) : Prop :=
  ∃ (p q : Rat) (rest : Expr), rest.WellFormed
    ∧ ∀ I, a.meaning I = p * rest.meaning I ∧ b.meaning I = q * rest.meaning I

/-- Constants are multiples of the constant one. -/
theorem areLikeTerms_constant (a b : Literal) : AreLikeTerms (constant a) (constant b) :=
  ⟨a.value, b.value, constant .one, wellFormed_constant _, fun _ =>
    ⟨(mul_one _).symm, (mul_one _).symm⟩⟩

/-- Terms are like terms if they are alike without their coefficients. -/
theorem areLikeTerms_of_alike_rest {a b : Expr} (hw : a.asMultiple.2.WellFormed)
    (h : Alike a.asMultiple.2 b.asMultiple.2)
    : AreLikeTerms a b := by
  refine ⟨a.coefficient, b.coefficient, a.asMultiple.2, hw, fun I => ⟨meaning_asMultiple I a, ?_⟩⟩
  rw [meaning_asMultiple I b, h.meaning_eq]

/-- Symbols and powers with alike keys are alike. -/
theorem alike_of_termKey? {a b : Expr} {left right : Key} (ha : termKey? a = some left)
    (hb : termKey? b = some right) (h : Key.Alike left right)
    : Alike a b := by
  unfold Key.Alike at h
  unfold Alike
  unfold termKey? at ha hb
  split at ha <;> split at hb <;> cases ha <;> cases hb <;> simp_all [Key.shape, shape]

/-- A key of a special kind is that of the rest of the term, if the term is no constant. -/
theorem termKey?_of_kind_ne_other {e : Expr} (hc : e.isConstant = false)
    (h : (summandKey e).kind ≠ .other)
    : termKey? e.asMultiple.2 = some (summandKey e) := by
  rw [summandKey_of_not_isConstant hc] at h ⊢
  cases hk : termKey? e.asMultiple.2 with
  | none => simp [hk, Key.kind] at h
  | some key => rfl

/-- Operands of a sum with alike keys are like terms. -/
theorem areLikeTerms_of_alike_summandKey {a b : Expr} (ha : a.WellFormed)
    (h : Key.Alike (summandKey a) (summandKey b))
    : AreLikeTerms a b := by
  have hconstant {literal : Literal} {e : Expr}
      (h : Key.Alike (summandKey (constant literal)) (summandKey e))
      : ∃ other, e = constant other := by
    rw [summandKey_constant, alike_constantKey] at h
    obtain ⟨other, rfl, -⟩ := summandKey_eq_constantKey.mp h
    exact ⟨other, rfl⟩
  by_cases hca : a.isConstant = true
  · cases a <;> cases hca
    obtain ⟨other, rfl⟩ := hconstant h
    exact areLikeTerms_constant _ _
  by_cases hcb : b.isConstant = true
  · cases b <;> cases hcb
    obtain ⟨other, rfl⟩ := hconstant h.symm
    exact absurd rfl hca
  rw [Bool.not_eq_true] at hca hcb
  by_cases hkind : (summandKey a).kind = .other
  · -- Keys of no special kind hold the terms themselves.
    have halike := alike_of_kind_eq_other .sum h hkind
    refine ⟨1, 1, a, ha, fun I => ⟨(one_mul _).symm, ?_⟩⟩
    rw [halike.meaning_eq, one_mul]
  · apply areLikeTerms_of_alike_rest ha.asMultiple
    exact alike_of_termKey? (termKey?_of_kind_ne_other hca hkind)
      (termKey?_of_kind_ne_other hcb fun hother => hkind (h.kind_eq.trans hother)) h

-----------------------------------------------------------------------------------------
-- Operands of a product with alike keys
-----------------------------------------------------------------------------------------

/-- A symbol and its powers. -/
inductive IsPowerOf (name : String) : Expr → Prop where
  | symbol : IsPowerOf name (symbol name)
  | power (exponent : Expr) : IsPowerOf name (power (symbol name) exponent)

/-- Factors that belong together: constants, powers of one symbol, and alike trees. -/
inductive AreLikeFactors : Expr → Expr → Prop where
  | constants (a b : Literal) : AreLikeFactors (constant a) (constant b)
  | powers {name : String} {a b : Expr}
    : IsPowerOf name a → IsPowerOf name b → AreLikeFactors a b
  | alike {a b : Expr} : Alike a b → AreLikeFactors a b

theorem factorKey_eq_coefficient {e : Expr}
    : factorKey e = .coefficient ↔ ∃ literal, e = constant literal := by
  constructor
  · unfold factorKey
    split <;> intro h <;> cases h
    exact ⟨_, rfl⟩
  · rintro ⟨literal, rfl⟩
    rfl

/-- The factors with the key of a symbol are the symbol and its powers. -/
theorem factorKey_eq_base {e : Expr} {name : String}
    : factorKey e = .base name ↔ IsPowerOf name e := by
  constructor
  · unfold factorKey
    split <;> intro h <;> cases h
    · exact .symbol
    · exact .power _
  · intro h
    cases h <;> rfl

/-- The factors with alike keys are those that belong together. -/
theorem alike_factorKey_iff {a b : Expr}
    : Key.Alike (factorKey a) (factorKey b) ↔ AreLikeFactors a b := by
  constructor
  · intro h
    cases hk : factorKey a with
    | coefficient =>
        have hb := Key.Alike.eq_of_tree? (hk ▸ h) rfl
        obtain ⟨left, rfl⟩ := factorKey_eq_coefficient.mp hk
        obtain ⟨right, rfl⟩ := factorKey_eq_coefficient.mp hb
        exact .constants left right
    | base name =>
        have hb := Key.Alike.eq_of_tree? (hk ▸ h) rfl
        exact .powers (factorKey_eq_base.mp hk) (factorKey_eq_base.mp hb)
    | other operand =>
        have hkind : (factorKey a).kind = .other := by rw [hk]; rfl
        exact .alike (alike_of_kind_eq_other .product h hkind)
    | symbol | power | constant | fraction =>
        unfold factorKey at hk
        split at hk <;> cases hk
  · rintro (⟨left, right⟩ | ⟨ha, hb⟩ | h)
    · rfl
    · rw [factorKey_eq_base.mpr ha, factorKey_eq_base.mpr hb]
      rfl
    · have hkey : Key.Alike (Operator.product.key a) (Operator.product.key b) := h.key nofun
      exact hkey

-----------------------------------------------------------------------------------------
-- Keys of well-formed operands
-----------------------------------------------------------------------------------------

/-- A well-formed operand has a key under either operator. -/
theorem WellFormed.key_eq_ok {e : Expr} (h : e.WellFormed) (operator : Operator)
    : Checked.key operator.contextName e = .ok (operator.key e) := by
  cases operator with
  | sum =>
      change (Checked.firstFactor e >>= fun _ => .ok (Operator.sum.key e)) = _
      rw [h.firstFactor_eq_ok]
      rfl
  | product => rfl

/-- Well-formed operands with alike keys belong together: in a sum they are multiples of one tree
under every interpretation, and in a product they are constants, powers of one symbol or alike
trees, which are the factors with alike keys. -/
theorem alike_keys_belong_together {a b : Expr} (ha : a.WellFormed) (hb : b.WellFormed)
    : (∃ left right, Checked.key "Add" a = .ok left ∧ Checked.key "Add" b = .ok right
          ∧ (Key.Alike left right → AreLikeTerms a b))
        ∧ ∃ left right, Checked.key "Mul" a = .ok left ∧ Checked.key "Mul" b = .ok right
          ∧ (Key.Alike left right ↔ AreLikeFactors a b) :=
  ⟨⟨_, _, ha.key_eq_ok .sum, hb.key_eq_ok .sum, areLikeTerms_of_alike_summandKey ha⟩,
    ⟨_, _, ha.key_eq_ok .product, hb.key_eq_ok .product, alike_factorKey_iff⟩⟩

/-- Three times a root of a symbol and the root itself, written in another way, belong together in
a sum, but not in a product. -/
theorem alike_keys_belong_together_roots
    : let root := power (symbol "x") (constant ⟨1 / 2, true, some "2/4"⟩)
      let multiple := product [constant ⟨3, false, some "3"⟩,
        power (symbol "x") (constant ⟨1 / 2, true, some "1/2"⟩)] true
      root.WellFormed ∧ multiple.WellFormed
        ∧ AreLikeTerms root multiple ∧ ¬ AreLikeFactors root multiple := by
  intro root multiple
  have hroot : root.WellFormed := by simp [root]
  have hmultiple : multiple.WellFormed := by simp [multiple]
  obtain ⟨⟨left, right, hl, hr, hterms⟩, left', right', hl', hr', hfactors⟩ :=
    alike_keys_belong_together hroot hmultiple
  cases hl
  cases hr
  cases hl'
  cases hr'
  exact ⟨hroot, hmultiple, hterms rfl, fun h => nomatch hfactors.mpr h⟩

-----------------------------------------------------------------------------------------
-- Opposite terms
-----------------------------------------------------------------------------------------

/-- Without their coefficients, a well-formed term and its opposite have the same key. -/
theorem WellFormed.termKey?_opposite {e : Expr} (h : e.WellFormed)
    : termKey? e.opposite.asMultiple.2 = termKey? e.asMultiple.2 := by
  unfold Expr.opposite
  split
  · rfl
  · rfl
  · next factors implicit hhead =>
    -- The product becomes the rest of its opposite, and no product has a key.
    have hnone : (product factors implicit).asMultiple = (none, product factors implicit) := by
      unfold Expr.asMultiple
      split
      · next heq =>
        cases heq
        exact (hhead _ _ rfl).elim
      · rfl
    obtain ⟨hlength, -⟩ := wellFormed_product.mp h
    rw [hnone]
    match factors with
    | [] | [_] => simp at hlength
    | _ :: _ :: _ => rfl
  · next _ _ hproduct =>
    rw [asMultiple_of_not_product hproduct]
    rfl

/-- Only the opposite of a constant is a constant. -/
theorem isConstant_opposite (e : Expr) : e.opposite.isConstant = e.isConstant := by
  unfold opposite
  split
  · rfl
  · rfl
  · rfl
  · next hconstant _ _ =>
    cases e with
    | constant literal => exact (hconstant literal rfl).elim
    | _ => rfl

/-- The key of a well-formed term has the same kind as that of its opposite, and is the same key if
the kind is a special one. -/
theorem WellFormed.summandKey_opposite {e : Expr} (h : e.WellFormed)
    : (summandKey e.opposite).kind = (summandKey e).kind
      ∧ ((summandKey e).kind ≠ .other → summandKey e.opposite = summandKey e) := by
  by_cases hc : e.isConstant = true
  · cases e <;> cases hc
    exact ⟨rfl, fun _ => rfl⟩
  · rw [Bool.not_eq_true] at hc
    rw [summandKey_of_not_isConstant hc,
      summandKey_of_not_isConstant ((isConstant_opposite e).trans hc), h.termKey?_opposite]
    cases termKey? e.asMultiple.2 with
    | none => exact ⟨rfl, fun hkind => absurd rfl hkind⟩
    | some key => exact ⟨rfl, fun _ => rfl⟩

/-- The opposite of a well-formed term is a well-formed term of opposite meaning, whose key has the
same kind, and is the same key unless the kind is no special one. -/
theorem opposite_negates_and_keeps_key {e : Expr} (h : e.WellFormed)
    : ∃ negated key negatedKey, Checked.opposite e = .ok negated ∧ negated.WellFormed
        ∧ (∀ I, negated.meaning I = -e.meaning I)
        ∧ Checked.key "Add" e = .ok key ∧ Checked.key "Add" negated = .ok negatedKey
        ∧ negatedKey.kind = key.kind ∧ (key.kind ≠ .other → negatedKey = key) :=
  ⟨_, _, _, h.opposite_eq_ok, h.opposite, fun I => meaning_opposite I e, h.key_eq_ok .sum,
    h.opposite.key_eq_ok .sum, h.summandKey_opposite⟩

/-- A multiple of a power changes the sign of its coefficient and stays with the power. -/
theorem opposite_negates_and_keeps_key_multiple
    : let e := product [constant ⟨-2 / 3, true, some "-2/3"⟩, power (symbol "x") (symbol "n")] true
      e.WellFormed ∧ ∃ negated, Checked.opposite e = .ok negated ∧ negated.WellFormed
        ∧ (∀ I, negated.meaning I = -e.meaning I)
        ∧ Checked.key "Add" negated = .ok (.power "x" (symbol "n")) := by
  intro e
  have he : e.WellFormed := by simp [e]
  obtain ⟨negated, key, negatedKey, hn, hw, hm, hk, hnk, -, hsame⟩ :=
    opposite_negates_and_keeps_key he
  cases hk
  rw [hsame nofun] at hnk
  exact ⟨he, negated, hn, hw, hm, hnk⟩

end Expr

end TermGrouping
