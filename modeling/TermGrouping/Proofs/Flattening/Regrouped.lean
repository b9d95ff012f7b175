import TermGrouping.Expr.Grouping
import TermGrouping.Proofs.Flattening.Fixpoint

/-! Flat forms decide whether trees differ in brackets alone. No change of brackets or of nesting
that is harmless where it happens shows in the flat form, and every tree leads to its own flat form
by such changes; so two trees have one flat form exactly if such changes lead from one to the other.
-/

namespace TermGrouping.Expr

-----------------------------------------------------------------------------------------
-- Flattening does not look at written forms
-----------------------------------------------------------------------------------------

/-- The shape of a tree binds like the tree. -/
theorem strength_shape (e : Expr) : e.shape.strength = e.strength := by
  cases e <;> rfl

theorem dropBrackets_shape (level : Int) (e : Expr)
    : e.shape.dropBrackets level = (e.dropBrackets level).shape := by
  cases e with
  | group inner =>
      simp only [shape, dropBrackets, strength_shape]
      split <;> rfl
  | _ => rfl

theorem bracketed_shape (e : Expr) : e.shape.bracketed = e.bracketed.shape := by
  simp only [bracketed, strength_shape]
  split <;> rfl

theorem summands_shape (e : Expr) : e.shape.summands = e.summands.map shape := by
  rw [summands, dropBrackets_shape, termsOf_shape, summands]

theorem factors_shape (e : Expr) : e.shape.factors = e.factors.map shape := by
  rw [factors, dropBrackets_shape, factorsOf_shape, factors]

-----------------------------------------------------------------------------------------
-- The shape of a flat tree depends on the shapes of its flat parts
-----------------------------------------------------------------------------------------

/-- The flat form of a tree without its written forms. -/
def flatShape (e : Expr) : Expr := e.flatten.shape

theorem flatShape_power (base exponent : Expr)
    : (power base exponent).flatShape
      = power (base.flatShape.dropBrackets atomLevel)
          (exponent.flatShape.dropBrackets powerLevel) := by
  simp only [flatShape, dropBrackets_shape]
  rfl

theorem flatShape_quotient (numerator denominator : Expr)
    : (quotient numerator denominator).flatShape
      = quotient (numerator.flatShape.dropBrackets productLevel)
          (denominator.flatShape.dropBrackets powerLevel) := by
  simp only [flatShape, dropBrackets_shape]
  rfl

theorem flatShape_group (inner : Expr) : (group inner).flatShape = inner.flatShape.bracketed :=
  (bracketed_shape inner.flatten).symm

theorem flatShape_sum (operands : List Expr)
    : (sum operands).flatShape = sum (operands.flatMap fun e => e.flatShape.summands) := by
  simp only [flatShape, flatten, shape, shapeAll_eq_map, flattenAll_eq_map, List.flatMap_map,
    List.map_flatMap, summands_shape]

theorem flatShape_product (operands : List Expr) (implicit : Bool)
    : (product operands implicit).flatShape
      = product (operands.flatMap fun e => e.flatShape.factors) false := by
  simp only [flatShape, flatten, spliceProduct, shape, shapeAll_eq_map, flattenAll_eq_map,
    List.flatMap_map, List.map_flatMap, factors_shape]

theorem flatShape_call (name : String) (arguments : List Expr)
    : (call name arguments).flatShape = call name (arguments.map flatShape) := by
  simp only [flatShape, flatten, shape, shapeAll_eq_map, flattenAll_eq_map, List.map_map]
  rfl

/-- Flattening does not look at written forms, so they can be left out before. -/
theorem flatten_shape (e : Expr) : e.shape.flatten = e.flatShape := by
  induction e using Expr.induct with
  | constant | symbol | foreign => rfl
  | power _ _ ihb ihx => simp only [shape, flatten, flatShape_power, ihb, ihx]
  | quotient _ _ ihn ihd => simp only [shape, flatten, flatShape_quotient, ihn, ihd]
  | group _ ih => simp only [shape, flatten, flatShape_group, ih]
  | sum operands ih =>
      simp only [shape, shapeAll_eq_map, flatten, flattenAll_eq_map, List.flatMap_map,
        flatShape_sum]
      rw [List.flatMap_congr fun e he => by rw [ih e he]]
  | product operands implicit ih =>
      simp only [shape, shapeAll_eq_map, flatten, flattenAll_eq_map, List.flatMap_map,
        spliceProduct, flatShape_product, Bool.false_and]
      rw [List.flatMap_congr fun e he => by rw [ih e he]]
  | call name arguments ih =>
      simp only [shape, shapeAll_eq_map, flatten, flattenAll_eq_map, List.map_map, flatShape_call]
      exact congrArg _ (List.map_congr_left ih)

/-- Alike trees have the same flat shape, because flattening commutes with the shape. -/
theorem Alike.flatShape_eq {a b : Expr} (h : Alike a b) : a.flatShape = b.flatShape := by
  rw [← flatten_shape, ← flatten_shape, h]

-----------------------------------------------------------------------------------------
-- Harmless changes do not show in the flat form
-----------------------------------------------------------------------------------------

/-- A tree in brackets cannot come apart, whether it needs the brackets or not. -/
theorem strength_bracketed (e : Expr) : e.bracketed.strength = atomLevel := by
  unfold bracketed
  split
  · assumption
  · rfl

/-- A flat node binds as strongly as the node it comes from. -/
theorem strength_flatShape (e : Expr) : e.flatShape.strength = e.strength := by
  cases e with
  | group inner => rw [flatShape_group, strength_bracketed]; rfl
  | _ => rfl

/-- Brackets around a tree do no more than the tree where its content binds strongly enough. -/
theorem dropBrackets_bracketed {level : Int} {e : Expr} (h : level ≤ e.strength)
    : e.bracketed.dropBrackets level = e.dropBrackets level := by
  unfold bracketed
  split
  · rfl
  · next hne =>
    rw [dropBrackets, if_pos h]
    cases e with
    | group => exact absurd rfl hne
    | _ => rfl

/-- Content that drops its brackets anywhere cannot come apart. -/
theorem strength_of_dropsAnywhere {e : Expr} (h : e.dropsAnywhere = true)
    : e.strength = atomLevel := by
  cases e with
  | constant literal =>
      have hvalue : 0 ≤ literal.value := of_decide_eq_true h
      exact if_neg (Rat.not_lt.mpr hvalue)
  | symbol | call => rfl
  | _ => cases h

/-- A numerator that drops its brackets binds like a product: only sums bind less. -/
theorem productLevel_le_of_dropsAsNumerator {e : Expr} (h : e.dropsAsNumerator = true)
    : productLevel ≤ e.strength := by
  refine Int.not_lt.mp fun hlt => ?_
  obtain ⟨operands, rfl⟩ := eq_sum_of_strength_lt hlt
  cases h

/-- An exponent that drops its brackets binds like a power. -/
theorem powerLevel_le_of_dropsAsExponent {e : Expr} (h : e.dropsAsExponent = true)
    : powerLevel ≤ e.strength := by
  cases e with
  | power => exact Int.le_refl powerLevel
  | _ => cases h

/-- Where its content binds strongly enough, a bracketed tree leaves the same flat form. -/
theorem dropBrackets_flatShape_group {level : Int} {e : Expr} (h : level ≤ e.strength)
    : (group e).flatShape.dropBrackets level = e.flatShape.dropBrackets level := by
  rw [flatShape_group, dropBrackets_bracketed (by rwa [strength_flatShape])]

/-- Trees that differ in brackets alone have one flat form, written forms aside. -/
theorem Regrouped.flatShape_eq {a b : Expr} (h : Regrouped a b) : a.flatShape = b.flatShape := by
  induction h with
  | alike h => exact h.flatShape_eq
  | symm _ ih => exact ih.symm
  | trans _ _ ihab ihbc => exact ihab.trans ihbc
  | power _ _ iha ihb => rw [flatShape_power, flatShape_power, iha, ihb]
  | quotient _ _ iha ihb => rw [flatShape_quotient, flatShape_quotient, iha, ihb]
  | group _ ih => rw [flatShape_group, flatShape_group, ih]
  | sum before after _ ih => simp only [flatShape_sum, List.flatMap_append, List.flatMap_cons, ih]
  | product before after implicit _ ih =>
      simp only [flatShape_product, List.flatMap_append, List.flatMap_cons, ih]
  | call name before after _ ih =>
      simp only [flatShape_call, List.map_append, List.map_cons, ih]
  | spliceSum before inner after =>
      simp only [flatShape_sum, List.flatMap_append, List.flatMap_cons, List.append_assoc]
      rfl
  | spliceProduct before inner after =>
      simp only [flatShape_product, List.flatMap_append, List.flatMap_cons, List.append_assoc]
      rfl
  | twice a => rw [flatShape_group, flatShape_group, bracketed, if_pos (strength_bracketed _)]
  | anywhere h =>
      rw [flatShape_group, bracketed, if_pos ((strength_flatShape _).trans
        (strength_of_dropsAnywhere h))]
  | summand before after a =>
      simp only [flatShape_sum, List.flatMap_append, List.flatMap_cons, summands,
        dropBrackets_flatShape_group (sumLevel_le_strength a)]
  | factor before after implicit hsum =>
      have hlevel : productLevel ≤ strength _ := Int.not_lt.mp fun hlt =>
        (eq_sum_of_strength_lt hlt).elim hsum
      simp only [flatShape_product, List.flatMap_append, List.flatMap_cons, factors,
        dropBrackets_flatShape_group hlevel]
  | exponent base h =>
      simp only [flatShape_power,
        dropBrackets_flatShape_group (powerLevel_le_of_dropsAsExponent h)]
  | numerator denominator h =>
      simp only [flatShape_quotient,
        dropBrackets_flatShape_group (productLevel_le_of_dropsAsNumerator h)]
  | denominator numerator h =>
      simp only [flatShape_quotient,
        dropBrackets_flatShape_group (powerLevel_le_of_dropsAsExponent h)]

-----------------------------------------------------------------------------------------
-- Harmless changes lead to the flat form
-----------------------------------------------------------------------------------------

namespace Regrouped

theorem refl (e : Expr) : Regrouped e e := .alike (.refl e)

/-- Changes at single places of a list of children add up to changes at all its places. -/
theorem flatMap (node : List Expr → Expr) {f : Expr → List Expr} {es : List Expr}
    (h : ∀ e ∈ es, ∀ before after,
      Regrouped (node (before ++ e :: after)) (node (before ++ f e ++ after)))
    : Regrouped (node es) (node (es.flatMap f)) := by
  -- The front of the list has been changed; the induction is on what is behind it.
  have hfront (front : List Expr) : Regrouped (node (front ++ es)) (node (front ++ es.flatMap f)) :=
    by
    induction es generalizing front with
    | nil => exact refl _
    | cons e es ih =>
        obtain ⟨he, hes⟩ := List.forall_mem_cons.mp h
        rw [List.flatMap_cons, ← List.append_assoc]
        exact (he front es).trans (ih hes (front ++ f e))
  exact hfront []

/-- Changing all children of a list changes the node in brackets alone. -/
theorem map (node : List Expr → Expr) {f : Expr → Expr} {es : List Expr}
    (hnode : ∀ {a a'} before after, Regrouped a a'
      → Regrouped (node (before ++ a :: after)) (node (before ++ a' :: after)))
    (h : ∀ e ∈ es, Regrouped e (f e))
    : Regrouped (node es) (node (es.map f)) := by
  rw [List.map_eq_flatMap]
  refine flatMap node fun e he before after => ?_
  rw [List.append_assoc]
  exact hnode before after (h e he)

/-- Brackets that flattening leaves out around any tree are harmless. -/
theorem group_of_strength {e : Expr} (hvalue : e.value? = none) (h : e.strength = atomLevel)
    : Regrouped (Expr.group e) e := by
  cases e with
  | constant literal =>
      refine .anywhere (decide_eq_true (Rat.not_lt.mp fun hlt => ?_))
      rw [strength, if_pos hlt] at h
      exact absurd h (by decide)
  | symbol | call => exact .anywhere rfl
  | group inner => exact .twice inner
  | foreign => cases hvalue
  | _ => simp [strength, sumLevel, productLevel, powerLevel, atomLevel] at h

/-- A group is regrouped to its content with brackets where they are needed. -/
theorem bracketed {e : Expr} (hvalue : e.value? = none) : Regrouped (Expr.group e) e.bracketed := by
  unfold Expr.bracketed
  split
  · exact group_of_strength hvalue ‹_›
  · exact refl _

/-- Dropping brackets in a place is harmless if it is for content that binds strongly enough there
but needs its brackets in other places. -/
theorem dropBrackets (node : Expr → Expr) (level : Int) {e : Expr} (h : e.IsPure)
    (hnode : ∀ {a a'}, Regrouped a a' → Regrouped (node a) (node a'))
    (hgroup : ∀ inner, level ≤ inner.strength → inner.strength < atomLevel
      → Regrouped (node (Expr.group inner)) (node inner))
    : Regrouped (node e) (node (e.dropBrackets level)) := by
  rcases dropBrackets_cases level e with ⟨he, _⟩ | ⟨inner, rfl, hlevel, he⟩
  · rw [he]
    exact refl _
  · rw [he]
    by_cases hatom : inner.strength = atomLevel
    · have hinner := ((isPure_iff _).mp h).2 inner List.mem_cons_self
      exact hnode (group_of_strength ((isPure_iff _).mp hinner).1 hatom)
    · exact hgroup inner hlevel (Int.lt_iff_le_and_ne.mpr ⟨strength_le_atomLevel inner, hatom⟩)

/-- What binds exactly like a power drops its brackets in an exponent, by cases on the root. -/
theorem dropsAsExponent_of_strength {e : Expr} (h : powerLevel ≤ e.strength)
    (hlt : e.strength < atomLevel)
    : e.dropsAsExponent = true := by
  cases e with
  | power => rfl
  | constant literal =>
      simp only [strength] at h hlt
      split at h
      · exact absurd h (by decide)
      · simp_all
  | _ => simp_all [strength, sumLevel, productLevel, powerLevel, atomLevel]

theorem dropsAsNumerator_of_strength {e : Expr} (h : productLevel ≤ e.strength)
    (hlt : e.strength < atomLevel)
    : e.dropsAsNumerator = true := by
  cases e with
  | power | product | quotient => rfl
  | constant literal =>
      simp only [strength] at hlt
      split at hlt
      · exact decide_eq_true ‹_›
      · simp_all
  | _ => simp_all [strength, sumLevel, productLevel, atomLevel]

/-- An operand of a sum may be replaced by what it contributes to the flat sum. -/
theorem summands {e : Expr} (h : e.IsPure) (before after : List Expr)
    : Regrouped (Expr.sum (before ++ e :: after)) (Expr.sum (before ++ e.summands ++ after)) := by
  have hbare := dropBrackets (fun a => Expr.sum (before ++ a :: after)) sumLevel
    h (.sum before after) fun inner _ _ => .summand before after inner
  refine hbare.trans ?_
  unfold Expr.summands termsOf
  split
  · next inner heq =>
    rw [heq]
    exact .spliceSum before inner after
  · rw [List.append_assoc]
    exact refl _

/-- A factor of a product may be replaced by what it contributes to the flat product. -/
theorem factors {e : Expr} (h : e.IsPure) (implicit : Bool) (before after : List Expr)
    : Regrouped (Expr.product (before ++ e :: after) implicit)
        (Expr.product (before ++ e.factors ++ after) implicit) := by
  have hbare := dropBrackets (fun a => Expr.product (before ++ a :: after) implicit)
    productLevel h (.product before after implicit) fun inner hlevel _ => by
      refine .factor before after implicit ?_
      rintro operands rfl
      exact absurd hlevel (Int.not_le.mpr (show sumLevel < productLevel by decide))
  refine hbare.trans ?_
  unfold Expr.factors factorsOf
  split
  · next inner innerImplicit heq =>
    rw [heq]
    exact .spliceProduct before inner after implicit innerImplicit
  · rw [List.append_assoc]
    exact refl _

/-- A tree without plain values differs from its flat form in brackets alone. -/
theorem flatten {e : Expr} (h : e.IsPure) : Regrouped e e.flatten := by
  induction e using induct_children with
  | step e ih =>
      have hkids := ((isPure_iff e).mp h).2
      have hparts (child : Expr) (hc : child ∈ e.children) : Regrouped child child.flatten :=
        ih child hc (hkids child hc)
      have hflat : ∀ child ∈ e.children.map Expr.flatten, child.IsPure :=
        List.forall_mem_map.mpr fun child hc => (isPure_flatten child).mpr (hkids child hc)
      cases e with
      | constant | symbol | foreign => exact refl _
      | power base exponent =>
          have hbase := dropBrackets (fun a => Expr.power a exponent.flatten)
            atomLevel (hflat base.flatten (by simp [children]))
            (fun ha => .power ha (refl _)) fun _ hle hlt => absurd hle (Int.not_le.mpr hlt)
          have hexponent := dropBrackets
            (fun a => Expr.power (base.flatten.dropBrackets atomLevel) a)
            powerLevel (hflat exponent.flatten (by simp [children]))
            (fun ha => .power (refl _) ha)
            fun _ hle hlt => .exponent _ (dropsAsExponent_of_strength hle hlt)
          have hflats := Regrouped.power (hparts base (by simp [children]))
            (hparts exponent (by simp [children]))
          exact (hflats.trans hbase).trans hexponent
      | quotient numerator denominator =>
          have hnumerator := dropBrackets (fun a => Expr.quotient a denominator.flatten)
            productLevel (hflat numerator.flatten (by simp [children]))
            (fun ha => .quotient ha (refl _))
            fun _ hle hlt => .numerator _ (dropsAsNumerator_of_strength hle hlt)
          have hdenominator := dropBrackets
            (fun a => Expr.quotient (numerator.flatten.dropBrackets productLevel) a)
            powerLevel (hflat denominator.flatten (by simp [children]))
            (fun ha => .quotient (refl _) ha)
            fun _ hle hlt => .denominator _ (dropsAsExponent_of_strength hle hlt)
          have hflats := Regrouped.quotient (hparts numerator (by simp [children]))
            (hparts denominator (by simp [children]))
          exact (hflats.trans hnumerator).trans hdenominator
      | group inner =>
          have hinner := (isPure_iff _).mp (hflat inner.flatten List.mem_cons_self)
          exact (Regrouped.group (hparts inner List.mem_cons_self)).trans (bracketed hinner.1)
      | call name arguments =>
          rw [Expr.flatten, flattenAll_eq_map]
          exact map (Expr.call name) (.call name) hparts
      | sum operands =>
          rw [Expr.flatten, flattenAll_eq_map]
          exact (map Expr.sum .sum hparts).trans
            (flatMap Expr.sum fun e he => summands (hflat e he))
      | product operands implicit =>
          rw [Expr.flatten, flattenAll_eq_map]
          have hflats := map (fun es => Expr.product es implicit)
            (fun before after ha => .product before after implicit ha) hparts
          have hsplice := flatMap (fun es => Expr.product es implicit)
            fun e he => factors (hflat e he) implicit
          -- Whether a product is implicit is no matter of its brackets.
          exact (hflats.trans hsplice).trans (.alike rfl)

end Regrouped

/-- The tips of a shape are the shapes of the tips, by induction over the tree. -/
theorem tips_shape (e : Expr) : e.shape.tips = e.tips.map shape := by
  have hall (es : List Expr) (ih : ∀ e ∈ es, e.shape.tips = e.tips.map shape)
      : (es.map shape).flatMap tips = (es.flatMap tips).map shape := by
    rw [List.flatMap_map, List.map_flatMap]
    exact List.flatMap_congr ih
  induction e using Expr.induct with
  | constant | symbol | foreign => rfl
  | power _ _ iha ihb | quotient _ _ iha ihb => simp [shape, iha, ihb]
  | group _ ih => simp [shape, ih]
  | sum _ ih | product _ _ ih | call _ _ ih => simp [shape, shapeAll_eq_map, hall _ ih]

/-- Changes of brackets alone bring in no plain value. -/
theorem Regrouped.isPure {a b : Expr} (h : Regrouped a b) (ha : a.IsPure) : b.IsPure := by
  have hshape (e : Expr) : e.flatShape.IsPure ↔ e.IsPure := by
    rw [← isPure_flatten e, isPure_iff_tips, isPure_iff_tips, flatShape, tips_shape,
      List.forall_mem_map]
    exact forall₂_congr fun tip _ => by cases tip <;> simp [shape, value?]
  rw [← hshape, ← h.flatShape_eq, hshape]
  exact ha

/-- Trees without plain values have flat forms that are alike exactly if they differ in brackets
alone: by harmless brackets and by the nesting of sums in sums and of products in products. Such
changes lead to trees of this sort only. -/
theorem alike_flatten_iff_regrouped {a b : Expr} (ha : a.IsPure) (hb : b.IsPure)
    : Checked.flatten a = .ok a.flatten
      ∧ Checked.flatten b = .ok b.flatten
      ∧ (Alike a.flatten b.flatten ↔ Regrouped a b)
      ∧ ∀ c, Regrouped a c → c.IsPure := by
  refine ⟨Checked.flatten_eq_ok_of_isPure ha, Checked.flatten_eq_ok_of_isPure hb, ⟨fun h => ?_,
    fun h => h.flatShape_eq⟩, fun c hc => hc.isPure ha⟩
  exact ((Regrouped.flatten ha).trans (.alike h)).trans (Regrouped.flatten hb).symm

/-- Brackets around a product in a product, around a power in an exponent and behind brackets are
harmless; those around the sum are not. -/
theorem alike_flatten_iff_regrouped_brackets
    : let x := symbol "x"
      let y := symbol "y"
      let s := sum [x, group y]
      let a := product [x, group (product [group (group y), group s] true)] true
      let b := product [product [x, y] false, power (group (group s)) (group (power x y))] false
      let c := product [x, y, power (group s) (power x y)] true
      let d := product [x, y, power s (power x y)] true
      a.IsPure ∧ b.IsPure ∧ c.IsPure ∧ d.IsPure
      ∧ Regrouped b c
      ∧ ¬ Regrouped b d
      ∧ Regrouped a (product [x, y, group (sum [x, y])] false)
      ∧ ¬ Regrouped a (product [x, y, sum [x, y]] false) := by
  intro x y s a b c d
  have ha : a.IsPure := by decide
  have hb : b.IsPure := by decide
  have hc : c.IsPure := by decide
  have hd : d.IsPure := by decide
  refine ⟨ha, hb, hc, hd, (alike_flatten_iff_regrouped hb hc).2.2.1.mp (by decide +kernel), ?_,
    (alike_flatten_iff_regrouped ha (by decide)).2.2.1.mp (by decide +kernel), ?_⟩
  · exact fun h => absurd ((alike_flatten_iff_regrouped hb hd).2.2.1.mpr h) (by decide +kernel)
  · exact fun h =>
      absurd ((alike_flatten_iff_regrouped ha (by decide)).2.2.1.mpr h) (by decide +kernel)

end TermGrouping.Expr
