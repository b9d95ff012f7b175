import Mathlib.Data.List.Pairwise
import TermGrouping.Proofs.Collecting.Gathered
import TermGrouping.Proofs.Collecting.Settled

/-! Collecting a collected tree. A second collection finds new like terms in one case only: among
the bundles of a sum, that of the fractions can hold the same values as that of the other
constants, and alike bundles are like terms, whatever the keys of their members.
-/

namespace TermGrouping

namespace Expr

/-- The value of a constant that is written as a fraction, or of one that is not. -/
def constantValue? (fractions : Bool) : Expr → Option Rat
  | constant literal => if literal.isFraction = fractions then some literal.value else none
  | _ => none

/-- The values of the constants among operands: of those written as fractions, or of the others. -/
def constantValues (fractions : Bool) (operands : List Expr) : List Rat :=
  operands.filterMap (constantValue? fractions)

def isConstant : Expr → Bool
  | constant _ => true
  | _ => false

/-- Whether the constants of a sum repeat themselves as fractions: there are several that are no
fractions, the fractions have the same values in the same order, and there is another operand. -/
def repeatsConstants : Expr → Bool
  | sum operands =>
      2 ≤ (constantValues false operands).length
        && constantValues false operands == constantValues true operands
        && operands.any fun operand => !operand.isConstant
  | _ => false

-----------------------------------------------------------------------------------------
-- Keys of alike operands
-----------------------------------------------------------------------------------------

/-- The key of a shape is the shape of the key. -/
theorem termKey?_shape (e : Expr) : termKey? e.shape = (termKey? e).map Key.shape := by
  cases e with
  | power base exponent => cases base <;> rfl
  | _ => rfl

/-- What remains of a shape without its coefficient is the shape of what remains, by cases on the
first factor. -/
theorem asMultiple_shape (e : Expr) : e.shape.asMultiple.2 = e.asMultiple.2.shape := by
  cases e with
  | product factors implicit =>
      match factors with
      | [] => rfl
      | constant coefficient :: rest =>
          match rest with
          | [] | [_] | _ :: _ :: _ => rfl
      | symbol _ :: _ | power _ _ :: _ | sum _ :: _ | product _ _ :: _ | group _ :: _
        | call _ _ :: _ | quotient _ _ :: _ | foreign _ :: _ => rfl
  | _ => rfl

/-- The key of an operand that is no constant depends only on what remains without the coefficient,
unless it is the operand itself. -/
theorem summandKey_of_not_isConstant {e : Expr} (h : e.isConstant = false)
    : summandKey e = (termKey? e.asMultiple.2).getD (.other e) := by
  cases e with
  | constant => cases h
  | _ => rfl

/-- The key of a term that is no constant keeps its shape. -/
theorem summandKey_shape {e : Expr} (h : e.isConstant = false)
    : summandKey e.shape = (summandKey e).shape := by
  have hshape : e.shape.isConstant = false := by
    cases e with
    | constant => cases h
    | _ => rfl
  rw [summandKey_of_not_isConstant h, summandKey_of_not_isConstant hshape, asMultiple_shape,
    termKey?_shape]
  cases termKey? e.asMultiple.2 <;> rfl

theorem factorKey_shape (e : Expr) : factorKey e.shape = (factorKey e).shape := by
  cases e with
  | power base exponent => cases base <;> rfl
  | _ => rfl

/-- Alike operands have alike keys, unless they are constants of a sum. -/
theorem Alike.key {operator : Operator} {a b : Expr} (h : Alike a b)
    (hc : operator = .sum → a.isConstant = false)
    : Key.Alike (operator.key a) (operator.key b) := by
  unfold Alike at h
  cases operator with
  | product =>
      change (factorKey a).shape = (factorKey b).shape
      rw [← factorKey_shape, ← factorKey_shape, h]
  | sum =>
      have hshape (e : Expr) : e.shape.isConstant = e.isConstant := by cases e <;> rfl
      have hb : b.isConstant = false := by rw [← hshape, ← h, hshape, hc rfl]
      change (summandKey a).shape = (summandKey b).shape
      rw [← summandKey_shape (hc rfl), ← summandKey_shape hb, h]

def constantKey (fractions : Bool) : Key := if fractions then .fraction else .constant

/-- No other key is alike to the key of constants. -/
@[simp]
theorem alike_constantKey {fractions : Bool} {key : Key}
    : Key.Alike (constantKey fractions) key ↔ key = constantKey fractions := by
  cases fractions <;> cases key <;> simp [constantKey, Key.Alike, Key.shape]

theorem summandKey_constant (literal : Literal)
    : summandKey (constant literal) = constantKey literal.isFraction := rfl

@[simp]
theorem constantKey_inj {a b : Bool} : constantKey a = constantKey b ↔ a = b := by
  cases a <;> cases b <;> simp [constantKey]

/-- Only constants have the key of constants. -/
theorem summandKey_eq_constantKey {e : Expr} {fractions : Bool}
    : summandKey e = constantKey fractions
      ↔ ∃ literal, e = constant literal ∧ literal.isFraction = fractions := by
  refine ⟨fun h => ?_, ?_⟩
  · by_cases hc : e.isConstant = true
    · cases e <;> cases hc
      exact ⟨_, rfl, constantKey_inj.mp h⟩
    · rw [summandKey_of_not_isConstant (by simpa using hc)] at h
      unfold termKey? at h
      split at h <;> cases fractions <;> cases h
  · rintro ⟨literal, rfl, rfl⟩
    rfl

/-- A key of no special kind holds the operand itself. -/
theorem key_of_kind_eq_other {operator : Operator} {e : Expr}
    (h : (operator.key e).kind = .other)
    : operator.key e = .other e := by
  cases operator with
  | sum =>
      change (summandKey e).kind = _ at h
      change summandKey e = _
      by_cases hc : e.isConstant = true
      · cases e <;> cases hc
        rename_i literal
        rw [summandKey_constant] at h
        cases hf : literal.isFraction <;> simp [constantKey, Key.kind, hf] at h
      · rw [summandKey_of_not_isConstant (by simpa using hc)] at h ⊢
        unfold termKey? at h ⊢
        split at h <;> [cases h; cases h; rfl]
  | product =>
      change (factorKey e).kind = _ at h
      change factorKey e = _
      unfold factorKey at h ⊢
      split at h <;> [cases h; cases h; cases h; rfl]

/-- A sum or a product is a key of its own under the same operator. -/
theorem key_node (operator : Operator) (operands : List Expr)
    : operator.key (operator.node operands) = .other (operator.node operands) := by
  cases operator <;> rfl

/-- Only a node with the operator is like another one as an operand of it. -/
theorem operator?_of_alike_key {operator : Operator} {e : Expr} {operands : List Expr}
    (h : Key.Alike (operator.key e) (operator.key (operator.node operands)))
    : e.operator? = some operator := by
  rw [key_node] at h
  rw [key_of_kind_eq_other h.kind_eq] at h
  exact (Alike.operator?_eq (Key.other.inj h)).trans (operator?_node operator operands)

-----------------------------------------------------------------------------------------
-- Like terms among bundles
-----------------------------------------------------------------------------------------

variable {operator : Operator} {bundles : List Bundle}

/-- Two bundles are like terms only if they hold the constants of a sum, and the same values. -/
theorem constants_of_alike_combine {left right : Bundle} (hd : Bundle.AreDivision operator bundles)
    (hlevel : ∀ bundle ∈ bundles, ∀ m ∈ bundle.members, m.operator? ≠ some operator)
    (hl : left ∈ bundles) (hr : right ∈ bundles) (hapart : ¬ Key.Alike left.key right.key)
    (h : Key.Alike (operator.key (operator.combine left.members))
      (operator.key (operator.combine right.members)))
    : operator = .sum ∧ 2 ≤ left.members.length
      ∧ left.members.map shape = right.members.map shape
      ∧ ∃ fractions, left.key = constantKey fractions ∧ right.key = constantKey !fractions := by
  obtain ⟨a, as, has, ha⟩ := hd.led left hl
  obtain ⟨b, bs, hbs, hb⟩ := hd.led right hr
  have hla := hlevel left hl
  have hlb := hlevel right hr
  rw [has] at h hla ⊢
  rw [hbs] at h hlb ⊢
  rw [← ha, ← hb] at hapart ⊢
  -- A single operand is like a node of the operator only if it is one.
  match as, bs with
  | [], [] => exact absurd h hapart
  | [], _ :: _ => exact absurd (operator?_of_alike_key h) (hla a List.mem_cons_self)
  | _ :: _, [] => exact absurd (operator?_of_alike_key h.symm) (hlb b List.mem_cons_self)
  | _ :: _, _ :: _ =>
      rw [combine_of_two_le _ (by simp), combine_of_two_le _ (by simp), key_node, key_node] at h
      have hshapes := alike_node_iff.mp (Key.other.inj h)
      -- Alike operands have alike keys, except for constants in a sum.
      have hab : Alike a b := (List.cons.inj hshapes).1
      obtain rfl : operator = .sum := by
        by_contra hne
        exact hapart (hab.key fun he => absurd he hne)
      have hca : a.isConstant = true := by
        by_contra hnot
        exact hapart (hab.key fun _ => by simpa using hnot)
      have hcb : b.isConstant = true := by
        by_contra hnot
        exact hapart (Key.Alike.symm (hab.symm.key fun _ => by simpa using hnot))
      cases a <;> cases hca
      cases b <;> cases hcb
      rename_i literal other
      refine ⟨rfl, by simp, hshapes, literal.isFraction, rfl, ?_⟩
      change ¬ Key.Alike (constantKey _) (constantKey _) at hapart
      rw [alike_constantKey, constantKey_inj] at hapart
      exact congrArg constantKey (Bool.eq_not.mpr hapart)

/-- The operands with the key of constants are constants, of which only the values matter. -/
theorem map_shape_filter_constantKey (fractions : Bool) (operands : List Expr)
    : (operands.filter fun o => Key.Alike (constantKey fractions) (summandKey o)).map shape
      = (constantValues fractions operands).map fun value => constant ⟨value, false, none⟩ := by
  induction operands with
  | nil => rfl
  | cons operand rest ih =>
      simp only [alike_constantKey, constantValues] at ih ⊢
      by_cases hkey : summandKey operand = constantKey fractions
      · obtain ⟨literal, rfl, rfl⟩ := summandKey_eq_constantKey.mp hkey
        simp [constantValue?, shape, hkey, ih]
      · have hnone : constantValue? fractions operand = none := by
          cases operand with
          | constant => exact if_neg fun hf => hkey (congrArg constantKey hf)
          | _ => rfl
        simp [hkey, hnone, ih]

/-- The members of the bundle of constants are those constants. -/
theorem map_shape_members {operands : List Expr} {fractions : Bool} {bundle : Bundle}
    (h : bundle ∈ rankedBundles .sum operands) (hkey : bundle.key = constantKey fractions)
    : bundle.members.map shape
      = (constantValues fractions operands).map fun value => constant ⟨value, false, none⟩ := by
  obtain ⟨key, _, rfl⟩ := List.mem_map.mp (mem_rankedBundles.mp h)
  cases hkey
  exact map_shape_filter_constantKey fractions operands

/-- Only constants are members of the bundle of constants. -/
theorem isConstant_of_mem_members (hd : Bundle.AreDivision .sum bundles) {bundle : Bundle}
    (hb : bundle ∈ bundles) {fractions : Bool} (hkey : bundle.key = constantKey fractions)
    {m : Expr} (hm : m ∈ bundle.members)
    : m.isConstant = true := by
  have halike := hd.alike bundle hb m hm
  rw [hkey, alike_constantKey] at halike
  obtain ⟨literal, rfl, _⟩ := summandKey_eq_constantKey.mp halike
  rfl

/-- If there are such constants among the operands of a sum, they have a bundle. -/
theorem exists_bundle_of_constantValues {operands : List Expr} {fractions : Bool}
    (h : constantValues fractions operands ≠ [])
    : ∃ bundle ∈ rankedBundles .sum operands, bundle.key = constantKey fractions := by
  have hfilter := map_shape_filter_constantKey fractions operands
  obtain ⟨operand, ho⟩ := List.exists_mem_of_ne_nil
    (operands.filter fun o => Key.Alike (constantKey fractions) (summandKey o))
    fun hnil => h (by rw [hnil] at hfilter; simpa using hfilter.symm)
  obtain ⟨ho, hkey⟩ := List.mem_filter.mp ho
  obtain ⟨bundle, hb, hm⟩ := exists_mem_rankedBundles .sum ho
  have halike := (areDivision_rankedBundles .sum operands).alike bundle hb operand hm
  exact ⟨bundle, hb, alike_constantKey.mp ((of_decide_eq_true hkey).trans halike.symm)⟩

/-- A sum repeats its constants if there are alike bundles for its fractions and for several other
constants, and a bundle that is for neither. -/
theorem repeatsConstants_sum_iff {operands : List Expr}
    : (sum operands).repeatsConstants = true
      ↔ ∃ left ∈ rankedBundles .sum operands, ∃ right ∈ rankedBundles .sum operands,
          left.key = constantKey false ∧ right.key = constantKey true
          ∧ 2 ≤ left.members.length ∧ left.members.map shape = right.members.map shape
          ∧ ∃ bundle ∈ rankedBundles .sum operands,
              ∀ fractions, bundle.key ≠ constantKey fractions := by
  have hd := areDivision_rankedBundles .sum operands
  have hinj : Function.Injective fun value : Rat => constant ⟨value, false, none⟩ :=
    fun a b hab => by simpa using hab
  simp only [repeatsConstants, Bool.and_eq_true, decide_eq_true_eq, beq_iff_eq,
    List.any_eq_true, Bool.not_eq_true', and_assoc]
  constructor
  · rintro ⟨hlength, hvalues, other, ho, hother⟩
    have hne : constantValues false operands ≠ [] := by rintro hnil; simp [hnil] at hlength
    obtain ⟨left, hl, hlkey⟩ := exists_bundle_of_constantValues hne
    obtain ⟨right, hr, hrkey⟩ := exists_bundle_of_constantValues (hvalues ▸ hne)
    obtain ⟨bundle, hb, hm⟩ := exists_mem_rankedBundles .sum ho
    have hleft := map_shape_members hl hlkey
    refine ⟨left, hl, right, hr, hlkey, hrkey, ?_, ?_, bundle, hb, fun fractions hkey => ?_⟩
    · have hlengths : left.members.length = (constantValues false operands).length := by
        simpa using congrArg List.length hleft
      omega
    · rw [hleft, hvalues, map_shape_members hr hrkey]
    · rw [isConstant_of_mem_members hd hb hkey hm] at hother
      cases hother
  · rintro ⟨left, hl, right, hr, hlkey, hrkey, hlength, hshapes, bundle, hb, hother⟩
    have hleft := map_shape_members hl hlkey
    have hlengths : left.members.length = (constantValues false operands).length := by
      simpa using congrArg List.length hleft
    rw [hleft, map_shape_members hr hrkey] at hshapes
    obtain ⟨m, _, hmembers, hkey⟩ := hd.led bundle hb
    refine ⟨by omega, hinj.list_map hshapes, m, ?_, ?_⟩
    · exact mem_of_mem_members hb (hmembers ▸ List.mem_cons_self)
    · cases hm : m.isConstant with
      | false => rfl
      | true =>
          cases m <;> cases hm
          exact absurd hkey.symm (hother _)

/-- A sum that repeats its constants has them to collect. -/
theorem isSettled_of_repeatsConstants {e : Expr} (h : e.repeatsConstants = true)
    : e.isSettled = false := by
  cases e <;> try cases h
  rename_i operands
  obtain ⟨left, hl, right, hr, hlkey, hrkey, hlength, _⟩ := repeatsConstants_sum_iff.mp h
  have hseveral : 2 ≤ (Bundle.ofOperands .sum operands).length := by
    obtain ⟨a, ha, hakey⟩ := Bundle.exists_key_eq (mem_rankedBundles.mp hl)
    obtain ⟨b, hb, hbkey⟩ := Bundle.exists_key_eq (mem_rankedBundles.mp hr)
    refine Bundle.two_le_length_ofOperands.mpr ⟨a, ha, b, hb, ?_⟩
    rw [hakey, hbkey, hlkey, hrkey, alike_constantKey, constantKey_inj]
    exact Bool.noConfusion
  simp only [isSettled, operation?, Bool.not_eq_false', Bundle.areCollectable, Bool.and_eq_true,
    decide_eq_true_eq, List.any_eq_true]
  exact ⟨hseveral, left, mem_rankedBundles.mp hl, hlength⟩

/-- If two combined bundles are like terms, they are combined from bundles with keys of their
own. -/
theorem exists_alike_combine (hd : Bundle.AreDivision operator bundles)
    (h : ¬ (bundles.map fun bundle => operator.combine bundle.members).Pairwise
      fun a b => ¬ Key.Alike (operator.key a) (operator.key b))
    : ∃ left ∈ bundles, ∃ right ∈ bundles, ¬ Key.Alike left.key right.key
        ∧ Key.Alike (operator.key (operator.combine left.members))
            (operator.key (operator.combine right.members)) := by
  rw [List.pairwise_map, List.pairwise_iff_forall_sublist] at h
  simp only [Classical.not_forall, Classical.not_not] at h
  obtain ⟨left, right, hsub, halike⟩ := h
  exact ⟨left, hsub.subset (by simp), right, hsub.subset (by simp),
    List.rel_of_pairwise_cons (hd.apart.sublist hsub) (List.mem_singleton_self right), halike⟩

/-- If not all combined bundles are like terms, but those of the constants are, there is a bundle
of other operands. -/
theorem exists_other_bundle {operands : List Expr} {left right : Bundle} {fractions : Bool}
    (hl : left ∈ rankedBundles .sum operands) (hr : right ∈ rankedBundles .sum operands)
    (hlkey : left.key = constantKey fractions) (hrkey : right.key = constantKey !fractions)
    (halike : Key.Alike (summandKey (Operator.sum.combine left.members))
      (summandKey (Operator.sum.combine right.members)))
    (hdiffer : ∃ a ∈ rankedBundles .sum operands, ∃ b ∈ rankedBundles .sum operands,
      ¬ Key.Alike (summandKey (Operator.sum.combine a.members))
        (summandKey (Operator.sum.combine b.members)))
    : ∃ bundle ∈ rankedBundles .sum operands, ∀ fractions, bundle.key ≠ constantKey fractions := by
  by_contra hnone
  push Not at hnone
  have hleft (bundle : Bundle) (hb : bundle ∈ rankedBundles .sum operands)
      : Key.Alike (summandKey (Operator.sum.combine bundle.members))
          (summandKey (Operator.sum.combine left.members)) := by
    have hb' := mem_rankedBundles.mp hb
    obtain ⟨flag, hkey⟩ := hnone bundle hb
    by_cases hflag : flag = fractions
    · obtain rfl : bundle = left :=
        Bundle.eq_of_key_eq hb' (mem_rankedBundles.mp hl) (by rw [hkey, hlkey, hflag])
      rfl
    · obtain rfl : bundle = right := Bundle.eq_of_key_eq hb' (mem_rankedBundles.mp hr)
        (by rw [hkey, hrkey, Bool.eq_not.mpr hflag])
      exact halike.symm
  obtain ⟨a, ha, b, hb, hab⟩ := hdiffer
  exact hab ((hleft a ha).trans (hleft b hb).symm)

/-- Bundles of operands are those of a sum or a product that repeats its constants if there is
something to collect among them. -/
theorem repeatsConstants_of_bundled {e : Expr} {operands : List Expr} (h : e.isNormalNode = true)
    (ho : e.operation? = some (operator, operands))
    (hs : (operator.node ((rankedBundles operator operands).map
      fun bundle => operator.combine bundle.members)).isSettled = false)
    : e.repeatsConstants = true := by
  have hd := areDivision_rankedBundles operator operands
  obtain ⟨⟨_, hu, _, hv, hdiffer⟩, hrepeat⟩ := Bundle.areCollectable_iff.mp
    (areCollectable_of_not_isSettled (operation?_node _ _) hs)
  obtain ⟨left, hl, right, hr, hapart, halike⟩ := exists_alike_combine hd hrepeat
  obtain ⟨rfl, hlength, hshapes, fractions, hlkey, hrkey⟩ :=
    constants_of_alike_combine hd (operator?_ne_of_mem_members h ho) hl hr hapart halike
  obtain ⟨first, hf, rfl⟩ := List.mem_map.mp hu
  obtain ⟨second, hs, rfl⟩ := List.mem_map.mp hv
  have hother := exists_other_bundle hl hr hlkey hrkey halike ⟨first, hf, second, hs, hdiffer⟩
  have hlengths : left.members.length = right.members.length := by
    simpa using congrArg List.length hshapes
  cases e <;> cases ho
  cases fractions with
  | false =>
      exact repeatsConstants_sum_iff.mpr
        ⟨left, hl, right, hr, hlkey, hrkey, hlength, hshapes, hother⟩
  | true =>
      exact repeatsConstants_sum_iff.mpr
        ⟨right, hr, left, hl, hrkey, hlkey, hlengths ▸ hlength, hshapes.symm, hother⟩

/-- The bundles of a sum that repeats its constants have something to collect among them. -/
theorem isSettled_bundles_of_repeatsConstants {operands : List Expr}
    (h : (sum operands).isNormalNode = true) (hrepeats : (sum operands).repeatsConstants = true)
    : (sum ((rankedBundles .sum operands).map
        fun bundle => Operator.sum.combine bundle.members)).isSettled = false := by
  have hd := areDivision_rankedBundles .sum operands
  have hlevel := operator?_ne_of_mem_members h rfl
  obtain ⟨left, hl, right, hr, hlkey, hrkey, hlength, hshapes, bundle, hb, hother⟩ :=
    repeatsConstants_sum_iff.mp hrepeats
  simp only [isSettled, operation?, Bool.not_eq_false']
  refine Bundle.areCollectable_iff.mpr
    ⟨⟨_, List.mem_map_of_mem hb, _, List.mem_map_of_mem hl, fun halike => ?_⟩, fun hapart => ?_⟩
  · have hkeys : ¬ Key.Alike bundle.key left.key := by
      rw [hlkey, Key.alike_comm, alike_constantKey]
      exact hother false
    obtain ⟨_, _, _, fractions, hkey, _⟩ := constants_of_alike_combine hd hlevel hb hl hkeys halike
    exact hother fractions hkey
  · rw [List.pairwise_map] at hapart
    have hne : left ≠ right := by
      rintro rfl
      simp [hlkey] at hrkey
    have : Std.Symm fun a b : Bundle => ¬ Key.Alike
        (Operator.sum.key (Operator.sum.combine a.members))
        (Operator.sum.key (Operator.sum.combine b.members)) :=
      ⟨fun _ _ hab hba => hab hba.symm⟩
    refine hapart.forall hl hr hne ?_
    have hlengths : left.members.length = right.members.length := by
      simpa using congrArg List.length hshapes
    rw [combine_of_two_le _ hlength, combine_of_two_le _ (hlengths ▸ hlength), key_node, key_node]
    exact congrArg Key.other (alike_node_iff.mpr hshapes)

/-- Bundling the operands of a node that can keep its children leaves something to collect at the
node exactly if it repeats its constants. -/
theorem isSettled_bundled {e : Expr} (h : e.isNormalNode = true)
    : e.bundled.value.isSettled = !e.repeatsConstants := by
  cases hs : e.isSettled with
  | true =>
      rw [bundled_of_isSettled hs, hs]
      cases hr : e.repeatsConstants with
      | false => rfl
      | true => rw [isSettled_of_repeatsConstants hr] at hs; cases hs
  | false =>
      obtain ⟨operator, operands, ho⟩ := operation?_of_not_isSettled hs
      rw [bundled_of_not_isSettled ho hs]
      cases hr : e.repeatsConstants with
      | false =>
          by_contra hnot
          rw [repeatsConstants_of_bundled h ho (by simpa using hnot)] at hr
          cases hr
      | true =>
          cases e <;> try cases hr
          cases ho
          exact isSettled_bundles_of_repeatsConstants h hr

/-- All nodes that bundling makes at a node that can keep its children are settled, if that node
does not repeat its constants. -/
theorem forall_madeNodes_isSettled {e : Expr} (h : e.isNormalNode = true)
    : (∀ made ∈ e.madeNodes, made.isSettled = true) ↔ e.repeatsConstants = false := by
  have hroot : e.bundled.value.isSettled = true ↔ e.repeatsConstants = false := by
    rw [isSettled_bundled h, Bool.not_eq_true']
  rw [madeNodes, List.forall_mem_cons, hroot]
  refine and_iff_left ?_
  cases hs : e.isSettled with
  | true => simp
  | false =>
      obtain ⟨operator, operands, ho⟩ := operation?_of_not_isSettled hs
      rw [ho]
      intro made hmade
      obtain ⟨bundle, hb, rfl⟩ := List.mem_map.mp hmade
      exact isSettled_members (List.mem_filter.mp hb).1

-----------------------------------------------------------------------------------------
-- Gathering keeps constants as they are
-----------------------------------------------------------------------------------------

/-- Trees of one kind count as the same constant, or neither of them as one. -/
theorem SameKind.constantValue?_eq {a b : Expr} (h : SameKind a b) (fractions : Bool)
    : constantValue? fractions b = constantValue? fractions a := by
  cases h <;> rfl

theorem SameKind.isConstant_eq {a b : Expr} (h : SameKind a b)
    : b.isConstant = a.isConstant := by
  cases h <;> rfl

/-- A node with its children gathered repeats its constants if the node does. -/
theorem repeatsConstants_withGatheredChildren (e : Expr)
    : e.withGatheredChildren.repeatsConstants = e.repeatsConstants := by
  cases e with
  | sum operands =>
      have hvalues (fractions : Bool)
          : constantValues fractions (operands.map gathered)
            = constantValues fractions operands := by
        rw [constantValues, List.filterMap_map]
        exact List.filterMap_congr fun o _ => (sameKind_gathered o).constantValue?_eq fractions
      have hother (o : Expr) : o.gathered.isConstant = o.isConstant :=
        (sameKind_gathered o).isConstant_eq
      change repeatsConstants (sum (operands.map gathered)) = _
      simp only [repeatsConstants, hvalues, List.any_map, Function.comp_def, hother]
  | _ => rfl

/-- Gathering a gathered normal tree gives an alike tree exactly if no sum in the tree repeats its
constants. -/
theorem alike_gathered_gathered_iff {e : Expr} (h : e.IsNormal)
    : Alike e.gathered.gathered e.gathered
      ↔ ∀ node ∈ e.subtrees, node.repeatsConstants = false := by
  rw [alike_gathered_iff, forall_subtrees_gathered]
  refine forall₂_congr fun node hn => ?_
  have hnormal : node.withGatheredChildren.isNormalNode = true := by
    rw [isNormalNode_withGatheredChildren]
    exact h node hn
  rw [forall_madeNodes_isSettled hnormal, repeatsConstants_withGatheredChildren]

end Expr

/-- Collecting a collected flat tree gives an alike tree exactly if no sum in the flat tree has the
values of several constants once more among its fractions, beside another operand. -/
theorem collectDeep_idempotent_iff {e : Expr} (h : e.flatten.WellFormed)
    : ∃ once twice, e.flatten.collectDeep = .ok once ∧ once.value.collectDeep = .ok twice
        ∧ (Expr.Alike twice.value once.value
            ↔ ∀ node ∈ e.flatten.subtrees, node.repeatsConstants = false) := by
  obtain ⟨honce, hwell⟩ := h.collectDeep_eq
  exact ⟨_, _, honce, hwell.collectDeep_eq.1,
    Expr.alike_gathered_gathered_iff (Expr.isNormal_flatten e)⟩

/-- A sum of bundles for its constants and its fractions, of which only some values are the same,
inside brackets that stay and beside a product with a repeated factor. -/
theorem collectDeep_idempotent_iff_constants
    : let x := Expr.symbol "x"
      let half := Expr.constant ⟨1 / 2, true, some "1/2"⟩
      let two := Expr.constant ⟨2, true, some "4/2"⟩
      let sum := Expr.sum [.constant .two, x, .constant .two, half, two, .product [two, x] true]
      let e := Expr.product [x, .group (.group sum), .power x sum, .constant .two] true
      e.flatten.WellFormed
      ∧ ∃ once twice, e.flatten.collectDeep = .ok once ∧ once.value.collectDeep = .ok twice
          ∧ (Expr.Alike twice.value once.value
              ↔ ∀ node ∈ e.flatten.subtrees, node.repeatsConstants = false) := by
  intro x half two sum e
  have h : e.flatten.WellFormed := by decide
  exact ⟨h, collectDeep_idempotent_iff h⟩

/-- The constants of a sum and its fractions of the same values become alike bundles, which are
like terms when the sum is collected again. -/
theorem not_collectDeep_idempotent
    : ¬ ∀ e : Expr, e.flatten.WellFormed → ∀ once twice, e.flatten.collectDeep = .ok once
        → once.value.collectDeep = .ok twice → Expr.Alike twice.value once.value := by
  intro hall
  have hread : parse "x+2+2+4/2+4/2" = .ok
      (.sum [.sum [.sum [.sum [.symbol "x", .constant ⟨2, false, some "2"⟩],
        .constant ⟨2, false, some "2"⟩], .constant ⟨2, true, some "4/2"⟩],
        .constant ⟨2, true, some "4/2"⟩]) := by
    cbv
  have h := (wellFormed_of_parse hread).flatten
  obtain ⟨honce, hwell⟩ := h.collectDeep_eq
  have halike := hall _ h _ _ honce hwell.collectDeep_eq.1
  exact absurd ((Expr.alike_gathered_gathered_iff (Expr.isNormal_flatten _)).mp halike) (by decide)

end TermGrouping
