import Mathlib.Data.List.Basic
import TermGrouping.Expr.Grouping
import TermGrouping.Proofs.Writing.Rereading

/-! What reading a written tree does to it. Once nested operators are spliced and groups erased,
the tree that is read is the one that was written, unless a base has a sign of its own.
-/

namespace TermGrouping.Expr

theorem operator?_spliced (e : Expr) : e.spliced.operator? = e.operator? := by
  cases e <;> rfl

@[simp]
theorem termsOf_sum (operands : List Expr) : termsOf (sum operands) = operands := rfl

@[simp]
theorem factorsOf_product (operands : List Expr) (implicit : Bool)
    : factorsOf (product operands implicit) = operands := rfl

theorem termsOf_of_operator? {e : Expr} (h : e.operator? ≠ some .sum) : termsOf e = [e] := by
  cases e with
  | sum => exact absurd rfl h
  | _ => rfl

theorem factorsOf_of_operator? {e : Expr} (h : e.operator? ≠ some .product)
    : factorsOf e = [e] := by
  cases e with
  | product => exact absurd rfl h
  | _ => rfl

theorem splicedAll_eq_map (es : List Expr) : splicedAll es = es.map spliced := by
  induction es with
  | nil => rfl
  | cons e es ih => simp [splicedAll, ih]

theorem ungroupedAll_eq_map (es : List Expr) : ungroupedAll es = es.map ungrouped := by
  induction es with
  | nil => rfl
  | cons e es ih => simp [ungroupedAll, ih]

theorem rereadAll_eq_map (needed : Expr → Bool) (es : List Expr)
    : rereadAll needed es = es.map fun e => e.reread.grouped (needed e) := by
  induction es with
  | nil => rfl
  | cons e es ih => simp [rereadAll, ih]

/-- Brackets are erased with the groups that they are read as. -/
@[simp]
theorem ungrouped_spliced_grouped (needed : Bool) (e : Expr)
    : (e.grouped needed).spliced.ungrouped = e.spliced.ungrouped := by
  cases needed <;> rfl

-----------------------------------------------------------------------------------------
-- Operators nested to the left
-----------------------------------------------------------------------------------------

/-- A sum nested to the left is spliced to all of its terms, by induction over the operands. -/
theorem termsOf_foldl (a : Expr) (rest : List Expr)
    : termsOf (rest.foldl (fun a b => sum [a, b]) a).spliced
      = termsOf a.spliced ++ rest.flatMap fun e => termsOf e.spliced := by
  induction rest generalizing a with
  | nil => simp
  | cons e rest ih => simp [ih, spliced, splicedAll]

/-- A product nested to the left is spliced to all of its factors, by induction over the
operands. -/
theorem factorsOf_foldl (implicit : Bool) (a : Expr) (rest : List Expr)
    : factorsOf (rest.foldl (fun a b => product [a, b] implicit) a).spliced
      = factorsOf a.spliced ++ rest.flatMap fun e => factorsOf e.spliced := by
  induction rest generalizing a with
  | nil => simp
  | cons e rest ih => simp [ih, spliced, splicedAll]

theorem operator?_foldl_sum {a : Expr} (h : a.operator? = some .sum) (rest : List Expr)
    : (rest.foldl (fun a b => sum [a, b]) a).operator? = some .sum := by
  induction rest generalizing a with
  | nil => exact h
  | cons e rest ih => exact ih rfl

theorem operator?_foldl_product (implicit : Bool) {a : Expr}
    (h : a.operator? = some .product) (rest : List Expr)
    : (rest.foldl (fun a b => product [a, b] implicit) a).operator? = some .product := by
  induction rest generalizing a with
  | nil => exact h
  | cons e rest ih => exact ih rfl

/-- Sums nested to the left are spliced to one sum. -/
theorem spliced_foldl_sum (a : Expr) {rest : List Expr} (h : rest ≠ [])
    : (rest.foldl (fun a b => sum [a, b]) a).spliced
      = sum (termsOf a.spliced ++ rest.flatMap fun e => termsOf e.spliced) := by
  rw [← termsOf_foldl]
  obtain ⟨e, rest, rfl⟩ := List.exists_cons_of_ne_nil h
  have ho := operator?_foldl_sum (a := sum [a, e]) rfl rest
  rw [List.foldl_cons]
  generalize rest.foldl (fun a b => sum [a, b]) (sum [a, e]) = whole at ho
  cases whole with
  | sum => rfl
  | _ => simp [operator?, operation?] at ho

/-- Products nested to the left are spliced to one product. -/
theorem spliced_foldl_product {implicit : Bool} {a : Expr} {rest : List Expr}
    (h : (rest.foldl (fun a b => product [a, b] implicit) a).operator? = some .product)
    : ∃ implicit', (rest.foldl (fun a b => product [a, b] implicit) a).spliced
      = product (factorsOf a.spliced ++ rest.flatMap fun e => factorsOf e.spliced)
          implicit' := by
  rw [← factorsOf_foldl implicit]
  generalize rest.foldl (fun a b => product [a, b] implicit) a = whole at h
  cases whole with
  | product operands implicit' => exact ⟨implicit', rfl⟩
  | _ => simp [operator?, operation?] at h

-----------------------------------------------------------------------------------------
-- Operators of trees that were read back
-----------------------------------------------------------------------------------------

/-- The opposite of what can follow a factor is a product with the coefficient minus one, if it
is no product itself. -/
theorem opposite_of_canFollow {e : Expr} (h : e.canFollow = true) (hp : e.operator? = none)
    : e.opposite = product [constant .minusOne, e] true := by
  cases e <;> simp_all [canFollow, operator?, operation?, opposite]

theorem operator?_opposite_of_canFollow {e : Expr} (h : e.canFollow = true)
    (hp : e.operator? = none)
    : e.opposite.operator? = some .product := by
  rw [opposite_of_canFollow h hp]
  rfl

/-- A factor that can follow another one is read back as such a factor, in brackets if it is an
operator. -/
theorem IsReadable.canFollow_reread {e : Expr} (h : e.IsReadable) (hf : e.canFollow = true)
    (hs : e.hasSignedBase = false)
    : (e.reread.grouped e.bracketedLater).canFollow = true
      ∧ (e.reread.grouped e.bracketedLater).operator? = none := by
  cases h with
  | constant | quotient => simp [canFollow] at hf
  | symbol | group | call => exact ⟨rfl, rfl⟩
  | sum | product => exact ⟨rfl, rfl⟩
  | power =>
      simp only [reread, hs, Bool.false_eq_true, if_false]
      exact ⟨rfl, rfl⟩

/-- A readable tree is read back with the same operator, unless it has a signed base. -/
theorem IsReadable.operator?_reread {e : Expr} (h : e.IsReadable)
    (hs : ∀ node ∈ e.subtrees, node.hasSignedBase = false)
    : e.reread.operator? = e.operator? := by
  obtain ⟨hnode, hc⟩ := forall_subtrees.mp hs
  cases h with
  | constant | symbol | group | call | quotient => rfl
  | power =>
      simp only [reread, hnode, Bool.false_eq_true, if_false]
      rfl
  | @sum head rest hne =>
      obtain ⟨e, es, rfl⟩ := List.exists_cons_of_ne_nil hne
      exact operator?_foldl_sum (a := .sum [_, _]) rfl _
  | @product head rest implicit hne _ hr =>
      obtain ⟨first, later, rfl⟩ := List.exists_cons_of_ne_nil hne
      simp only [reread, rereadAll]
      split
      · next hj =>
        split
        · simp only [isJuxtaposed, List.drop_succ_cons, List.drop_zero, List.all_cons,
            Bool.and_eq_true] at hj
          obtain ⟨hf, ho⟩ := (hr first (.head _)).canFollow_reread hj.2.1
            (forall_subtrees.mp (hc first (.tail _ (.head _)))).1
          exact operator?_foldl_product true (operator?_opposite_of_canFollow hf ho) _
        · exact operator?_foldl_product true (a := .product [_, _] true) rfl _
      · exact operator?_foldl_product false (a := .product [_, _] false) rfl _

/-- Where a test asks for brackets around an operator, no tree is read back with it. -/
theorem operator?_spliced_grouped {operator : Operator} {needed : Expr → Bool} {e : Expr}
    (hn : needed e = false → e.operator? ≠ some operator)
    (hr : e.reread.operator? = e.operator?)
    : (e.reread.grouped (needed e)).spliced.operator? ≠ some operator := by
  rw [operator?_spliced]
  cases h : needed e with
  | false => exact hr ▸ hn h
  | true => simp [grouped, operator?, operation?]

theorem operator?_of_not_isSum {e : Expr} (h : e.isSum = false)
    : e.operator? ≠ some .sum := by
  cases e <;> simp_all [isSum, operator?, operation?]

theorem operator?_of_not_bracketedFirst {e : Expr} (h : e.bracketedFirst = false)
    : e.operator? ≠ some .product := by
  cases e <;> simp_all [bracketedFirst, operator?, operation?]

theorem operator?_of_not_bracketedLater {e : Expr} (h : e.bracketedLater = false)
    : e.operator? ≠ some .product := by
  cases e <;> simp_all [bracketedLater, operator?, operation?]

/-- A written sum is read back as a sum of what its operands are read as. -/
theorem spliced_reread_sum {head : Expr} {rest : List Expr} (hne : rest ≠ [])
    (hr : ∀ e ∈ head :: rest, e.reread.operator? = e.operator?)
    : (sum (head :: rest)).reread.spliced
      = sum ((head :: rest).map fun e => (e.reread.grouped e.isSum).spliced) := by
  have hterms : ∀ e ∈ head :: rest, termsOf (e.reread.grouped e.isSum).spliced
      = [(e.reread.grouped e.isSum).spliced] := by
    intro e he
    exact termsOf_of_operator? (operator?_spliced_grouped operator?_of_not_isSum (hr e he))
  obtain ⟨hh, hrest⟩ := List.forall_mem_cons.mp hterms
  rw [reread, spliced_foldl_sum _ (by simpa [rereadAll_eq_map] using hne), hh,
    rereadAll_eq_map, List.flatMap_map, List.flatMap_congr hrest, ← List.map_eq_flatMap]
  rfl

end Expr

/-- A constant is read back with its value. -/
theorem Literal.IsReadable.reread_value {literal : Literal} (h : literal.IsReadable)
    : literal.reread.value = literal.value := by
  rw [h.value, Literal.reread]
  split <;> rfl

namespace Expr

/-- A written product is read back as a product of what its factors are read as. -/
theorem spliced_reread_product {head : Expr} {rest : List Expr} (implicit : Bool)
    (hne : rest ≠ []) (hh : head.IsReadable) (hrest : ∀ e ∈ rest, e.IsReadable)
    (hs : ∀ e ∈ head :: rest, ∀ node ∈ e.subtrees, node.hasSignedBase = false)
    : ∃ first implicit', (product (head :: rest) implicit).reread.spliced
        = product (first :: rest.map fun e => (e.reread.grouped e.bracketedLater).spliced)
            implicit'
      ∧ Alike first.ungrouped head.reread.spliced.ungrouped := by
  obtain ⟨hsh, hsr⟩ := List.forall_mem_cons.mp hs
  have hhead : factorsOf (head.reread.grouped head.bracketedFirst).spliced
      = [(head.reread.grouped head.bracketedFirst).spliced] :=
    factorsOf_of_operator?
      (operator?_spliced_grouped operator?_of_not_bracketedFirst (hh.operator?_reread hsh))
  have hlater : ∀ e ∈ rest, factorsOf (e.reread.grouped e.bracketedLater).spliced
      = [(e.reread.grouped e.bracketedLater).spliced] := by
    intro e he
    exact factorsOf_of_operator?
      (operator?_spliced_grouped operator?_of_not_bracketedLater
        ((hrest e he).operator?_reread (hsr e he)))
  have hbehind : (rereadAll bracketedLater rest).flatMap (fun e => factorsOf e.spliced)
      = rest.map fun e => (e.reread.grouped e.bracketedLater).spliced := by
    rw [rereadAll_eq_map, List.flatMap_map, List.flatMap_congr hlater, ← List.map_eq_flatMap]
  have hjoined (implicit : Bool) : ∃ implicit', ((rereadAll bracketedLater rest).foldl
        (fun a b => product [a, b] implicit) (head.reread.grouped head.bracketedFirst)).spliced
      = product ((head.reread.grouped head.bracketedFirst).spliced
          :: rest.map fun e => (e.reread.grouped e.bracketedLater).spliced) implicit' := by
    obtain ⟨e, es, rfl⟩ := List.exists_cons_of_ne_nil hne
    obtain ⟨implicit', h⟩ := spliced_foldl_product
      (operator?_foldl_product implicit (a := product [head.reread.grouped head.bracketedFirst,
        e.reread.grouped e.bracketedLater] implicit) rfl (rereadAll bracketedLater es))
    refine ⟨implicit', h.trans ?_⟩
    rw [← hbehind]
    simp [rereadAll, spliced, splicedAll, hhead]
  simp only [reread]
  split
  · next hj =>
    split
    · next hm =>
      obtain ⟨first, later, rfl⟩ := List.exists_cons_of_ne_nil hne
      simp only [isJuxtaposed, List.drop_succ_cons, List.drop_zero, List.all_cons,
        Bool.and_eq_true] at hj
      obtain ⟨hf, ho⟩ := (hrest first (.head _)).canFollow_reread hj.2.1
        (forall_subtrees.mp (hsr first (.head _))).1
      obtain ⟨implicit', h⟩ := spliced_foldl_product
        (operator?_foldl_product true (operator?_opposite_of_canFollow hf ho)
          (rereadAll bracketedLater later))
      refine ⟨constant .minusOne, implicit', h.trans ?_, ?_⟩
      · rw [← hbehind, opposite_of_canFollow hf ho]
        simp [rereadAll, spliced, splicedAll, factorsOf]
      · cases hh with
        | @constant literal hl =>
            have hv : literal.value = -1 := by simpa [isMinusOne] using hm
            simp [Alike, reread, spliced, ungrouped, shape, hl.reread_value, hv,
              Literal.minusOne]
        | _ => simp [isMinusOne] at hm
    · obtain ⟨implicit', h⟩ := hjoined true
      exact ⟨_, implicit', h, by simp [Alike.refl]⟩
  · obtain ⟨implicit', h⟩ := hjoined false
    exact ⟨_, implicit', h, by simp [Alike.refl]⟩

/-- A readable tree without signed bases is read back as itself, once nested operators are
spliced and groups erased. -/
theorem IsReadable.alike_reread {e : Expr} (h : e.IsReadable)
    (hs : ∀ node ∈ e.subtrees, node.hasSignedBase = false)
    : Alike e.reread.spliced.ungrouped e.ungrouped := by
  unfold Alike
  induction h with
  | constant hl => simp [reread, spliced, ungrouped, shape, hl.reread_value]
  | symbol => rfl
  | power _ _ ihb ihx =>
      obtain ⟨hnode, hc⟩ := forall_subtrees.mp hs
      have hb := ihb (hc _ (.head _))
      have hx := ihx (hc _ (.tail _ (.head _)))
      simp [reread, hnode, spliced, ungrouped, shape, hb, hx]
  | @sum head rest hne hh hr ihh ihr =>
      have hc := (forall_subtrees.mp hs).2
      have ih := List.forall_mem_cons.mpr ⟨ihh, ihr⟩
      have hreadable := List.forall_mem_cons.mpr ⟨hh, hr⟩
      rw [spliced_reread_sum hne fun e he => (hreadable e he).operator?_reread (hc e he)]
      simp only [ungrouped, shape, ungroupedAll_eq_map, shapeAll_eq_map, List.map_map]
      congr 1
      refine List.map_congr_left fun e he => ?_
      simpa using ih e he (hc e he)
  | @product head rest implicit hne hh hr ihh ihr =>
      have hc := (forall_subtrees.mp hs).2
      obtain ⟨first, implicit', hproduct, hfirst⟩ :=
        spliced_reread_product implicit hne hh hr hc
      rw [hproduct]
      simp only [ungrouped, shape, ungroupedAll_eq_map, shapeAll_eq_map, List.map_map,
        List.map_cons]
      congr 2
      · exact hfirst.trans (ihh (hc head (.head _)))
      · refine List.map_congr_left fun e he => ?_
        simpa using ihr e he (hc e (.tail _ he))
  | group _ ih => exact ih ((forall_subtrees.mp hs).2 _ (.head _))
  | @call name head rest _ _ _ ihh ihr =>
      have hc := (forall_subtrees.mp hs).2
      have ih := List.forall_mem_cons.mpr ⟨ihh, ihr⟩
      simp only [reread, spliced, ungrouped, shape, rereadAll_eq_map, splicedAll_eq_map,
        ungroupedAll_eq_map, shapeAll_eq_map, List.map_map]
      congr 1
      refine List.map_congr_left fun e he => ?_
      simpa using ih e he (hc e he)
  | quotient _ _ ihn ihd =>
      have hc := (forall_subtrees.mp hs).2
      have hn := ihn (hc _ (.head _))
      have hd := ihd (hc _ (.tail _ (.head _)))
      simp [reread, spliced, ungrouped, shape, hn, hd]

end TermGrouping.Expr
