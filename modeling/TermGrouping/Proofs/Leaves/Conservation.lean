import Mathlib
import TermGrouping.Proofs.Collected
import TermGrouping.Proofs.Flattening.Fixpoint
import TermGrouping.Proofs.Writing.Readable

/-! No numeral and no symbol is lost on the way from a text to the collected tree. The leaves of the
tree that is read are the numerals and letters of the text in their order, if the coefficients
that signs bring in are left out; flattening keeps the leaves, and collecting permutes them.
-/

namespace TermGrouping

-----------------------------------------------------------------------------------------
-- From the text to the tree
-----------------------------------------------------------------------------------------

def Token.isLeaf : Token → Bool
  | numeral _ | symbol _ => true
  | _ => false

/-- The leaves that a token can become. Signs around a numeral change the sign of its constant and
put a minus sign in front of its text, or take it away again. -/
inductive Token.Becomes : Token → Expr → Prop where
  | symbol (letter : Char) : Becomes (.symbol letter) (.symbol (String.singleton letter))
  | unsigned (digits : Numeral)
    : Becomes (.numeral digits)
        (.constant ⟨digits.value, digits.isFraction, some (String.ofList digits.spelling)⟩)
  | signed (digits : Numeral)
    : Becomes (.numeral digits)
        (.constant
          ⟨-digits.value, digits.isFraction, some (String.ofList ('-' :: digits.spelling))⟩)

/-- A token can become a constant of either sign. -/
theorem Token.Becomes.opposite {token : Token} {literal : Literal} (ht : token.IsReadable)
    (h : token.Becomes (.constant literal))
    : token.Becomes (.constant literal.opposite) := by
  cases h with
  | unsigned digits =>
      have htoggle := Literal.toggleSign_spelling (n := digits) ht
      simp only [Literal.opposite, Option.map_some, String.toList_ofList, htoggle]
      exact .signed digits
  | signed digits =>
      simp only [Literal.opposite, Option.map_some, String.toList_ofList, Literal.toggleSign,
        Rat.neg_neg]
      exact .unsigned digits

namespace Expr

/-- Whether a node is a leaf that has been read. A constant without a text has not. -/
def isWritten : Expr → Bool
  | constant literal => literal.text.isSome
  | symbol _ => true
  | _ => false

/-- The leaves of a tree that have been read, left to right. -/
def writtenLeaves (e : Expr) : List Expr := e.leaves.filter isWritten

/-- The leaves that have been read are tips, because only plain values are tips and no leaves. -/
theorem writtenLeaves_eq_filter_tips (e : Expr) : e.writtenLeaves = e.tips.filter isWritten := by
  rw [writtenLeaves, leaves_eq_filter_tips, List.filter_filter]
  refine List.filter_congr fun tip _ => ?_
  cases tip <;> simp [isWritten, isLeaf]

/-- The leaves of a branching node are those of its children, from left to right. -/
theorem writtenLeaves_of_not_isTip {e : Expr} (h : e.isTip = false)
    : e.writtenLeaves = e.children.flatMap writtenLeaves := by
  rw [writtenLeaves_eq_filter_tips, tips_of_not_isTip h, List.filter_flatMap]
  exact List.flatMap_congr fun child _ => (writtenLeaves_eq_filter_tips child).symm

end Expr

/-- A constant in front of other nodes can change its sign: if it has been read, it stays a leaf of
its token, and otherwise it has none. -/
theorem forall₂_becomes_opposite {tokens : List Token} {literal : Literal} {tips : List Expr}
    (ht : ∀ token ∈ tokens, token.IsReadable)
    (h : List.Forall₂ Token.Becomes tokens ((.constant literal :: tips).filter Expr.isWritten))
    : List.Forall₂ Token.Becomes tokens
        ((.constant literal.opposite :: tips).filter Expr.isWritten) := by
  cases htext : literal.text with
  | none => simpa [Expr.isWritten, Literal.opposite, htext] using h
  | some text =>
      rw [List.filter_cons_of_pos (by simp [Expr.isWritten, htext])] at h
      rw [List.filter_cons_of_pos (by simp [Expr.isWritten, Literal.opposite, htext])]
      cases h with
      | cons hhead htail => exact .cons (hhead.opposite (ht _ List.mem_cons_self)) htail

/-- A sign in front of a tree changes no leaf of the tree but its first constant. -/
theorem forall₂_becomes_signed {tokens : List Token} {e : Expr} (sign : Sign)
    (ht : ∀ token ∈ tokens, token.IsReadable)
    (h : List.Forall₂ Token.Becomes (tokens.filter Token.isLeaf) e.writtenLeaves)
    : List.Forall₂ Token.Becomes (tokens.filter Token.isLeaf) (sign.apply e).writtenLeaves := by
  have hleaves : ∀ token ∈ tokens.filter Token.isLeaf, token.IsReadable :=
    fun token hm => ht token (List.mem_filter.mp hm).1
  cases sign with
  | plus => exact h
  | minus =>
      change List.Forall₂ _ _ e.opposite.writtenLeaves
      rw [Expr.writtenLeaves_eq_filter_tips] at h ⊢
      unfold Expr.opposite
      split
      · exact forall₂_becomes_opposite hleaves h
      · rw [Expr.tips_product, List.flatMap_cons] at h ⊢
        exact forall₂_becomes_opposite hleaves h
      · simpa [Expr.isWritten, Literal.minusOne] using h
      · simpa [Expr.isWritten, Literal.minusOne] using h

/-- The leaves of a node with two children are those of the tokens before and behind an operator
sign. -/
theorem forall₂_becomes_pair {left right : List Token} {token : Token} {e a b : Expr}
    (he : e.isTip = false) (hc : e.children = [a, b]) (ht : token.isLeaf = false)
    (hl : List.Forall₂ Token.Becomes (left.filter Token.isLeaf) a.writtenLeaves)
    (hr : List.Forall₂ Token.Becomes (right.filter Token.isLeaf) b.writtenLeaves)
    : List.Forall₂ Token.Becomes ((left ++ token :: right).filter Token.isLeaf)
        e.writtenLeaves := by
  rw [List.filter_append, List.filter_cons_of_neg (by simp [ht]),
    Expr.writtenLeaves_of_not_isTip he, hc]
  simpa using List.rel_append hl hr

/-- The tokens of a part of a formula that are leaves become its leaves, in their order. -/
theorem Derives.forall₂_becomes {category : Category} {tokens : List Token} {e : Expr}
    (h : Derives category tokens e) (ht : ∀ token ∈ tokens, token.IsReadable)
    : List.Forall₂ Token.Becomes (tokens.filter Token.isLeaf) e.writtenLeaves := by
  induction h using Derives.induct fun tokens es => (∀ token ∈ tokens, token.IsReadable)
      → List.Forall₂ Token.Becomes (tokens.filter Token.isLeaf) (es.flatMap Expr.writtenLeaves)
    with
  | term _ ih | factor _ ih | unsigned _ ih | base _ ih | exponentBase _ ih | atomOperand _ ih =>
      exact ih ht
  | terms sign _ _ ihl ihr =>
      obtain ⟨hl, hr⟩ := List.forall_mem_append.mp ht
      have hr := (List.forall_mem_cons.mp hr).2
      exact forall₂_becomes_pair rfl rfl rfl (ihl hl) (forall₂_becomes_signed sign hr (ihr hr))
  | times _ _ ihl ihr | dividedBy _ _ ihl ihr | raised _ _ ihl ihr | exponentRaised _ _ ihl ihr =>
      obtain ⟨hl, hr⟩ := List.forall_mem_append.mp ht
      exact forall₂_becomes_pair rfl rfl rfl (ihl hl) (ihr (List.forall_mem_cons.mp hr).2)
  | beside _ _ ihl ihr =>
      obtain ⟨hl, hr⟩ := List.forall_mem_append.mp ht
      rw [List.filter_append, Expr.writtenLeaves_of_not_isTip rfl]
      simpa [Expr.children] using List.rel_append (ihl hl) (ihr hr)
  | signed sign _ ih | exponentSigned sign _ ih =>
      exact forall₂_becomes_signed sign ht (ih (List.forall_mem_cons.mp ht).2)
  | fraction | decimal => exact .cons (.unsigned _) .nil
  | symbol letter => exact .cons (.symbol letter) .nil
  | call name _ ih =>
      have ht := (List.forall_mem_append.mp (List.forall_mem_cons.mp
        (List.forall_mem_cons.mp ht).2).2).1
      rw [Expr.writtenLeaves_of_not_isTip rfl]
      simpa [Token.isLeaf, Expr.children] using ih ht
  | group _ ih =>
      have ht := (List.forall_mem_append.mp (List.forall_mem_cons.mp ht).2).1
      rw [Expr.writtenLeaves_of_not_isTip rfl]
      simpa [Token.isLeaf, Expr.children] using ih ht
  | one _ ih ht => simpa using ih ht
  | more _ _ ihl ihr ht =>
      obtain ⟨hl, hr⟩ := List.forall_mem_append.mp ht
      have hright := ihr (List.forall_mem_cons.mp hr).2
      rw [List.filter_append, List.flatMap_append]
      simpa [Token.isLeaf] using List.rel_append (ihl hl) hright

-----------------------------------------------------------------------------------------
-- From the tree to the collected tree
-----------------------------------------------------------------------------------------

namespace Expr

/-- Combining operands keeps their tips, also where a single one stays as it is. -/
theorem tips_combine (operator : Operator) (operands : List Expr)
    : (operator.combine operands).tips = operands.flatMap tips := by
  unfold Operator.combine
  split
  · simp
  · cases operator
    · exact tips_sum _
    · exact tips_product _ false

/-- Bundling the operands of a node permutes its tips. -/
theorem tips_bundled (e : Expr) : e.bundled.value.tips.Perm e.tips := by
  unfold bundled
  split
  · exact .refl _
  · next operator operands ho =>
    split
    · have hmembers := (Bundle.ordered_members_perm operator operands).flatMap_right tips
      have htips : e.tips = operands.flatMap tips := by
        cases e <;> cases ho
        · exact tips_sum _
        · exact tips_product _ _
      simp only [tips_combine, List.flatMap_map, htips]
      rwa [List.flatMap_assoc] at hmembers
    · exact .refl _

/-- Bundling the operands of all nodes of a tree permutes its tips. -/
theorem tips_bundledDeep (e : Expr) : e.bundledDeep.value.tips.Perm e.tips := by
  have hall (es : List Expr) (ih : ∀ e ∈ es, e.bundledDeep.value.tips.Perm e.tips)
      : ((bundledDeepAll es).value.flatMap tips).Perm (es.flatMap tips) := by
    rw [bundledDeepAll_value, List.flatMap_map]
    exact .flatMap_left es ih
  induction e using Expr.induct with
  | constant | symbol | foreign => exact .refl _
  | power base exponent iha ihb | quotient numerator denominator iha ihb =>
      simpa only [bundledDeep, tips_power, tips_quotient] using iha.append ihb
  | group inner ih => simpa only [bundledDeep, tips_group] using ih
  | call name arguments ih => simpa only [bundledDeep, tips_call] using hall arguments ih
  | sum operands ih =>
      have hkids := hall operands ih
      rw [← tips_sum, ← tips_sum] at hkids
      exact (tips_bundled _).trans hkids
  | product operands implicit ih =>
      have hkids := hall operands ih
      rw [← tips_product _ implicit, ← tips_product _ implicit] at hkids
      exact (tips_bundled _).trans hkids

end Expr

/-- A well-formed tree holds no plain value. -/
theorem Expr.WellFormed.isPure {e : Expr} (h : e.WellFormed) : e.IsPure :=
  fun _ hn => h.value?_eq_none hn

/-- The numerals and symbols of a text are the leaves of the tree that is read, in their order and
with their digits, once the constants that have no text are left out. Flattening keeps the leaves
of every tree without plain values, and collecting permutes the leaves of every well-formed tree,
each with all its attributes. -/
theorem leaves_conserved
    : (∀ text e,
        parse text = .ok e
        → Checked.leaves e = .ok e.leaves
          ∧ List.Forall₂ Token.Becomes
              ((Scan.ofText text.toList).tokens.filter Token.isLeaf) e.writtenLeaves)
      ∧ (∀ e : Expr,
          e.IsPure
          → Checked.flatten e = .ok e.flatten
            ∧ Checked.leaves e = .ok e.leaves
            ∧ Checked.leaves e.flatten = .ok e.leaves)
      ∧ ∀ e : Expr,
          e.WellFormed
          → ∃ collected,
              e.collectDeep = .ok collected
              ∧ Checked.leaves e = .ok e.leaves
              ∧ Checked.leaves collected.value = .ok collected.value.leaves
              ∧ collected.value.leaves.Perm e.leaves := by
  refine ⟨fun text e h => ?_, fun e h => ?_, fun e h => ?_⟩
  · obtain ⟨tokens, hlexes, hd, hdefined⟩ := parse_eq_ok_iff.mp h
    obtain ⟨rfl, _⟩ := (Scan.lexes_iff 0).mp hlexes
    exact ⟨Checked.leaves_eq_ok hd.wellFormed.isPure,
      hd.forall₂_becomes (hlexes.readable hdefined)⟩
  · have hflat := Checked.leaves_eq_ok ((Expr.isPure_flatten e).mpr h)
    rw [Expr.leaves_flatten] at hflat
    exact ⟨Checked.flatten_eq_ok_of_isPure h, Checked.leaves_eq_ok h, hflat⟩
  · obtain ⟨hcollect, hwell⟩ := h.collectDeep_eq
    refine ⟨_, hcollect, Checked.leaves_eq_ok h.isPure, Checked.leaves_eq_ok hwell.isPure, ?_⟩
    rw [Expr.leaves_eq_filter_tips, Expr.leaves_eq_filter_tips]
    exact (Expr.tips_bundledDeep e).filter Expr.isLeaf

/-- Signs change the constants that numerals become, and bring in a constant without a text;
collecting moves the equal symbols side by side, past constants and other symbols. -/
theorem leaves_conserved_signs
    : let x := Expr.symbol "x"
      let y := Expr.symbol "y"
      let half := Expr.constant ⟨-1 / 2, false, some "-0.5"⟩
      let quarters := Expr.constant ⟨1 / 2, true, some "2/4"⟩
      let e := Expr.sum [.sum [.sum [.sum [x, half], y], quarters],
        .product [.constant .minusOne, x] true]
      let tokens : List Token := [.symbol 'x', .numeral (.decimal ['0'] ['5']), .symbol 'y',
        .numeral (.fraction ['2'] ['4']), .symbol 'x']
      parse "x - 0.5 + y - -2/4 - x" = .ok e
      ∧ e.writtenLeaves = [x, half, y, quarters, x]
      ∧ List.Forall₂ Token.Becomes tokens [x, half, y, quarters, x]
      ∧ Checked.leaves e.flatten = .ok [x, half, y, quarters, .constant .minusOne, x]
      ∧ ∃ collected,
          e.flatten.collectDeep = .ok collected
          ∧ collected.value.leaves.Perm [x, half, y, quarters, .constant .minusOne, x] := by
  intro x y half quarters e tokens
  obtain ⟨htext, hflat, hcollected⟩ := leaves_conserved
  have hparse : parse "x - 0.5 + y - -2/4 - x" = .ok e := by
    unfold e quarters half x y
    cbv
  have hwritten : e.writtenLeaves = [x, half, y, quarters, x] := by decide +kernel
  have hleaves : e.leaves = [x, half, y, quarters, .constant .minusOne, x] := by decide +kernel
  have htokens : (Scan.ofText "x - 0.5 + y - -2/4 - x".toList).tokens.filter Token.isLeaf
      = tokens := by
    unfold tokens
    cbv
  have hread := (htext _ e hparse).2
  rw [hwritten, htokens] at hread
  have hpure := (hflat e (by decide +kernel)).2.2
  obtain ⟨collected, hcollect, _, _, hperm⟩ := hcollected e.flatten (by decide +kernel)
  rw [Expr.leaves_flatten, hleaves] at hperm
  rw [hleaves] at hpure
  exact ⟨hparse, hwritten, hread, hpure, collected, hcollect, hperm⟩

end TermGrouping
