import TermGrouping.Proofs.Collecting.Nodes
import TermGrouping.Proofs.Leaves.Conservation

/-! Genuine trees. What a text is read as holds only constants that keep to how they were written,
and coefficients that signs have brought in. Changing signs, flattening, collecting and taking parts
keep such a tree readable and its constants genuine.
-/

namespace TermGrouping

-----------------------------------------------------------------------------------------
-- Genuine constants
-----------------------------------------------------------------------------------------

/-- Only a fraction is written with a slash. -/
theorem Numeral.slash_mem_spelling {n : Numeral} (h : n.IsReadable)
    : '/' ∈ n.spelling ↔ n.isFraction = true := by
  cases n with
  | fraction => simp [spelling, isFraction]
  | decimal whole places =>
      have hdigits : '/' ∉ whole ++ places := fun hs =>
        Text.ne_of_class (h.2 '/' hs) (by decide) rfl
      cases places <;> simpa [spelling, isFraction] using hdigits

namespace Literal

/-- A constant that keeps to how it was written. One without a text is one or minus one and no
fraction; a text is a numeral of the value, or one of the opposite value behind a minus sign, and
has a slash exactly if the constant is a fraction. -/
def IsGenuine (literal : Literal) : Prop :=
  match literal.text with
  | none => (literal.value = 1 ∨ literal.value = -1) ∧ literal.isFraction = false
  | some text =>
      (∃ n : Numeral, n.IsReadable
        ∧ (text.toList = n.spelling ∧ literal.value = n.value
          ∨ text.toList = '-' :: n.spelling ∧ literal.value = -n.value))
      ∧ (literal.isFraction = true ↔ '/' ∈ text.toList)

theorem isGenuine_minusOne : minusOne.IsGenuine := ⟨.inr rfl, rfl⟩

/-- A constant that was read from a numeral keeps to it. -/
theorem isGenuine_ofNumeral {n : Numeral} (h : n.IsReadable) : (ofNumeral n).IsGenuine := by
  refine ⟨⟨n, h, .inl ⟨String.toList_ofList, rfl⟩⟩, ?_⟩
  rw [String.toList_ofList, Numeral.slash_mem_spelling h]
  rfl

/-- Changing the sign of a genuine constant changes that of its text, if it has one. -/
theorem IsGenuine.opposite {literal : Literal} (h : literal.IsGenuine)
    : literal.opposite.IsGenuine := by
  obtain ⟨value, isFraction, text⟩ := literal
  cases text with
  | none =>
      obtain ⟨rfl | rfl, hf⟩ := h
      · exact ⟨.inr rfl, hf⟩
      · exact ⟨.inl (Rat.neg_neg 1), hf⟩
  | some text =>
      obtain ⟨⟨n, hn, ⟨htext, hvalue⟩ | ⟨htext, hvalue⟩⟩, hslash⟩ := h
      · have htoggle : toggleSign text.toList = '-' :: n.spelling := by
          rw [htext, toggleSign_spelling hn]
        refine ⟨⟨n, hn, .inr ⟨?_, ?_⟩⟩, ?_⟩
        · rw [String.toList_ofList, htoggle]
        · exact congrArg Neg.neg hvalue
        · rw [String.toList_ofList, htoggle, List.mem_cons, ← htext]
          simpa [Literal.opposite] using hslash
      · have htoggle : toggleSign text.toList = n.spelling := by rw [htext, toggleSign]
        refine ⟨⟨n, hn, .inl ⟨?_, ?_⟩⟩, ?_⟩
        · rw [String.toList_ofList, htoggle]
        · exact (congrArg Neg.neg hvalue).trans (Rat.neg_neg _)
        · rw [String.toList_ofList, htoggle]
          simpa [Literal.opposite, htext] using hslash

end Literal

-----------------------------------------------------------------------------------------
-- Collecting and taking parts keep trees readable
-----------------------------------------------------------------------------------------

namespace Expr

theorem IsReadable.of_mem_children {e : Expr} (h : e.IsReadable)
    : ∀ child ∈ e.children, child.IsReadable := by
  cases h with
  | constant | symbol => simp [Expr.children]
  | power ha hb | quotient ha hb => simpa [Expr.children] using ⟨ha, hb⟩
  | group hi => simpa [Expr.children] using hi
  | sum _ hh hr | product _ _ hh hr | call _ hh hr => exact List.forall_mem_cons.mpr ⟨hh, hr⟩

/-- All subtrees of a readable tree are readable. -/
theorem IsReadable.of_mem_subtrees {e : Expr} (h : e.IsReadable)
    : ∀ node ∈ e.subtrees, node.IsReadable :=
  forall_subtrees_of_children (fun _ he => he.of_mem_children) h

theorem isReadable_node (operator : Operator) {operands : List Expr} (hlength : 2 ≤ operands.length)
    (h : ∀ e ∈ operands, e.IsReadable)
    : (operator.node operands).IsReadable := by
  cases operator with
  | sum => exact isReadable_sum hlength h
  | product => exact isReadable_product false hlength h

/-- Combining readable operands makes a readable tree, also where there is only one. -/
theorem isReadable_combine (operator : Operator) {operands : List Expr} (hne : operands ≠ [])
    (h : ∀ e ∈ operands, e.IsReadable)
    : (operator.combine operands).IsReadable := by
  match operands with
  | [] => exact absurd rfl hne
  | [e] => exact h e List.mem_cons_self
  | e :: f :: rest => exact isReadable_node operator (by simp) h

theorem IsReadable.bundled {e : Expr} (h : e.IsReadable) : e.bundled.value.IsReadable :=
  bundled_of_combine h h.of_mem_children fun operator _ hne => isReadable_combine operator hne

/-- A readable node rebuilt from readable children is readable. -/
theorem IsReadable.rebuild {e : Expr} {f : Expr → Expr} (h : e.IsReadable)
    (hf : ∀ child ∈ e.children, (f child).IsReadable)
    : (e.rebuild (e.children.map f)).IsReadable := by
  cases h with
  | constant hl => exact .constant hl
  | symbol hl => exact .symbol hl
  | power => exact .power (hf _ (by simp [Expr.children])) (hf _ (by simp [Expr.children]))
  | quotient => exact .quotient (hf _ (by simp [Expr.children])) (hf _ (by simp [Expr.children]))
  | group => exact .group (hf _ (by simp [Expr.children]))
  | sum hne =>
      obtain ⟨hh, hr⟩ := List.forall_mem_cons.mp hf
      exact .sum (by simpa using hne) hh (List.forall_mem_map.mpr hr)
  | product implicit hne =>
      obtain ⟨hh, hr⟩ := List.forall_mem_cons.mp hf
      exact .product implicit (by simpa using hne) hh (List.forall_mem_map.mpr hr)
  | call hname =>
      obtain ⟨hh, hr⟩ := List.forall_mem_cons.mp hf
      exact .call hname hh (List.forall_mem_map.mpr hr)

/-- The gathered tree of a readable tree is readable. -/
theorem IsReadable.gathered {e : Expr} (h : e.IsReadable) : e.gathered.IsReadable := by
  induction e using induct_children with
  | step e ih =>
      rw [gathered_eq]
      exact (h.rebuild fun child hc => ih child hc (h.of_mem_children child hc)).bundled

/-- A readable product stays readable without its coefficient. -/
theorem IsReadable.withoutCoefficient {head : Expr} {rest : List Expr} {implicit : Bool}
    (h : (Expr.product (head :: rest) implicit).IsReadable)
    : (Expr.withoutCoefficient implicit rest).IsReadable := by
  cases h with
  | product _ hne _ hr =>
      match rest with
      | [] => exact absurd rfl hne
      | [factor] => exact hr factor List.mem_cons_self
      | a :: b :: rest => exact isReadable_product implicit (by simp) hr

-----------------------------------------------------------------------------------------
-- Genuine trees
-----------------------------------------------------------------------------------------

def HasGenuineConstants (e : Expr) : Prop :=
  ∀ literal, constant literal ∈ e.tips → literal.IsGenuine

/-- The constants of a node with parts are those of its children. -/
theorem hasGenuineConstants_iff {e : Expr} (h : e.isTip = false)
    : e.HasGenuineConstants ↔ ∀ child ∈ e.children, child.HasGenuineConstants := by
  simp only [HasGenuineConstants, tips_of_not_isTip h, List.mem_flatMap]
  exact ⟨fun hall child hc literal hl => hall literal ⟨child, hc, hl⟩,
    fun hall literal ⟨child, hc, hl⟩ => hall child hc literal hl⟩

/-- Taking the opposite changes the sign of a genuine constant or adds the constant minus one. -/
theorem HasGenuineConstants.opposite {e : Expr} (h : e.HasGenuineConstants)
    : e.opposite.HasGenuineConstants := by
  unfold HasGenuineConstants at h ⊢
  unfold Expr.opposite
  split
  · simpa using (h _ (by simp)).opposite
  · simp only [tips_product, List.flatMap_cons, tips_constant, List.singleton_append,
      List.mem_cons, constant.injEq, forall_eq_or_imp] at h ⊢
    exact ⟨h.1.opposite, h.2⟩
  · simpa [Literal.isGenuine_minusOne] using h
  · simpa [Literal.isGenuine_minusOne] using h

theorem HasGenuineConstants.signed {e : Expr} (h : e.HasGenuineConstants) (sign : Sign)
    : (sign.apply e).HasGenuineConstants := by
  cases sign with
  | plus => exact h
  | minus => exact h.opposite

/-- A readable tree with genuine constants. -/
structure IsGenuine (e : Expr) : Prop where
  readable : e.IsReadable
  constants : e.HasGenuineConstants

theorem IsGenuine.opposite {e : Expr} (h : e.IsGenuine) : e.opposite.IsGenuine :=
  ⟨h.readable.opposite, h.constants.opposite⟩

/-- Flattening keeps trees genuine: it keeps their tips, and so their constants. -/
theorem IsGenuine.flatten {e : Expr} (h : e.IsGenuine) : e.flatten.IsGenuine where
  readable := h.readable.flatten
  constants := by
    rw [HasGenuineConstants, tips_flatten]
    exact h.constants

theorem IsGenuine.bundled {e : Expr} (h : e.IsGenuine) : e.bundled.value.IsGenuine where
  readable := h.readable.bundled
  constants := fun literal hl => h.constants literal ((tips_bundled e).subset hl)

/-- Collecting keeps trees genuine, because it only permutes their tips. -/
theorem IsGenuine.gathered {e : Expr} (h : e.IsGenuine) : e.gathered.IsGenuine where
  readable := h.readable.gathered
  constants := fun literal hl => h.constants literal ((tips_bundledDeep e).subset hl)

theorem IsGenuine.of_mem_children {e : Expr} (h : e.IsGenuine)
    : ∀ child ∈ e.children, child.IsGenuine := by
  intro child hc
  have htip : e.isTip = false := by cases e <;> first | rfl | cases hc
  have hconstants := (hasGenuineConstants_iff htip).mp h.constants
  exact ⟨h.readable.of_mem_children child hc, hconstants child hc⟩

/-- The rest of a genuine tree without its coefficient is genuine. -/
theorem IsGenuine.asMultiple {e : Expr} (h : e.IsGenuine) : e.asMultiple.2.IsGenuine := by
  unfold Expr.asMultiple
  split
  · next coefficient rest implicit =>
    refine ⟨h.readable.withoutCoefficient, fun literal hl => h.constants literal ?_⟩
    have htips : (withoutCoefficient implicit rest).tips = rest.flatMap tips := by
      unfold withoutCoefficient
      split <;> simp
    simp [← htips, hl]
  · exact h

end Expr

/-- Readable tokens write a tree with genuine constants. -/
theorem Derives.hasGenuineConstants {category : Category} {tokens : List Token} {e : Expr}
    (h : Derives category tokens e) (ht : ∀ token ∈ tokens, token.IsReadable)
    : e.HasGenuineConstants := by
  have hnode {e : Expr} (he : e.isTip = false)
      (hc : ∀ child ∈ e.children, child.HasGenuineConstants) : e.HasGenuineConstants :=
    (Expr.hasGenuineConstants_iff he).mpr hc
  have hpair {a b : Expr} (ha : a.HasGenuineConstants) (hb : b.HasGenuineConstants)
      : ∀ child ∈ [a, b], child.HasGenuineConstants :=
    List.forall_mem_cons.mpr ⟨ha, List.forall_mem_singleton.mpr hb⟩
  induction h using Derives.induct fun tokens es => (∀ token ∈ tokens, token.IsReadable)
      → ∀ e ∈ es, e.HasGenuineConstants with
  | term _ ih | factor _ ih | unsigned _ ih | base _ ih | exponentBase _ ih
    | atomOperand _ ih => exact ih ht
  | terms sign _ _ ihl ihr =>
      obtain ⟨hl, hr⟩ := List.forall_mem_append.mp ht
      exact hnode rfl (hpair (ihl hl) ((ihr (List.forall_mem_cons.mp hr).2).signed sign))
  | signed sign _ ih | exponentSigned sign _ ih =>
      exact (ih (List.forall_mem_cons.mp ht).2).signed sign
  | times _ _ ihl ihr | dividedBy _ _ ihl ihr | raised _ _ ihl ihr | exponentRaised _ _ ihl ihr =>
      obtain ⟨hl, hr⟩ := List.forall_mem_append.mp ht
      exact hnode rfl (hpair (ihl hl) (ihr (List.forall_mem_cons.mp hr).2))
  | beside _ _ ihl ihr =>
      obtain ⟨hl, hr⟩ := List.forall_mem_append.mp ht
      exact hnode rfl (hpair (ihl hl) (ihr hr))
  | fraction | decimal =>
      intro literal hl
      cases List.mem_singleton.mp hl
      exact Literal.isGenuine_ofNumeral (ht _ (.head _))
  | symbol => simp [Expr.HasGenuineConstants]
  | call name _ ih =>
      have ht := (List.forall_mem_cons.mp (List.forall_mem_cons.mp ht).2).2
      exact hnode rfl (ih (List.forall_mem_append.mp ht).1)
  | group _ ih =>
      have ht := (List.forall_mem_append.mp (List.forall_mem_cons.mp ht).2).1
      exact hnode rfl (List.forall_mem_singleton.mpr (ih ht))
  | one _ ih ht e he => exact List.mem_singleton.mp he ▸ ih ht
  | more _ _ ihl ihr ht e he =>
      obtain ⟨hl, hr⟩ := List.forall_mem_append.mp ht
      rcases List.mem_append.mp he with he | he
      · exact ihl hl e he
      · exact List.mem_singleton.mp he ▸ ihr (List.forall_mem_cons.mp hr).2

/-- What a text is read as is genuine. -/
theorem genuine_of_parse {text : String} {e : Expr} (h : parse text = .ok e) : e.IsGenuine := by
  obtain ⟨tokens, hlexes, hd, hdefined⟩ := parse_eq_ok_iff.mp h
  have ht := hlexes.readable hdefined
  exact ⟨hd.readable ht, hd.hasGenuineConstants ht⟩

end TermGrouping
