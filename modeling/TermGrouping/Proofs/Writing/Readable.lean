import TermGrouping.Proofs.Parsing.Lexicon
import TermGrouping.Proofs.WellFormed
import TermGrouping.Proofs.Writing.Constants

/-! Readable trees. What a text is read as is readable, and stays so when signs are changed and
when the tree is flattened.
-/

namespace TermGrouping

namespace Token

/-- A token that matches its terminal is readable, unless it is a fraction with the denominator
zero. -/
theorem Fits.isReadable {token : Token} {rest : List Char} (h : token.Fits rest)
    (hd : token.isUndefined = false)
    : token.IsReadable := by
  cases token with
  | numeral digits =>
      cases digits with
      | decimal => exact h
      | fraction =>
          obtain ⟨hnumerator, hdenominator, hdigits⟩ := h
          exact ⟨hnumerator, hdenominator, hdigits,
            by simpa [isUndefined, Numeral.denominator] using hd⟩
  | callee => exact ⟨h.1, h.2.1⟩
  | _ => exact h

/-- Every token that is read from a text is readable, unless it is a fraction with the
denominator zero. -/
theorem read?_readable {fractionAllowed : Bool} {text rest : List Char} {token : Token}
    (h : read? fractionAllowed text = some (token, rest)) (hd : token.isUndefined = false)
    : token.IsReadable :=
  (fits_of_read? h).1.isReadable hd

end Token

/-- The tokens of a text are readable, if their denominators are not zero. -/
theorem Lexes.readable {fractionAllowed : Bool} {text : List Char} {tokens : List Token}
    (h : Lexes fractionAllowed text tokens) (hd : AllDefined tokens)
    : ∀ token ∈ tokens, token.IsReadable := by
  induction h with
  | nil => simp
  | spacing _ _ ih => exact ih hd
  | token _ hread _ ih =>
      obtain ⟨ht, htokens⟩ := allDefined_cons.mp hd
      exact List.forall_mem_cons.mpr ⟨Token.read?_readable hread ht, ih htokens⟩

-----------------------------------------------------------------------------------------
-- Opposites of readable trees
-----------------------------------------------------------------------------------------

/-- The constant of a numeral is written as this numeral, without a sign. -/
theorem Literal.isReadable_ofNumeral {n : Numeral} (h : (Token.numeral n).IsReadable)
    : (Literal.ofNumeral n).IsReadable ∧ (Literal.ofNumeral n).isSigned = false
      ∧ (Literal.ofNumeral n).numeral = n :=
  isReadable_of_written false h (by simp [ofNumeral, written]) rfl

/-- A readable constant stays readable when its sign is changed, and stays a fraction, if it is
one. -/
theorem Literal.IsReadable.opposite {literal : Literal} (h : literal.IsReadable)
    : literal.opposite.IsReadable
      ∧ literal.opposite.numeral.isFraction = literal.numeral.isFraction := by
  cases ht : literal.text with
  | none =>
      obtain ⟨_, _, hn⟩ := isReadable_of_text_eq_none ht
      obtain ⟨ho, _, hno⟩ := isReadable_of_text_eq_none
        (show literal.opposite.text = none by simp [Literal.opposite, ht])
      refine ⟨ho, ?_⟩
      rw [hn, hno, Literal.opposite, Numeral.ofRat, Numeral.ofRat, Rat.neg_den]
      split <;> rfl
  | some text =>
      have hw := h.written
      have hv := h.value
      have hwritten : literal.opposite.written = toggleSign literal.written := by
        simp [Literal.opposite, Literal.written, ht]
      obtain ⟨ho, _, hno⟩ := isReadable_of_written
        (!literal.isSigned) h.numeral
        (by
          rw [hwritten, hw]
          cases literal.isSigned with
          | false => exact toggleSign_spelling h.numeral
          | true => rfl)
        (by
          rw [Literal.opposite, hv]
          cases literal.isSigned <;> simp)
      exact ⟨ho, by rw [hno]⟩

namespace Expr

theorem IsReadable.opposite {e : Expr} (h : e.IsReadable) : e.opposite.IsReadable := by
  have hminus : (Expr.constant .minusOne).IsReadable :=
    .constant (Literal.isReadable_of_text_eq_none rfl).1
  unfold Expr.opposite
  split
  · cases h with
    | constant hl => exact .constant hl.opposite.1
  · cases h with
    | product _ hne hh hr =>
        cases hh with
        | constant hl => exact .product _ hne (.constant hl.opposite.1) hr
  · cases h with
    | product _ hne hh hr =>
        exact .product _ (List.cons_ne_nil _ _) hminus (List.forall_mem_cons.mpr ⟨hh, hr⟩)
  · exact .product _ (List.cons_ne_nil _ _) hminus (List.forall_mem_singleton.mpr h)

theorem IsReadable.signed {e : Expr} (h : e.IsReadable) (sign : Sign)
    : (sign.apply e).IsReadable := by
  cases sign with
  | plus => exact h
  | minus => exact h.opposite

end Expr

/-- Readable tokens write a readable tree. -/
theorem Derives.readable {category : Category} {tokens : List Token} {e : Expr}
    (h : Derives category tokens e) (ht : ∀ token ∈ tokens, token.IsReadable)
    : e.IsReadable := by
  induction h using Derives.induct fun tokens es => (∀ token ∈ tokens, token.IsReadable)
      → es ≠ [] ∧ ∀ e ∈ es, e.IsReadable with
  | term _ ih | factor _ ih | unsigned _ ih | base _ ih | exponentBase _ ih
    | atomOperand _ ih => exact ih ht
  | terms sign _ _ ihl ihr =>
      obtain ⟨hl, hr⟩ := List.forall_mem_append.mp ht
      exact .sum (List.cons_ne_nil _ _) (ihl hl) (List.forall_mem_singleton.mpr
        ((ihr (List.forall_mem_cons.mp hr).2).signed sign))
  | signed sign _ ih | exponentSigned sign _ ih =>
      exact (ih (List.forall_mem_cons.mp ht).2).signed sign
  | times _ _ ihl ihr =>
      obtain ⟨hl, hr⟩ := List.forall_mem_append.mp ht
      exact .product _ (List.cons_ne_nil _ _) (ihl hl)
        (List.forall_mem_singleton.mpr (ihr (List.forall_mem_cons.mp hr).2))
  | beside _ _ ihl ihr =>
      obtain ⟨hl, hr⟩ := List.forall_mem_append.mp ht
      exact .product _ (List.cons_ne_nil _ _) (ihl hl) (List.forall_mem_singleton.mpr (ihr hr))
  | dividedBy _ _ ihl ihr =>
      obtain ⟨hl, hr⟩ := List.forall_mem_append.mp ht
      exact .quotient (ihl hl) (ihr (List.forall_mem_cons.mp hr).2)
  | raised _ _ ihl ihr | exponentRaised _ _ ihl ihr =>
      obtain ⟨hl, hr⟩ := List.forall_mem_append.mp ht
      exact .power (ihl hl) (ihr (List.forall_mem_cons.mp hr).2)
  | fraction | decimal =>
      exact .constant (Literal.isReadable_ofNumeral (ht _ (.head _))).1
  | symbol => exact .symbol (ht _ (.head _))
  | @call tokens es name _ ih =>
      obtain ⟨hname, ht⟩ := List.forall_mem_cons.mp ht
      obtain ⟨hne, hes⟩ := ih (List.forall_mem_append.mp (List.forall_mem_cons.mp ht).2).1
      obtain ⟨head, rest, rfl⟩ := List.exists_cons_of_ne_nil hne
      exact .call (by simpa using hname) (hes _ (.head _)) fun e he => hes e (.tail _ he)
  | group _ ih =>
      exact .group (ih (List.forall_mem_append.mp (List.forall_mem_cons.mp ht).2).1)
  | one _ ih ht => exact ⟨List.cons_ne_nil _ _, List.forall_mem_singleton.mpr (ih ht)⟩
  | more _ _ ihl ihr ht =>
      obtain ⟨hl, hr⟩ := List.forall_mem_append.mp ht
      obtain ⟨_, hes⟩ := ihl hl
      exact ⟨List.append_ne_nil_of_right_ne_nil _ (List.cons_ne_nil _ _),
        List.forall_mem_append.mpr
          ⟨hes, List.forall_mem_singleton.mpr (ihr (List.forall_mem_cons.mp hr).2)⟩⟩

/-- What a text is read as is readable. -/
theorem readable_of_parse {text : String} {e : Expr} (h : parse text = .ok e)
    : e.IsReadable := by
  obtain ⟨tokens, hlexes, hd, hdefined⟩ := parse_eq_ok_iff.mp h
  exact hd.readable (hlexes.readable hdefined)

-----------------------------------------------------------------------------------------
-- Flat trees of readable trees
-----------------------------------------------------------------------------------------

namespace Expr

/-- Readable trees are well formed, by induction over readability. -/
theorem IsReadable.wellFormed {e : Expr} (h : e.IsReadable) : e.WellFormed := by
  induction h with
  | constant => exact wellFormed_constant _
  | symbol => exact wellFormed_symbol _
  | power _ _ ihb ihx => exact wellFormed_power.mpr ⟨ihb, ihx⟩
  | quotient _ _ ihn ihd => exact wellFormed_quotient.mpr ⟨ihn, ihd⟩
  | sum hne _ _ ihh ihr =>
      have := List.length_pos_iff.mpr hne
      exact wellFormed_sum.mpr ⟨by simp only [List.length_cons]; omega,
        List.forall_mem_cons.mpr ⟨ihh, ihr⟩⟩
  | product _ hne _ _ ihh ihr =>
      have := List.length_pos_iff.mpr hne
      exact wellFormed_product.mpr ⟨by simp only [List.length_cons]; omega,
        List.forall_mem_cons.mpr ⟨ihh, ihr⟩⟩
  | group _ ih => exact wellFormed_group.mpr ih
  | call _ _ _ ihh ihr => exact wellFormed_call.mpr (List.forall_mem_cons.mpr ⟨ihh, ihr⟩)

theorem isReadable_sum {operands : List Expr} (hlength : 2 ≤ operands.length)
    (h : ∀ e ∈ operands, e.IsReadable)
    : (sum operands).IsReadable := by
  match operands, hlength with
  | head :: next :: rest, _ =>
      exact .sum (List.cons_ne_nil _ _) (h _ (.head _)) fun e he => h e (.tail _ he)

theorem isReadable_product {operands : List Expr} (implicit : Bool)
    (hlength : 2 ≤ operands.length) (h : ∀ e ∈ operands, e.IsReadable)
    : (product operands implicit).IsReadable := by
  match operands, hlength with
  | head :: next :: rest, _ =>
      exact .product implicit (List.cons_ne_nil _ _) (h _ (.head _))
        fun e he => h e (.tail _ he)

theorem IsReadable.dropBrackets {e : Expr} (h : e.IsReadable) (level : Int)
    : (e.dropBrackets level).IsReadable := by
  unfold Expr.dropBrackets
  split
  · split
    · cases h with
      | group hi => exact hi
    · exact h
  · exact h

theorem IsReadable.summands {e : Expr} (h : e.IsReadable)
    : ∀ operand ∈ e.summands, operand.IsReadable := by
  have hd := h.dropBrackets sumLevel
  unfold Expr.summands termsOf
  split
  · next heq =>
    rw [heq] at hd
    cases hd with
    | sum _ hh hr => exact List.forall_mem_cons.mpr ⟨hh, hr⟩
  · exact List.forall_mem_singleton.mpr hd

theorem IsReadable.factors {e : Expr} (h : e.IsReadable)
    : ∀ operand ∈ e.factors, operand.IsReadable := by
  have hd := h.dropBrackets productLevel
  unfold Expr.factors factorsOf
  split
  · next heq =>
    rw [heq] at hd
    cases hd with
    | product _ _ hh hr => exact List.forall_mem_cons.mpr ⟨hh, hr⟩
  · exact List.forall_mem_singleton.mpr hd

/-- The flat tree of a readable tree is readable. -/
theorem IsReadable.flatten {e : Expr} (h : e.IsReadable) : e.flatten.IsReadable := by
  induction h with
  | constant hl => exact .constant hl
  | symbol hl => exact .symbol hl
  | power _ _ ihb ihx => exact .power (ihb.dropBrackets _) (ihx.dropBrackets _)
  | quotient _ _ ihn ihd => exact .quotient (ihn.dropBrackets _) (ihd.dropBrackets _)
  | group _ ih =>
      simp only [Expr.flatten, bracketed]
      split
      · exact ih
      · exact .group ih
  | call hname _ _ ihh ihr =>
      simp only [Expr.flatten, flattenAll_eq_map, List.map_cons]
      exact .call hname ihh (List.forall_mem_map.mpr ihr)
  | sum hne hh hr ihh ihr =>
      have hw := (IsReadable.sum hne hh hr).wellFormed.flatten
      have hflat := List.forall_mem_cons.mpr ⟨ihh, List.forall_mem_map.mpr ihr⟩
      simp only [Expr.flatten, flattenAll_eq_map, List.map_cons] at hw ⊢
      refine isReadable_sum (wellFormed_sum.mp hw).1 fun e he => ?_
      obtain ⟨operand, ho, he⟩ := List.mem_flatMap.mp he
      exact (hflat operand ho).summands e he
  | product implicit hne hh hr ihh ihr =>
      have hw := (IsReadable.product implicit hne hh hr).wellFormed.flatten
      have hflat := List.forall_mem_cons.mpr ⟨ihh, List.forall_mem_map.mpr ihr⟩
      simp only [Expr.flatten, flattenAll_eq_map, List.map_cons, spliceProduct] at hw ⊢
      refine isReadable_product _ (wellFormed_product.mp hw).1 fun e he => ?_
      obtain ⟨operand, ho, he⟩ := List.mem_flatMap.mp he
      exact (hflat operand ho).factors e he

end Expr

end TermGrouping
