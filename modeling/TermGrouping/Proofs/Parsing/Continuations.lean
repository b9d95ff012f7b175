import TermGrouping.Proofs.Parsing.Grammar

/-! How texts go on. Behind its first tokens a text ends or goes on with some token, spacing aside,
and the scan of the text shows both; so what is said of words can be said of scans.
-/

namespace TermGrouping

theorem canContinue_nil : CanContinue [] := ⟨[], [], List.forall_mem_nil _, rfl, .inl rfl⟩

/-- Where some terminal matches, some token is read. -/
theorem exists_read?_of_matches {text tail : List Char} {token : Token}
    (hsplit : token.spelling ++ tail = text) (hfits : token.Fits tail)
    : ∃ found, Token.read? true text = some found := by
  obtain ⟨found, rest, hread, -⟩ :=
    Token.exists_read?_of_fits hfits fun hf : true = false => nomatch hf
  exact ⟨_, hsplit ▸ hread⟩

/-- A text goes on if it does behind spacing, or if a token can be read. -/
theorem canContinue_cons_iff {c : Char} {text : List Char}
    : CanContinue (c :: text)
      ↔ Text.isSpacing c = true ∧ CanContinue text
        ∨ ∃ found, Token.read? true (c :: text) = some found := by
  constructor
  · rintro ⟨spacing, rest, hspacing, heq, h⟩
    cases spacing with
    | nil =>
        obtain rfl : c :: text = rest := heq
        obtain ⟨token, tail, hsplit, hfits⟩ := h.resolve_left (List.cons_ne_nil c text)
        exact .inr (exists_read?_of_matches hsplit hfits)
    | cons d spacing =>
        cases heq
        obtain ⟨hc, hspacing⟩ := List.forall_mem_cons.mp hspacing
        exact .inl ⟨hc, spacing, rest, hspacing, rfl, h⟩
  · rintro (⟨hc, spacing, rest, hspacing, rfl, h⟩ | ⟨⟨token, tail⟩, h⟩)
    · exact ⟨c :: spacing, rest, List.forall_mem_cons.mpr ⟨hc, hspacing⟩, rfl, h⟩
    · exact ⟨[], _, List.forall_mem_nil _, rfl,
        .inr ⟨token, tail, Token.read?_spelling h, (Token.fits_of_read? h).1⟩⟩

theorem canContinue_spacing {c : Char} {text : List Char} (hc : Text.isSpacing c = true)
    : CanContinue (c :: text) ↔ CanContinue text := by
  rw [canContinue_cons_iff, and_iff_right hc, or_iff_left]
  rintro ⟨found, hread⟩
  cases hc.symm.trans (Token.isSpacing_of_read? hread)

/-- A text that starts with no spacing can continue exactly if a token can be read there. -/
theorem canContinue_iff_read? {c : Char} {text : List Char} (hc : Text.isSpacing c = false)
    : CanContinue (c :: text) ↔ ∃ found, Token.read? true (c :: text) = some found := by
  simp [canContinue_cons_iff, hc]

namespace Scan

/-- Whether a scan starts with the given tokens and goes on behind them, with another token or with
the end of the text. -/
def GoesOnAfter (scan : Scan) (tokens : List Token) : Prop :=
  tokens <+: scan.tokens ∧ (tokens.length < scan.tokens.length ∨ scan.stop = none)

/-- A scan goes on after no token unless its first token is unreadable. -/
theorem goesOnAfter_nil {scan : Scan}
    : scan.GoesOnAfter [] ↔ scan.tokens ≠ [] ∨ scan.stop = none := by
  simp [GoesOnAfter, List.length_pos_iff]

/-- A scan goes on after tokens if they start with its first token and the rest of it goes on after
the others. -/
theorem goesOnAfter_cons {scan : Scan} {lexeme : Lexeme} {token : Token} {tokens : List Token}
    : (scan.cons lexeme).GoesOnAfter (token :: tokens)
      ↔ token = lexeme.token ∧ scan.GoesOnAfter tokens := by
  simp [GoesOnAfter, Scan.cons, Scan.tokens, List.cons_prefix_cons, and_assoc]

/-- A scan that goes on after tokens goes on after each prefix of them. -/
theorem GoesOnAfter.of_append {scan : Scan} {left right : List Token}
    (h : scan.GoesOnAfter (left ++ right))
    : scan.GoesOnAfter left := by
  refine ⟨(List.prefix_append left right).trans h.1, h.2.imp_left fun hlt => ?_⟩
  rw [List.length_append] at hlt
  omega

theorem not_goesOnAfter_cons {stop : Option Nat} {token : Token} {tokens : List Token}
    : ¬ GoesOnAfter ⟨[], stop⟩ (token :: tokens) := by
  simp [GoesOnAfter, Scan.tokens]

/-- The scan of a text goes on if the text does, where a fraction may stand. -/
theorem goesOnAfter_nil_iff (position : Nat) (text : List Char)
    : (ofCharsAt true position text).GoesOnAfter [] ↔ CanContinue text := by
  generalize hflag : true = fractionAllowed
  fun_induction ofCharsAt fractionAllowed position text with
  | case1 => simp [goesOnAfter_nil, canContinue_nil]
  | case2 fractionAllowed position c rest hc ih =>
      exact (ih hflag).trans (canContinue_spacing hc).symm
  | case3 fractionAllowed position c rest hc hr =>
      subst hflag
      rw [canContinue_iff_read? (Bool.eq_false_iff.mpr hc)]
      simp [goesOnAfter_nil, Scan.tokens, hr]
  | case4 fractionAllowed position c rest hc token remaining hr =>
      subst hflag
      rw [canContinue_iff_read? (Bool.eq_false_iff.mpr hc)]
      simp [goesOnAfter_nil, Scan.tokens, Scan.cons, hr]

end Scan

/-- A text continues behind its spacing exactly if it does as a whole. -/
theorem exists_tokenisedUpTo_nil {before : List Token} {text : List Char}
    : (∃ rest, TokenisedUpTo before text [] rest ∧ CanContinue rest) ↔ CanContinue text := by
  refine ⟨?_, fun h => ⟨text, .nil before text, h⟩⟩
  rintro ⟨rest, h, hrest⟩
  generalize hnil : ([] : List Token) = tokens at h
  induction h with
  | nil => exact hrest
  | spacing hc _ ih => exact (canContinue_spacing hc).mpr (ih hrest hnil)
  | token => cases hnil

theorem tokenisedUpTo_spacing {before tokens : List Token} {token : Token} {c : Char}
    {text rest : List Char} (hc : Text.isSpacing c = true)
    : TokenisedUpTo before (c :: text) (token :: tokens) rest
      ↔ TokenisedUpTo before text (token :: tokens) rest := by
  refine ⟨fun h => ?_, .spacing hc⟩
  cases h with
  | spacing _ h => exact h
  | token hnext => cases hc.symm.trans hnext.isSpacing_eq_false

/-- Only the token that is read can come first, by the agreement of reading with the lexicon. -/
theorem tokenisedUpTo_of_read? {before tokens : List Token} {token found : Token} {c : Char}
    {text remaining rest : List Char} (hc : Text.isSpacing c = false)
    (hr : Token.read? (Token.fractionBehind before) (c :: text) = some (found, remaining))
    : TokenisedUpTo before (c :: text) (token :: tokens) rest
      ↔ token = found ∧ TokenisedUpTo (found :: before) remaining tokens rest := by
  constructor
  · intro h
    cases h with
    | spacing hspacing => cases hc.symm.trans hspacing
    | token hnext h =>
        cases hr.symm.trans (Token.read?_iff_isNext.mpr hnext)
        exact ⟨rfl, h⟩
  · rintro ⟨rfl, h⟩
    exact .token (Token.read?_iff_isNext.mp hr) h

/-- A text starts with tokens and goes on behind them exactly if its scan does, where a fraction may
stand behind them. -/
theorem Scan.goesOnAfter_iff (before : List Token) {tokens : List Token} {text : List Char}
    (position : Nat)
    (hf : Token.fractionBehind (tokens.reverse ++ before) = true)
    : (ofCharsAt (Token.fractionBehind before) position text).GoesOnAfter tokens
      ↔ ∃ rest, TokenisedUpTo before text tokens rest ∧ CanContinue rest := by
  induction tokens generalizing before text position with
  | nil =>
      rw [exists_tokenisedUpTo_nil, show Token.fractionBehind before = true from hf]
      exact goesOnAfter_nil_iff position text
  | cons first tokens ih =>
      rw [List.reverse_cons, List.append_assoc] at hf
      generalize hflag : Token.fractionBehind before = fractionAllowed
      -- The text loses its spacing first, and then a token; the tokens behind it are the next case.
      fun_induction ofCharsAt fractionAllowed position text with
      | case1 =>
          refine iff_of_false not_goesOnAfter_cons ?_
          rintro ⟨rest, h, -⟩
          cases h with
          | token hnext => cases Token.read?_iff_isNext.mpr hnext
      | case2 fractionAllowed position c text hc ihtext =>
          simp only [tokenisedUpTo_spacing hc, ihtext hflag]
      | case3 fractionAllowed position c text hc hr =>
          refine iff_of_false not_goesOnAfter_cons ?_
          rintro ⟨rest, h, -⟩
          cases h with
          | spacing hspacing => exact hc hspacing
          | token hnext =>
              rw [← hflag, Token.read?_iff_isNext.mpr hnext] at hr
              cases hr
      | case4 fractionAllowed position c text hc token remaining hr =>
          subst hflag
          simp only [goesOnAfter_cons, tokenisedUpTo_of_read? (Bool.eq_false_iff.mpr hc) hr,
            and_assoc, exists_and_left]
          refine and_congr_right fun hfirst => ?_
          subst hfirst
          exact ih (first :: before) (position + first.spelling.length) hf

end TermGrouping
