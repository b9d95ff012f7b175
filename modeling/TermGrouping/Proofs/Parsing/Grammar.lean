import Mathlib
import TermGrouping.Proofs.Parsing.Formula
import TermGrouping.Proofs.Parsing.Lexicon

/-! Formulas by the rules alone. A text has the tokens that the terminals of the grammar give it one
after the other, and it is read as the tree that the grammar derives from them; neither the reader
of tokens nor the states of the parser occur in that.
-/

namespace TermGrouping

namespace Token

def fractionBehind : List Token → Bool
  | [] => true
  | token :: before => token.fractionAfter (fractionBehind before)

/-- A fraction may stand everywhere but behind a caret, signs aside. -/
theorem fractionBehind_eq_false {before : List Token}
    : fractionBehind before = false ↔ EndInCaret before := by
  induction before with
  | nil =>
      refine ⟨(nomatch ·), ?_⟩
      rintro ⟨signs, rest, h⟩
      cases signs <;> cases h
  | cons token before ih =>
      cases token with
      | caret => exact ⟨fun _ => ⟨[], before, rfl⟩, fun _ => rfl⟩
      | sign value =>
          refine ih.trans ⟨?_, ?_⟩
          · rintro ⟨signs, rest, rfl⟩
            exact ⟨value :: signs, rest, rfl⟩
          · rintro ⟨signs, rest, h⟩
            cases signs with
            | nil => cases h
            | cons value signs => exact ⟨signs, rest, (List.cons.inj h).2⟩
      | _ =>
          refine ⟨(nomatch ·), ?_⟩
          rintro ⟨signs, rest, h⟩
          cases signs <;> cases h

/-- What is read of a text behind other tokens is the token that the rules give it. -/
theorem read?_iff_isNext {before : List Token} {text rest : List Char} {token : Token}
    : read? (fractionBehind before) text = some (token, rest) ↔ IsNext before text token rest := by
  have hcandidate {found : Token} {tail : List Char}
      (h : read? (fractionBehind before) text = some (found, tail))
      : IsCandidate before text found tail :=
    ⟨read?_spelling h, (fits_of_read? h).1,
      fun hcaret => (fits_of_read? h).2 (fractionBehind_eq_false.mpr hcaret)⟩
  have hread {other : Token} {tail : List Char} (h : IsCandidate before text other tail) :=
    exists_read?_of_fits h.fits fun hf => h.allowed (fractionBehind_eq_false.mp hf)
  constructor
  · intro h
    refine ⟨hcandidate h, fun other tail ho hyields => ?_⟩
    obtain ⟨found, _, hfound, hle⟩ := hread ho
    rw [ho.split, h] at hfound
    cases hfound
    -- The other candidate is what is read, or gives way to it; so it is not preferred.
    rcases hle with rfl | hle
    · exact hyields.asymm hyields
    · exact hle.asymm hyields
  · intro h
    obtain ⟨found, tail, hfound, hle⟩ := hread h.toIsCandidate
    rw [h.split] at hfound
    rcases hle with rfl | hle
    · rw [hfound]
      have hrest := (read?_spelling hfound).trans h.split.symm
      rw [List.append_cancel_left hrest]
    · exact absurd hle (h.preferred found tail (hcandidate hfound))

/-- No token starts with spacing, by cases on how its first character is read. -/
theorem isSpacing_of_read? {fractionAllowed : Bool} {c : Char} {text : List Char}
    {found : Token × List Char} (h : read? fractionAllowed (c :: text) = some found)
    : Text.isSpacing c = false := by
  simp only [read?] at h
  split at h
  · exact Text.isSpacing_of_isDigit ‹_›
  · split at h
    · exact Text.isSpacing_of_isLetter ‹_›
    · obtain ⟨_, hfound, _⟩ := Option.map_eq_some_iff.mp h
      unfold punctuation? at hfound
      split at hfound <;> first | rfl | cases hfound

theorem IsNext.isSpacing_eq_false {before : List Token} {c : Char} {text rest : List Char}
    {token : Token} (h : IsNext before (c :: text) token rest)
    : Text.isSpacing c = false :=
  isSpacing_of_read? (read?_iff_isNext.mpr h)

end Token

/-- A text is read as the tokens that the rules for words give it. -/
theorem lexes_iff_tokenised {before : List Token} {text : List Char} {tokens : List Token}
    : Lexes (Token.fractionBehind before) text tokens ↔ Tokenised before text tokens := by
  constructor
  · generalize hf : Token.fractionBehind before = fractionAllowed
    intro h
    induction h generalizing before with
    | nil => exact .nil before
    | spacing hc _ ih => exact .spacing hc (ih hf)
    | token _ hread _ ih =>
        subst hf
        exact .token (Token.read?_iff_isNext.mp hread) (ih rfl)
  · intro h
    induction h with
    | nil before => exact .nil _
    | spacing hc _ ih => exact .spacing hc ih
    | @token before text token rest _ hnext _ ih =>
        have hread := Token.read?_iff_isNext.mpr hnext
        cases text with
        | nil => cases hread
        | cons c text => exact .token hnext.isSpacing_eq_false hread ih

/-- Exactly those texts are read as a tree whose words, with no denominator zero among them, write
the tree by the grammar; and tokens write at most one tree. -/
theorem parse_eq_ok_iff_grammar
    : (∀ text e,
        parse text = .ok e
        ↔ ∃ tokens,
            Tokenised [] text.toList tokens ∧ AllDefined tokens ∧ Derives .sum tokens e)
      ∧ ∀ tokens a b, Derives .sum tokens a → Derives .sum tokens b → a = b := by
  refine ⟨fun text e => ?_, fun tokens a b ha hb => ha.unique hb⟩
  rw [parse_eq_ok_iff]
  refine exists_congr fun tokens => ?_
  rw [← lexes_iff_tokenised]
  exact and_congr_right fun _ => and_comm

/-- A slash between digits divides behind an exponent and makes a fraction elsewhere, and letters
are the name of a function or factors; the grammar derives one tree from the tokens. -/
theorem parse_eq_ok_iff_grammar_slashes
    : let e := Expr.sum [
        .quotient (.power (.constant ⟨2, false, some "2"⟩) (.constant ⟨-3, false, some "-3"⟩))
          (.constant ⟨4, false, some "4"⟩),
        .product [.product [.symbol "a", .symbol "b"] true,
          .call "sin" [.symbol "x", .constant ⟨1 / 2, true, some "1/2"⟩]] true]
      ∃ tokens, Tokenised [] "2^-3/4 + ab sin (x, 1/2)".toList tokens ∧ AllDefined tokens
        ∧ Derives .sum tokens e ∧ ∀ other, Derives .sum tokens other → other = e := by
  intro e
  have h : parse "2^-3/4 + ab sin (x, 1/2)" = .ok e := by
    unfold e
    cbv
  obtain ⟨tokens, hwords, hdefined, hd⟩ := (parse_eq_ok_iff_grammar.1 _ _).mp h
  exact ⟨tokens, hwords, hdefined, hd, fun other ho => parse_eq_ok_iff_grammar.2 _ _ _ ho hd⟩

end TermGrouping
