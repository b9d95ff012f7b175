import TermGrouping.Proofs.Parsing.Lexicon

/-! What a token can tell of the text behind it. Behind a token a text may be exchanged for another
one, if no token reaches into that one and if a bracket follows in both of them or in neither.
-/

namespace TermGrouping

/-- Whether a character can stand behind the first one of a token. -/
def Text.continuesToken (c : Char) : Bool :=
  Text.isDigit c || Text.isLetter c || c == '.' || c == '/'

theorem Text.continuesToken_of_isSpacing {c : Char} (h : Text.isSpacing c = true)
    : Text.continuesToken c = false := by
  have hdigit := Text.isDigit_of_isSpacing h
  have hletter := Text.isLetter_of_isBlank (Text.isBlank_of_isSpacing h)
  have hpoint : c ≠ '.' := Text.ne_of_class h rfl
  have hslash : c ≠ '/' := Text.ne_of_class h rfl
  simp [Text.continuesToken, hdigit, hletter, hpoint, hslash]

/-- A text that may stand in the place of another one behind a token. -/
structure Text.CanReplace (other rest : List Char) : Prop where
  apart : other.head?.any Text.continuesToken = false
  bracket : Token.bracketFollows other = Token.bracketFollows rest

namespace Token

theorem bracketFollows_cons_of_isBlank {c : Char} (h : Text.isBlank c = true) (text : List Char)
    : bracketFollows (c :: text) = bracketFollows text := by
  simp [bracketFollows, h]

theorem bracketFollows_cons {c : Char} (h : Text.isBlank c = false) (text : List Char)
    : bracketFollows (c :: text) = (c == '(') := by
  simp [bracketFollows, h]

/-- What stands in front of two texts does not matter if a bracket follows in both or in neither. -/
theorem bracketFollows_append (front : List Char) {other rest : List Char}
    (h : bracketFollows other = bracketFollows rest)
    : bracketFollows (front ++ other) = bracketFollows (front ++ rest) := by
  induction front with
  | nil => exact h
  | cons c front ih =>
      cases hc : Text.isBlank c with
      | true => simpa only [List.cons_append, bracketFollows_cons_of_isBlank hc] using ih
      | false => simp only [List.cons_append, bracketFollows_cons hc]

/-- Spacing in front of a text does not hide a bracket that follows. -/
theorem bracketFollows_spacing {spacing : List Char} (h : ∀ c ∈ spacing, Text.isSpacing c = true)
    (text : List Char)
    : bracketFollows (spacing ++ text) = bracketFollows text := by
  induction spacing with
  | nil => rfl
  | cons c spacing ih =>
      obtain ⟨hc, hspacing⟩ := List.forall_mem_cons.mp h
      exact (bracketFollows_cons_of_isBlank (Text.isBlank_of_isSpacing hc) _).trans (ih hspacing)

/-- The name of a function fits in front of a text exactly if it is one and a bracket follows. -/
theorem fits_callee_iff {name rest : List Char}
    : (callee name).Fits rest
      ↔ 2 ≤ name.length ∧ (∀ c ∈ name, Text.isLetter c = true) ∧ bracketFollows rest = true := by
  refine and_congr_right fun _ => and_congr_right fun _ => ⟨?_, eq_of_bracketFollows⟩
  rintro ⟨blanks, tail, hblanks, rfl⟩
  rw [bracketFollows, (span_run hblanks rfl).2]
  rfl

namespace Fits

variable {token : Token} {rest : List Char}

/-- A token matches its terminal in front of another text, too, if no bracket comes or goes. -/
theorem replaced (h : token.Fits rest) {other : List Char}
    (hbracket : bracketFollows other = bracketFollows rest)
    : token.Fits other := by
  cases token with
  | callee name => rwa [fits_callee_iff, hbracket, ← fits_callee_iff]
  | numeral digits => cases digits <;> exact h
  | symbol | sign | times | slash | caret | opening | closing | comma => exact h

/-- A token starts with a character that is not blank. -/
theorem spelling_eq_cons (h : token.Fits rest)
    : ∃ c tail, token.spelling = c :: tail ∧ Text.isBlank c = false := by
  cases token with
  | numeral digits =>
      have hhead := head?_spelling h []
      rw [List.append_nil] at hhead
      cases hs : digits.spelling with
      | nil => simp [hs] at hhead
      | cons c tail =>
          have hc : Text.isDigit c = true := by simpa [hs] using hhead
          exact ⟨c, tail, hs, (Text.range_of_isDigit hc).2.2⟩
  | symbol letter => exact ⟨letter, [], rfl, Text.isBlank_of_isLetter h⟩
  | callee name =>
      obtain ⟨hlength, hletters, -⟩ := h
      obtain ⟨c, tail, rfl⟩ :=
        List.exists_cons_of_length_pos (Nat.lt_of_lt_of_le Nat.zero_lt_two hlength)
      exact ⟨c, tail, rfl, Text.isBlank_of_isLetter (hletters c List.mem_cons_self)⟩
  | sign value => cases value <;> exact ⟨_, _, rfl, rfl⟩
  | times | slash | caret | opening | closing | comma => exact ⟨_, _, rfl, rfl⟩

/-- Behind its first character a token goes on with digits, letters, points and slashes only. -/
theorem continuesToken (h : token.Fits rest)
    : ∀ c ∈ token.spelling.tail, Text.continuesToken c = true := by
  have hdigit {c : Char} (hc : Text.isDigit c = true) : Text.continuesToken c = true := by
    simp [Text.continuesToken, hc]
  cases token with
  | numeral digits =>
      intro c hc
      have hc : c ∈ digits.spelling := List.mem_of_mem_tail hc
      cases digits with
      | decimal whole places =>
          have hdigits := h.2
          cases places with
          | nil => exact hdigit (hdigits c (by simpa [Numeral.spelling] using hc))
          | cons d places =>
              simp only [Numeral.spelling, List.mem_append, List.mem_cons] at hc
              rcases hc with hc | rfl | hc
              · exact hdigit (hdigits c (by simp [hc]))
              · rfl
              · exact hdigit (hdigits c (by simp [hc]))
      | fraction numerator denominator =>
          simp only [Numeral.spelling, List.mem_append, List.mem_cons] at hc
          rcases hc with hc | rfl | hc
          · exact hdigit (h.2.2 c (List.mem_append_left _ hc))
          · rfl
          · exact hdigit (h.2.2 c (List.mem_append_right _ hc))
  | callee name =>
      intro c hc
      simp [Text.continuesToken, h.2.1 c (List.mem_of_mem_tail hc)]
  | sign value => cases value <;> simp [spelling]
  | symbol | times | slash | caret | opening | closing | comma => simp [spelling]

end Fits

variable {before : List Token} {front other rest : List Char} {token : Token}

/-- A token at the front of a text ends before a part that no token reaches into; so it is a
candidate, too, where something else stands in the place of that part. -/
theorem IsCandidate.replaced {tail : List Char} (hr : Text.CanReplace other rest)
    (hfront : front ≠ []) (h : IsCandidate before (front ++ other) token tail)
    : ∃ middle, IsCandidate before (front ++ rest) token (middle ++ rest) := by
  rcases List.append_eq_append_iff.mp h.split with ⟨middle, hmiddle, rfl⟩ | ⟨reach, hreach, rfl⟩
  · refine ⟨middle, ?_, h.fits.replaced (bracketFollows_append middle hr.bracket.symm), h.allowed⟩
    rw [hmiddle, List.append_assoc]
  · obtain ⟨first, front, rfl⟩ := List.exists_cons_of_ne_nil hfront
    cases reach with
    | nil =>
        refine ⟨[], ?_, h.fits.replaced hr.bracket.symm, h.allowed⟩
        rw [hreach, List.append_nil, List.nil_append]
    | cons c reach =>
        -- The token would go on with a character that no token goes on with.
        have hc := h.fits.continuesToken c (by simp [hreach])
        have hapart := hr.apart
        simp [hc] at hapart

/-- The next token of a text stays the next one if the text is replaced somewhere behind it. -/
theorem IsNext.replaced (hr : Text.CanReplace other rest)
    (h : IsNext before (token.spelling ++ (front ++ rest)) token (front ++ rest))
    : IsNext before (token.spelling ++ (front ++ other)) token (front ++ other) where
  split := rfl
  fits := h.fits.replaced (bracketFollows_append front hr.bracket)
  allowed := h.allowed
  preferred := by
    intro found tail hfound
    obtain ⟨c, letters, hs, -⟩ := h.fits.spelling_eq_cons
    have hne : token.spelling ++ front ≠ [] := by simp [hs]
    rw [← List.append_assoc] at hfound
    obtain ⟨middle, hcandidate⟩ := hfound.replaced hr hne
    rw [List.append_assoc] at hcandidate
    exact h.preferred found _ hcandidate

end Token

namespace TokenisedUpTo

variable {before tokens : List Token} {text rest : List Char}

/-- The first tokens of a text are read again if something else stands behind them. -/
theorem replaced {other : List Char} (hr : Text.CanReplace other rest)
    (h : TokenisedUpTo before text tokens rest)
    : ∃ front, text = front ++ rest ∧ TokenisedUpTo before (front ++ other) tokens other := by
  induction h with
  | nil before rest => exact ⟨[], rfl, .nil before other⟩
  | @spacing _ c _ _ _ hc _ ih =>
      obtain ⟨front, rfl, hread⟩ := ih hr
      exact ⟨c :: front, rfl, .spacing hc hread⟩
  | @token _ _ token _ _ _ hnext _ ih =>
      obtain ⟨front, rfl, hread⟩ := ih hr
      obtain rfl := hnext.split
      refine ⟨token.spelling ++ front, (List.append_assoc ..).symm, ?_⟩
      rw [List.append_assoc]
      exact .token (hnext.replaced hr) hread

/-- The tokens up to a place and those behind it are the tokens of the whole text, by induction over
the first ones. -/
theorem append {others : List Token} (h : TokenisedUpTo before text tokens rest)
    (ho : Tokenised (tokens.reverse ++ before) rest others)
    : Tokenised before text (tokens ++ others) := by
  induction h with
  | nil => exact ho
  | spacing hc _ ih => exact .spacing hc (ih ho)
  | token hnext _ ih =>
      rw [List.reverse_cons, List.append_assoc] at ho
      exact .token hnext (ih ho)

end TokenisedUpTo

end TermGrouping
