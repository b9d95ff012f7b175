import TermGrouping.Lexeme

/-! Texts that consist of tokens. The tokens of such a text stand in their order with spacing
between them, and the places where they start play no part.
-/

namespace TermGrouping

/-- The tokens of a text, if it can be read to its end. The flag says whether a fraction may
stand at its front. -/
inductive Lexes : Bool → List Char → List Token → Prop where
  | nil (fractionAllowed : Bool) : Lexes fractionAllowed [] []
  | spacing {fractionAllowed c rest tokens}
    : Text.isSpacing c = true → Lexes fractionAllowed rest tokens
      → Lexes fractionAllowed (c :: rest) tokens
  | token {fractionAllowed c rest token remaining tokens}
    : Text.isSpacing c = false
      → Token.read? fractionAllowed (c :: rest) = some (token, remaining)
      → Lexes (token.fractionAfter fractionAllowed) remaining tokens
      → Lexes fractionAllowed (c :: rest) (token :: tokens)

namespace Scan

/-- A text consists of tokens exactly if its scan is complete and has these tokens. -/
theorem lexes_iff (position : Nat) {fractionAllowed : Bool} {text : List Char}
    {tokens : List Token}
    : Lexes fractionAllowed text tokens
      ↔ (ofCharsAt fractionAllowed position text).tokens = tokens
        ∧ (ofCharsAt fractionAllowed position text).stop = none := by
  constructor
  · intro h
    induction h generalizing position with
    | nil => simp [ofCharsAt_nil, Scan.tokens]
    | spacing hc _ ih =>
        rw [ofCharsAt_spacing _ _ _ hc]
        exact ih (position + 1)
    | @token _ _ _ token _ _ hc hr _ ih =>
        obtain ⟨htokens, hstop⟩ := ih (position + token.spelling.length)
        rw [ofCharsAt_token _ _ hc hr]
        exact ⟨congrArg _ htokens, hstop⟩
  · rintro ⟨rfl, hstop⟩
    fun_induction ofCharsAt fractionAllowed position text with
    | case1 fractionAllowed => exact .nil fractionAllowed
    | case2 fractionAllowed position c rest hc ih => exact .spacing hc (ih hstop)
    | case3 => cases hstop
    | case4 fractionAllowed position c rest hc token remaining hr ih =>
        exact .token (Bool.eq_false_iff.mpr hc) hr (ih hstop)

end Scan

/-- A text consists of tokens in one way only. -/
theorem Lexes.unique {fractionAllowed : Bool} {text : List Char} {tokens others : List Token}
    (h : Lexes fractionAllowed text tokens) (h' : Lexes fractionAllowed text others)
    : tokens = others := by
  have ht := (Scan.lexes_iff 0).mp h
  have ho := (Scan.lexes_iff 0).mp h'
  rw [← ht.1, ho.1]

end TermGrouping
