import TermGrouping.Token

/-! The tokens of a text with their places. Spacing separates tokens and is left out; whether a
slash between digits is part of a numeral depends on the tokens before it, because an exponent
never is a fraction.
-/

namespace TermGrouping

/-- A token and the place in the text where it starts. -/
structure Lexeme where
  start : Nat
  token : Token
  deriving DecidableEq

/-- What was read of a text: tokens, and the place where no token could be read, if any. -/
structure Scan where
  lexemes : List Lexeme
  stop : Option Nat
  deriving DecidableEq

/-- Whether a fraction may follow a token. It may not follow a caret, nor the signs after one. -/
def Token.fractionAfter (fractionAllowed : Bool) : Token → Bool
  | caret => false
  | sign _ => fractionAllowed
  | _ => true

namespace Scan

def cons (lexeme : Lexeme) (scan : Scan) : Scan := ⟨lexeme :: scan.lexemes, scan.stop⟩

/-- The tokens of a text that starts at the given place. -/
def ofCharsAt (fractionAllowed : Bool) (position : Nat) (text : List Char) : Scan :=
  match text with
  | [] => ⟨[], none⟩
  | c :: rest =>
      if Text.isSpacing c then ofCharsAt fractionAllowed (position + 1) rest
      else
        match _h : Token.read? fractionAllowed (c :: rest) with
        | none => ⟨[], some position⟩
        | some (token, remaining) =>
            cons ⟨position, token⟩
              (ofCharsAt (token.fractionAfter fractionAllowed)
                (position + token.spelling.length) remaining)
termination_by text.length
decreasing_by
  · exact Nat.lt_succ_self _
  · exact Token.length_lt_of_read? _h

def ofText (text : List Char) : Scan := ofCharsAt true 0 text

def tokens (scan : Scan) : List Token := scan.lexemes.map Lexeme.token

def isComplete (scan : Scan) : Bool := scan.stop.isNone

theorem ofCharsAt_nil (fractionAllowed : Bool) (position : Nat)
    : ofCharsAt fractionAllowed position [] = ⟨[], none⟩ := by
  rw [ofCharsAt]

/-- Spacing is passed over. -/
theorem ofCharsAt_spacing (fractionAllowed : Bool) (position : Nat) {c : Char}
    (rest : List Char) (hc : Text.isSpacing c = true)
    : ofCharsAt fractionAllowed position (c :: rest)
      = ofCharsAt fractionAllowed (position + 1) rest := by
  rw [ofCharsAt, if_pos hc]

/-- A token is read, and reading goes on behind it. -/
theorem ofCharsAt_token (fractionAllowed : Bool) (position : Nat) {c : Char}
    {rest remaining : List Char} {token : Token} (hc : Text.isSpacing c = false)
    (hr : Token.read? fractionAllowed (c :: rest) = some (token, remaining))
    : ofCharsAt fractionAllowed position (c :: rest)
      = cons ⟨position, token⟩
          (ofCharsAt (token.fractionAfter fractionAllowed)
            (position + token.spelling.length) remaining) := by
  rw [ofCharsAt, if_neg (by simp [hc])]
  split
  · next h => rw [hr] at h; cases h
  · next h =>
    rw [hr] at h
    obtain ⟨rfl, rfl⟩ := Prod.mk.inj (Option.some.inj h)
    rfl

end Scan

end TermGrouping
