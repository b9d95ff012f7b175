import TermGrouping.Token

/-! The words of formulas. Each terminal of the grammar has its own matches; where several
terminals match, the one of the highest priority is taken, and its longest match. The tokens
before decide only whether a fraction may stand there.
-/

namespace TermGrouping

namespace Token

/-- Whether a token matches its terminal in front of the rest of a text. Only the name of a
function looks at the rest, for a bracket behind blanks. -/
def Fits (rest : List Char) : Token → Prop
  | numeral (.decimal whole places) => whole ≠ [] ∧ ∀ c ∈ whole ++ places, Text.isDigit c = true
  | numeral (.fraction numerator denominator) =>
      numerator ≠ [] ∧ denominator ≠ [] ∧ ∀ c ∈ numerator ++ denominator, Text.isDigit c = true
  | symbol letter => Text.isLetter letter = true
  | callee name =>
      2 ≤ name.length ∧ (∀ c ∈ name, Text.isLetter c = true)
      ∧ ∃ blanks tail, (∀ c ∈ blanks, Text.isBlank c = true) ∧ rest = blanks ++ '(' :: tail
  | sign _ | times | slash | caret | opening | closing | comma => True

def priority : Token → Nat
  | numeral (.fraction _ _) => 3
  | callee _ => 2
  | _ => 1

/-- Whether another token at the same place is preferred: one of a higher priority, or a longer
one of the same. -/
def YieldsTo (token other : Token) : Prop :=
  token.priority < other.priority
  ∨ token.priority = other.priority ∧ token.spelling.length < other.spelling.length

/-- Whether tokens, the last of them first, end with a caret or with signs behind one. -/
def EndInCaret (before : List Token) : Prop :=
  ∃ (signs : List Sign) (rest : List Token), before = signs.map sign ++ caret :: rest

/-- A token that a text can be split into with a rest, behind the given tokens. -/
structure IsCandidate (before : List Token) (text : List Char) (token : Token)
    (rest : List Char) : Prop where
  split : token.spelling ++ rest = text
  fits : token.Fits rest
  allowed : EndInCaret before → ∀ digits, token = numeral digits → digits.isFraction = false

/-- The token that a text starts with, behind the given tokens, and the rest. -/
structure IsNext (before : List Token) (text : List Char) (token : Token) (rest : List Char) : Prop
    extends IsCandidate before text token rest where
  preferred : ∀ other tail, IsCandidate before text other tail → ¬ token.YieldsTo other

end Token

/-- The tokens of a text, behind the given tokens; spacing is left out. -/
inductive Tokenised : List Token → List Char → List Token → Prop where
  | nil (before : List Token) : Tokenised before [] []
  | spacing {before c rest tokens}
    : Text.isSpacing c = true → Tokenised before rest tokens
      → Tokenised before (c :: rest) tokens
  | token {before text token rest tokens}
    : Token.IsNext before text token rest → Tokenised (token :: before) rest tokens
      → Tokenised before text (token :: tokens)

/-- The first tokens of a text, behind the given tokens, and the rest of the text. -/
inductive TokenisedUpTo : List Token → List Char → List Token → List Char → Prop where
  | nil (before : List Token) (rest : List Char) : TokenisedUpTo before rest [] rest
  | spacing {before c text tokens rest}
    : Text.isSpacing c = true → TokenisedUpTo before text tokens rest
      → TokenisedUpTo before (c :: text) tokens rest
  | token {before text token remaining tokens rest}
    : Token.IsNext before text token remaining
      → TokenisedUpTo (token :: before) remaining tokens rest
      → TokenisedUpTo before text (token :: tokens) rest

/-- Whether a text ends or some terminal matches it, behind spacing. -/
def CanContinue (text : List Char) : Prop :=
  ∃ spacing rest,
    (∀ c ∈ spacing, Text.isSpacing c = true)
    ∧ text = spacing ++ rest
    ∧ (rest = []
      ∨ ∃ (token : Token) (tail : List Char), token.spelling ++ tail = rest ∧ token.Fits tail)

end TermGrouping
