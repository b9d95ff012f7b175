import TermGrouping.Expr.Subtrees
import TermGrouping.Interpretation
import TermGrouping.Lexeme

/-! Spacing around slashes. Without it a slash between digits can become part of a numeral; the
numeral means what the division means, unless it stands where it is divided by or raised as a whole.
-/

namespace TermGrouping

/-- Texts of which the second one lacks spacing beside slashes that the first one may have. -/
inductive Tightened : List Char → List Char → Prop where
  | refl (text : List Char) : Tightened text text
  | before (front spacing back : List Char)
    : (∀ c ∈ spacing, Text.isSpacing c = true)
      → Tightened (front ++ spacing ++ '/' :: back) (front ++ '/' :: back)
  | behind (front spacing back : List Char)
    : (∀ c ∈ spacing, Text.isSpacing c = true)
      → Tightened (front ++ '/' :: (spacing ++ back)) (front ++ '/' :: back)
  | trans {text middle tight}
    : Tightened text middle → Tightened middle tight → Tightened text tight

namespace Token

/-- The tokens that a token is made of: a fraction is two integers and a slash. -/
def parts : Token → List Token
  | numeral (.fraction numerator denominator) =>
      [numeral (.decimal numerator []), slash, numeral (.decimal denominator [])]
  | token => [token]

/-- Whether what follows a token belongs to it as a whole: a divisor, or an exponent. Signs stand
between the two without changing that. -/
def tiesNext (tied : Bool) : Token → Bool
  | slash | caret => true
  | sign _ => tied
  | _ => false

/-- The tokens of a list with the fractions taken to pieces that may be taken to pieces. A fraction
is tied behind a slash, where it is the divisor, and in front of a caret, where it is the base. -/
def loosened (tied : Bool) : List Token → List Token
  | [] => []
  | token :: rest =>
      (if tied || rest.head? == some caret then [token] else token.parts)
        ++ loosened (token.tiesNext tied) rest

end Token

/-- Whether an interpretation reads quotients as divisions, where these are defined. -/
def Interpretation.Divides (I : Interpretation) : Prop := ∀ a b, b ≠ 0 → I.quotient a b = a / b

/-- Whether no denominator in a tree means zero. -/
def Expr.HasNonzeroDenominators (I : Interpretation) (e : Expr) : Prop :=
  ∀ node ∈ e.subtrees, ∀ numerator denominator,
    node = quotient numerator denominator → denominator.meaning I ≠ 0

end TermGrouping
