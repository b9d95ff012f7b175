import TermGrouping.Text.Excerpt
import TermGrouping.Text.Quoted

/-! Why a text is no formula: somewhere it cannot go on as it does, or a fraction in it has the
denominator zero.
-/

namespace TermGrouping

/-- A reason why a text cannot be read. -/
inductive ParseError where
  /-- No formula goes on as the text does at this place. At an unexpected end the place is the
  start of the last token, or the start of the text. -/
  | unreadable (position : Nat)
  /-- A fraction with this numerator has the denominator zero. -/
  | zeroDenominator (numerator : Nat)
  deriving DecidableEq

def ParseError.message (text : String) : ParseError → String
  | unreadable position =>
      "cannot parse " ++ Text.quoted text ++ "\n"
        ++ String.ofList (Text.excerpt text.toList position)
  | zeroDenominator numerator => "Fraction(" ++ toString numerator ++ ", 0)"

end TermGrouping
