import TermGrouping.Parse.Line

/-! The grammar of formulas, as derivations of trees from lists of tokens. Products bind closer
than sums, signs closer than products, and powers closest; a fraction is no exponent.
-/

namespace TermGrouping

/-- The parts of a formula, from the loosest to the tightest. -/
inductive Category where
  | sum
  | product
  | unary
  | power
  | exponent
  | atom
  | operand
  deriving DecidableEq

mutual
/-- The tokens of a part of a formula, and the tree that they write. -/
inductive Derives : Category → List Token → Expr → Prop where
  | term {tokens e} : Derives .product tokens e → Derives .sum tokens e
  | terms {left right a b} (sign : Sign)
    : Derives .sum left a → Derives .product right b
      → Derives .sum (left ++ .sign sign :: right) (.sum [a, sign.apply b])
  | factor {tokens e} : Derives .unary tokens e → Derives .product tokens e
  | times {left right a b}
    : Derives .product left a → Derives .unary right b
      → Derives .product (left ++ .times :: right) (.product [a, b] false)
  | dividedBy {left right a b}
    : Derives .product left a → Derives .unary right b
      → Derives .product (left ++ .slash :: right) (.quotient a b)
  | beside {left right a b}
    : Derives .product left a → Derives .power right b
      → Derives .product (left ++ right) (.product [a, b] true)
  | unsigned {tokens e} : Derives .power tokens e → Derives .unary tokens e
  | signed {tokens e} (sign : Sign)
    : Derives .unary tokens e → Derives .unary (.sign sign :: tokens) (sign.apply e)
  | base {tokens e} : Derives .atom tokens e → Derives .power tokens e
  | raised {left right a b}
    : Derives .atom left a → Derives .exponent right b
      → Derives .power (left ++ .caret :: right) (.power a b)
  | exponentBase {tokens e} : Derives .operand tokens e → Derives .exponent tokens e
  | exponentRaised {left right a b}
    : Derives .operand left a → Derives .exponent right b
      → Derives .exponent (left ++ .caret :: right) (.power a b)
  | exponentSigned {tokens e} (sign : Sign)
    : Derives .exponent tokens e → Derives .exponent (.sign sign :: tokens) (sign.apply e)
  | fraction (numerator denominator : List Char)
    : Derives .atom [.numeral (.fraction numerator denominator)]
        (.constant (.ofNumeral (.fraction numerator denominator)))
  | atomOperand {tokens e} : Derives .operand tokens e → Derives .atom tokens e
  | decimal (whole places : List Char)
    : Derives .operand [.numeral (.decimal whole places)]
        (.constant (.ofNumeral (.decimal whole places)))
  | symbol (letter : Char)
    : Derives .operand [.symbol letter] (.symbol (String.singleton letter))
  | call {tokens arguments} (name : List Char)
    : DerivesArguments tokens arguments
      → Derives .operand (.callee name :: .opening :: tokens ++ [.closing])
          (.call (String.ofList name) arguments)
  | group {tokens e}
    : Derives .sum tokens e → Derives .operand (.opening :: tokens ++ [.closing]) (.group e)

/-- The tokens between the brackets of a call, and the arguments that they write. -/
inductive DerivesArguments : List Token → List Expr → Prop where
  | one {tokens e} : Derives .sum tokens e → DerivesArguments tokens [e]
  | more {left right es e}
    : DerivesArguments left es → Derives .sum right e
      → DerivesArguments (left ++ .comma :: right) (es ++ [e])
end

/-- Whether tokens are the beginning of a formula, or all of it. -/
def BeginsFormula (tokens : List Token) : Prop := ∃ rest e, Derives .sum (tokens ++ rest) e

def Token.isUndefined : Token → Bool
  | numeral digits => digits.denominator == 0
  | _ => false

/-- A token that is a fraction with the denominator zero, and its numerator. -/
inductive Token.IsZeroDivision : Token → Nat → Prop where
  | intro {numerator denominator : List Char} (zero : Text.naturalOf denominator = 0)
    : IsZeroDivision (.numeral (.fraction numerator denominator)) (Text.naturalOf numerator)

end TermGrouping
