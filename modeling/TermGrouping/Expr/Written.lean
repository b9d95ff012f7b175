import TermGrouping.Expr.Subtrees

/-! The written form of a tree. The kind and the place of a child decide whether it stands in
brackets; a sum inside a sum and a product inside a product always do, so that bundles show. Trees
of any depth are written, since no limit for the depth of recursion is modelled.
-/

namespace TermGrouping.Expr

def inBrackets (needed : Bool) (text : List Char) : List Char :=
  if needed then '(' :: text ++ [')'] else text

def isSum : Expr → Bool
  | sum _ => true
  | _ => false

/-- A base stands without brackets only if it is one word: a name, a call, something in
brackets, or an integer without a sign. -/
def basePlain : Expr → Bool
  | symbol _ | group _ | call _ _ => true
  | constant literal => 0 ≤ literal.value && literal.value.den == 1
  | _ => false

/-- Sums and products are bracketed as the first factor of a product. -/
def bracketedFirst : Expr → Bool
  | sum _ | product _ _ => true
  | _ => false

/-- Sums, products and quotients are bracketed as later factors, denominators and exponents. -/
def bracketedLater : Expr → Bool
  | sum _ | product _ _ | quotient _ _ => true
  | _ => false

def canFollow : Expr → Bool
  | symbol _ | power _ _ | group _ | call _ _ | sum _ | product _ _ => true
  | _ => false

/-- Whether the factors of a product are written side by side: it is implicit, and every factor
but the first can follow another. -/
def isJuxtaposed (factors : List Expr) (implicit : Bool) : Bool :=
  implicit && (factors.drop 1).all canFollow

/-- The coefficient minus one is written as a sign alone. -/
def isMinusOne : Expr → Bool
  | constant literal => literal.value == -1
  | _ => false

def joined (separator : List Char) : List (List Char) → List Char
  | [] => []
  | [text] => text
  | text :: next :: rest => text ++ separator ++ joined separator (next :: rest)

mutual
/-- The characters of the written form of a tree. A plain value has none. -/
def written : Expr → List Char
  | constant literal => literal.written
  | symbol name => name.toList
  | power base exponent =>
      inBrackets (!base.basePlain) base.written ++ '^'
        :: inBrackets exponent.bracketedLater exponent.written
  | sum operands => joined [' ', '+', ' '] (writtenAll isSum operands)
  | product [] _ => []
  | product (head :: rest) implicit =>
      if isJuxtaposed (head :: rest) implicit then
        (if head.isMinusOne then ['-'] else inBrackets head.bracketedFirst head.written)
          ++ (writtenAll bracketedLater rest).flatten
      else
        joined [' ', '*', ' ']
          (inBrackets head.bracketedFirst head.written :: writtenAll bracketedLater rest)
  | group inner => inBrackets true inner.written
  | call name arguments =>
      name.toList ++ inBrackets true (joined [',', ' '] (writtenAll (fun _ => false) arguments))
  | quotient numerator denominator =>
      inBrackets numerator.isSum numerator.written ++ [' ', '/', ' ']
        ++ inBrackets denominator.bracketedLater denominator.written
  | foreign _ => []

/-- The written forms of a list of trees, in brackets where a test asks for them. -/
def writtenAll (needed : Expr → Bool) : List Expr → List (List Char)
  | [] => []
  | e :: es => inBrackets (needed e) e.written :: writtenAll needed es
end

mutual
/-- The first obstacle to writing a tree. The factors of a juxtaposed product are visited from
the second on, and the first factor last. -/
def writingFault? : Expr → Option TreeError
  | power base exponent => base.writingFault? <|> exponent.writingFault?
  | sum operands => writingFaultAll? operands
  | product [] implicit => if implicit then some .nothingToJuxtapose else none
  | product (head :: rest) implicit =>
      if isJuxtaposed (head :: rest) implicit then
        writingFaultAll? rest <|> head.writingFault?
      else head.writingFault? <|> writingFaultAll? rest
  | group inner => inner.writingFault?
  | call _ arguments => writingFaultAll? arguments
  | quotient numerator denominator => numerator.writingFault? <|> denominator.writingFault?
  | foreign value => some (.notExpression value)
  | constant _ | symbol _ => none

def writingFaultAll? : List Expr → Option TreeError
  | [] => none
  | e :: es => e.writingFault? <|> writingFaultAll? es
end

/-- The written form of a tree, or the first obstacle to it. -/
def text (e : Expr) : Except TreeError String :=
  match e.writingFault? with
  | some fault => .error fault
  | none => .ok (String.ofList e.written)

end TermGrouping.Expr
