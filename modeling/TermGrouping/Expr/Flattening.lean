import TermGrouping.Expr.Subtrees

/-! Flattening. Sums inside sums and products inside products become one node, and brackets go
where the content binds at least as strongly as the place it stands in asks for. Trees of any depth are
flattened, since no limit for the depth of recursion is modelled.
-/

namespace TermGrouping.Expr

/-- How strongly an operand of a sum has to bind to need no brackets. -/
def sumLevel : Int := 1

/-- How strongly a factor or a numerator has to bind to need no brackets. -/
def productLevel : Int := 2

/-- How strongly an exponent or a denominator has to bind to need no brackets. -/
def powerLevel : Int := 3

/-- How strongly the base of a power has to bind to need no brackets. -/
def atomLevel : Int := 4

/-- How strongly a node holds its parts together. A negative constant binds like a product,
because it starts with a sign. -/
def strength : Expr → Int
  | sum _ => sumLevel
  | product _ _ | quotient _ _ => productLevel
  | constant literal => if literal.value < 0 then productLevel else atomLevel
  | power _ _ => powerLevel
  | symbol _ | group _ | call _ _ | foreign _ => atomLevel

/-- A node without its brackets, if their content binds at least at the given level. -/
def dropBrackets (level : Int) : Expr → Expr
  | group inner => if level ≤ inner.strength then inner else group inner
  | e => e

/-- Brackets around a node, left out where the node cannot come apart. -/
def bracketed (inner : Expr) : Expr :=
  if inner.strength = atomLevel then inner else group inner

def termsOf : Expr → List Expr
  | sum operands => operands
  | e => [e]

def factorsOf : Expr → List Expr
  | product operands _ => operands
  | e => [e]

/-- What an operand contributes to a sum: its own operands, if it is a sum without brackets or
in brackets that can go. -/
def summands (operand : Expr) : List Expr := termsOf (operand.dropBrackets sumLevel)

/-- What a factor contributes to a product: its own factors, if it is a product without brackets
or in brackets that can go. -/
def factors (operand : Expr) : List Expr := factorsOf (operand.dropBrackets productLevel)

/-- Whether a factor lets the product it is spliced into stay implicit: it does unless it is an
explicit product or a product in brackets. -/
def staysImplicit : Expr → Bool
  | product _ implicit => implicit
  | group (product _ _) => false
  | _ => true

/-- A product of the given factors, with the factors of inner products in their places. -/
def spliceProduct (operands : List Expr) (implicit : Bool) : Expr :=
  product (operands.flatMap factors) (implicit && operands.all staysImplicit)

mutual
/-- The tree with nested sums and products spliced and redundant brackets removed. Brackets
around an argument are removed only where any place would allow it. -/
def flatten : Expr → Expr
  | power base exponent =>
      power (base.flatten.dropBrackets atomLevel) (exponent.flatten.dropBrackets powerLevel)
  | sum operands => sum ((flattenAll operands).flatMap summands)
  | product operands implicit => spliceProduct (flattenAll operands) implicit
  | group inner => inner.flatten.bracketed
  | call name arguments => call name (flattenAll arguments)
  | quotient numerator denominator =>
      quotient (numerator.flatten.dropBrackets productLevel)
        (denominator.flatten.dropBrackets powerLevel)
  | e => e

def flattenAll : List Expr → List Expr
  | [] => []
  | e :: es => e.flatten :: flattenAll es
end

theorem flattenAll_eq_map (es : List Expr) : flattenAll es = es.map flatten := by
  induction es with
  | nil => rfl
  | cons e es ih => simp [flattenAll, ih]

end TermGrouping.Expr
