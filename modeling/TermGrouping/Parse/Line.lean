import TermGrouping.Expr.Coefficient
import TermGrouping.Token

/-! Unfinished sums. Between two brackets a formula is a sum of products of powers; a line holds
what has been read of each of them while the next operand is still to come.
-/

namespace TermGrouping

def Sign.apply : Sign → Expr → Expr
  | plus, e => e
  | minus, e => e.opposite

/-- How a factor is attached to the product before it. -/
inductive Joint where
  | times
  | dividedBy
  | beside
  deriving DecidableEq

def Joint.apply : Joint → Expr → Expr → Expr
  | times, product, factor => .product [product, factor] false
  | dividedBy, product, divisor => .quotient product divisor
  | beside, product, factor => .product [product, factor] true

/-- What an exponent still has to be given to. -/
inductive Raised where
  /-- A base waits for its exponent. -/
  | base (base : Expr)
  /-- A sign waits for the rest of the exponent that it starts. -/
  | sign (value : Sign)
  deriving DecidableEq

/-- The power or the signed exponent that an exponent completes. -/
def Raised.apply : Raised → Expr → Expr
  | base b, exponent => .power b exponent
  | sign s, exponent => s.apply exponent

/-- What has been read of a sum before its next operand. -/
structure Line where
  /-- The sum of the terms so far, and the sign of the term under way. -/
  terms : Option (Expr × Sign)
  /-- The product of the factors so far, and how the factor under way is attached. -/
  factors : Option (Expr × Joint)
  /-- The signs of the factor under way, the innermost first. -/
  signs : List Sign
  /-- The bases and exponent signs of the power under way, the innermost first. -/
  raised : List Raised
  deriving DecidableEq

namespace Line

def start : Line := ⟨none, none, [], []⟩

/-- The power under way, if its last operand is the given one. -/
def power (line : Line) (operand : Expr) : Expr :=
  line.raised.foldl (fun exponent raised => raised.apply exponent) operand

def factor (line : Line) (operand : Expr) : Expr :=
  line.signs.foldl (fun e s => s.apply e) (line.power operand)

def product (line : Line) (operand : Expr) : Expr :=
  match line.factors with
  | none => line.factor operand
  | some (before, joint) => joint.apply before (line.factor operand)

def sum (line : Line) (operand : Expr) : Expr :=
  match line.terms with
  | none => line.product operand
  | some (before, sign) => .sum [before, sign.apply (line.product operand)]

/-- The line after a sign in front of an operand; in an exponent it is the exponent's. -/
def signed (line : Line) (sign : Sign) : Line :=
  match line.raised with
  | [] => { line with signs := sign :: line.signs }
  | raised => { line with raised := .sign sign :: raised }

/-- The line after a caret behind an operand. -/
def raise (line : Line) (operand : Expr) : Line :=
  { line with raised := .base operand :: line.raised }

/-- The line in which another factor is attached to the product that ends with an operand. -/
def attach (line : Line) (operand : Expr) (joint : Joint) : Line :=
  ⟨line.terms, some (line.product operand, joint), [], []⟩

/-- The line in which another term follows the sum that ends with an operand. -/
def continued (line : Line) (operand : Expr) (sign : Sign) : Line :=
  ⟨some (line.sum operand, sign), none, [], []⟩

def inExponent (line : Line) : Bool := !line.raised.isEmpty

end Line

end TermGrouping
