/-! The two operators whose operands can be gathered. Either takes any number of operands, and a
tree is well formed only if each of them has at least two.
-/

namespace TermGrouping

/-- Addition or multiplication. -/
inductive Operator where
  | sum
  | product
  deriving DecidableEq

namespace Operator

def kindName : Operator → String
  | sum => "Sum"
  | product => "Product"

/-- The name of the operator as the context in which operands are compared. -/
def contextName : Operator → String
  | sum => "Add"
  | product => "Mul"

def ofContextName? (name : String) : Option Operator :=
  if name = sum.contextName then some sum
  else if name = product.contextName then some product
  else none

def fewestOperands : Nat := 2

end Operator

end TermGrouping
