import TermGrouping.Bundle.Key

/-! Bundles of like terms. The operands of a sum or a product fall into bundles of alike keys; the
bundles stand in the order of their first members, and each keeps the order of its members.
-/

namespace TermGrouping

/-- Operands with alike keys; the key is that of the first of them. -/
structure Bundle where
  key : Key
  members : List Expr
  deriving DecidableEq

namespace Bundle

/-- The bundles of a list of operands: one for each key, holding the operands of that key. -/
def ofOperands (operator : Operator) (operands : List Expr) : List Bundle :=
  (Key.firstOccurrences (operands.map operator.key)).map fun key =>
    ⟨key, operands.filter fun operand => Key.Alike key (operator.key operand)⟩

/-- Bundles are worth collecting if there are several and one of them has several members. -/
def areCollectable (bundles : List Bundle) : Bool :=
  2 ≤ bundles.length && bundles.any fun bundle => 2 ≤ bundle.members.length

def ofKinds (kinds : List KeyKind) (bundles : List Bundle) : List Bundle :=
  bundles.filter fun bundle => kinds.contains bundle.key.kind

/-- The kinds of keys in the order of their bundles; kinds of one rank keep the order of the
operands. -/
def ranks : Operator → List (List KeyKind)
  | .sum => [[.symbol, .power], [.constant], [.fraction], [.other]]
  | .product => [[.coefficient], [.base], [.other]]

/-- The bundles in the order of their ranks. A bundle whose kind has no rank is left out. -/
def ordered (operator : Operator) (bundles : List Bundle) : List Bundle :=
  (ranks operator).flatMap fun kinds => ofKinds kinds bundles

end Bundle

end TermGrouping
