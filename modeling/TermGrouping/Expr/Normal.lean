import TermGrouping.Expr.Subtrees

/-! Normal trees hold no node that flattening would touch: no operator directly inside its own
kind, and no brackets that their place does not ask for.
-/

namespace TermGrouping.Expr

def isNormalSummand : Expr → Bool
  | sum _ | group _ => false
  | _ => true

def isNormalFactor : Expr → Bool
  | product _ _ => false
  | group (sum _) => true
  | group _ => false
  | _ => true

def isNormalContent : Expr → Bool
  | group _ | symbol _ | call _ _ => false
  | constant literal => literal.value < 0
  | _ => true

def isNormalExponent : Expr → Bool
  | group (power _ _) => false
  | _ => true

def isNormalNumerator : Expr → Bool
  | group (sum _) => true
  | group _ => false
  | _ => true

/-- Whether the children of a node can stay where they are. -/
def isNormalNode : Expr → Bool
  | sum operands => operands.all isNormalSummand
  | product operands _ => operands.all isNormalFactor
  | group inner => inner.isNormalContent
  | power _ exponent => exponent.isNormalExponent
  | quotient numerator denominator =>
      numerator.isNormalNumerator && denominator.isNormalExponent
  | constant _ | symbol _ | call _ _ | foreign _ => true

def IsNormal (e : Expr) : Prop := ∀ node ∈ e.subtrees, node.isNormalNode = true

instance (e : Expr) : Decidable e.IsNormal :=
  inferInstanceAs (Decidable (∀ node ∈ e.subtrees, node.isNormalNode = true))

def IsPure (e : Expr) : Prop := ∀ node ∈ e.subtrees, node.value? = none

instance (e : Expr) : Decidable e.IsPure :=
  inferInstanceAs (Decidable (∀ node ∈ e.subtrees, node.value? = none))

end TermGrouping.Expr
