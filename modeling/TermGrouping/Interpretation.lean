import TermGrouping.Expr.Basic

/-! The meaning of a tree. Sums and products mean what they say; powers, quotients, functions and
symbols mean whatever an interpretation makes of them.
-/

namespace TermGrouping

/-- Meanings for all parts of a tree that are not fixed. -/
structure Interpretation where
  symbol : String → Rat
  call : String → List Rat → Rat
  power : Rat → Rat → Rat
  quotient : Rat → Rat → Rat

namespace Expr

mutual
/-- The rational number that a tree means. A plain value means zero. -/
def meaning (I : Interpretation) : Expr → Rat
  | constant literal => literal.value
  | symbol name => I.symbol name
  | power base exponent => I.power (base.meaning I) (exponent.meaning I)
  | sum operands => (meanings I operands).foldr (· + ·) 0
  | product operands _ => (meanings I operands).foldr (· * ·) 1
  | group inner => inner.meaning I
  | call name arguments => I.call name (meanings I arguments)
  | quotient numerator denominator => I.quotient (numerator.meaning I) (denominator.meaning I)
  | foreign _ => 0

def meanings (I : Interpretation) : List Expr → List Rat
  | [] => []
  | e :: es => e.meaning I :: meanings I es
end

theorem meanings_eq_map (I : Interpretation) (es : List Expr)
    : meanings I es = es.map (meaning I) := by
  induction es with
  | nil => rfl
  | cons e es ih => simp [meanings, ih]

end Expr

end TermGrouping
