import TermGrouping.Expr.Subtrees

/-! The shape of a tree is what remains of it when the written forms of constants, the marks of
implicit products and the difference between truth values and integers are left out.
Two trees are alike if their shapes are the same.
-/

namespace TermGrouping.Expr

mutual
/-- The tree with every constant reduced to its value, every product explicit and every plain
value in counted form. -/
def shape : Expr → Expr
  | constant literal => constant ⟨literal.value, false, none⟩
  | symbol name => symbol name
  | power base exponent => power base.shape exponent.shape
  | sum operands => sum (shapeAll operands)
  | product operands _ => product (shapeAll operands) false
  | group inner => group inner.shape
  | call name arguments => call name (shapeAll arguments)
  | quotient numerator denominator => quotient numerator.shape denominator.shape
  | foreign value => foreign value.counted

def shapeAll : List Expr → List Expr
  | [] => []
  | e :: es => e.shape :: shapeAll es
end

theorem shapeAll_eq_map (es : List Expr) : shapeAll es = es.map shape := by
  induction es with
  | nil => rfl
  | cons e es ih => simp [shapeAll, ih]

/-- Trees that differ at most in written forms. -/
def Alike (a b : Expr) : Prop := a.shape = b.shape

instance (a b : Expr) : Decidable (Alike a b) :=
  inferInstanceAs (Decidable (a.shape = b.shape))

theorem Alike.refl (a : Expr) : Alike a a := rfl

theorem Alike.symm {a b : Expr} (h : Alike a b) : Alike b a := Eq.symm h

theorem Alike.trans {a b c : Expr} (hab : Alike a b) (hbc : Alike b c) : Alike a c :=
  Eq.trans hab hbc

end TermGrouping.Expr
