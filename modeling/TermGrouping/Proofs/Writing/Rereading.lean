import TermGrouping.Proofs.Parsing.Formula
import TermGrouping.Proofs.Writing.Constants
import TermGrouping.Proofs.Writing.Fractions

/-! The tree that a written form is read as. Operators with many operands come back nested to the
left, brackets come back as groups, and a leading sign comes back as a factor or as part of a
constant.
-/

namespace TermGrouping

/-- The constant that the tokens of a constant are read as. -/
def Literal.reread (literal : Literal) : Literal :=
  if literal.isSigned then (Literal.ofNumeral literal.numeral).opposite
  else .ofNumeral literal.numeral

namespace Expr

def grouped (needed : Bool) (e : Expr) : Expr := if needed then group e else e

/-- Whether a tree is a power of a constant that is written with a sign but without brackets, so
that the sign is read as that of the power. -/
def hasSignedBase : Expr → Bool
  | power (constant literal) _ => (constant literal).basePlain && literal.isSigned
  | _ => false

mutual
/-- The tree that the tokens of a tree are read as. -/
def reread : Expr → Expr
  | constant literal => constant literal.reread
  | symbol name => symbol name
  | power base exponent =>
      if hasSignedBase (power base exponent) then
        (power base.reread.opposite (exponent.reread.grouped exponent.bracketedLater)).opposite
      else
        power (base.reread.grouped (!base.basePlain))
          (exponent.reread.grouped exponent.bracketedLater)
  | sum [] => sum []
  | sum (head :: rest) =>
      (rereadAll isSum rest).foldl (fun a b => sum [a, b]) (head.reread.grouped head.isSum)
  | product [] implicit => product [] implicit
  | product (head :: rest) implicit =>
      if isJuxtaposed (head :: rest) implicit then
        if head.isMinusOne then
          match rereadAll bracketedLater rest with
          | [] => head.reread
          | first :: later => later.foldl (fun a b => product [a, b] true) first.opposite
        else
          (rereadAll bracketedLater rest).foldl (fun a b => product [a, b] true)
            (head.reread.grouped head.bracketedFirst)
      else
        (rereadAll bracketedLater rest).foldl (fun a b => product [a, b] false)
          (head.reread.grouped head.bracketedFirst)
  | group inner => group inner.reread
  | call name arguments => call name (rereadAll (fun _ => false) arguments)
  | quotient numerator denominator =>
      quotient (numerator.reread.grouped numerator.isSum)
        (denominator.reread.grouped denominator.bracketedLater)
  | foreign value => foreign value

def rereadAll (needed : Expr → Bool) : List Expr → List Expr
  | [] => []
  | e :: es => e.reread.grouped (needed e) :: rereadAll needed es
end

def category : Expr → Category
  | sum _ => .sum
  | product _ _ | quotient _ _ => .product
  | constant literal =>
      if literal.isSigned then .unary
      else if literal.numeral.isFraction then .atom else .operand
  | power base exponent => if hasSignedBase (power base exponent) then .unary else .power
  | symbol _ | group _ | call _ _ | foreign _ => .operand

/-- Whether a product of factors side by side holds a power whose sign is read as a minus between
two terms. In front of the first factor behind the coefficient minus one, it is a second sign. -/
def hidesSign : Expr → Bool
  | product (head :: rest) implicit =>
      isJuxtaposed (head :: rest) implicit
        && (if head.isMinusOne then rest.tail else rest).any hasSignedBase
  | _ => false

end Expr

-----------------------------------------------------------------------------------------
-- Tight parts of a formula are loose ones
-----------------------------------------------------------------------------------------

/-- How much a part of a formula can hold, exponents aside. -/
def Category.looseness : Category → Nat
  | operand => 0
  | atom => 1
  | power => 2
  | unary => 3
  | product => 4
  | sum => 5
  | exponent => 6

namespace Derives

variable {category : Category} {tokens : List Token} {e : Expr}

theorem toAtom (h : Derives category tokens e) (hc : category.looseness ≤ 1)
    : Derives .atom tokens e := by
  cases category with
  | operand => exact .atomOperand h
  | atom => exact h
  | _ => simp [Category.looseness] at hc

theorem toPower (h : Derives category tokens e) (hc : category.looseness ≤ 2)
    : Derives .power tokens e := by
  cases category with
  | operand | atom => exact .base (h.toAtom (by decide))
  | power => exact h
  | _ => simp [Category.looseness] at hc

theorem toUnary (h : Derives category tokens e) (hc : category.looseness ≤ 3)
    : Derives .unary tokens e := by
  cases category with
  | operand | atom | power => exact .unsigned (h.toPower (by decide))
  | unary => exact h
  | _ => simp [Category.looseness] at hc

theorem toProduct (h : Derives category tokens e) (hc : category.looseness ≤ 4)
    : Derives .product tokens e := by
  cases category with
  | operand | atom | power | unary => exact .factor (h.toUnary (by decide))
  | product => exact h
  | _ => simp [Category.looseness] at hc

theorem toSum (h : Derives category tokens e) (hc : category.looseness ≤ 5)
    : Derives .sum tokens e := by
  cases category with
  | operand | atom | power | unary | product => exact .term (h.toProduct (by decide))
  | sum => exact h
  | exponent => simp [Category.looseness] at hc

/-- In brackets, every formula is an operand. -/
theorem enclosed (h : Derives category tokens e) (needed : Bool)
    (hc : category.looseness ≤ 5)
    : Derives (if needed then .operand else category) (Expr.enclosed needed tokens)
        (e.grouped needed) := by
  cases needed with
  | false => exact h
  | true => exact .group (h.toSum hc)

end Derives

namespace Expr

/-- Brackets make an operand of a part that is too loose for its place. -/
theorem looseness_enclosed {needed : Bool} {category : Category} {bound : Nat}
    (h : needed = false → category.looseness ≤ bound)
    : (if needed then Category.operand else category).looseness ≤ bound := by
  cases needed with
  | false => exact h rfl
  | true => exact Nat.zero_le bound

theorem looseness_le (e : Expr) : e.category.looseness ≤ 5 := by
  cases e <;> simp only [category] <;> (repeat' split) <;> decide

theorem looseness_of_not_isSum {e : Expr} (h : e.isSum = false)
    : e.category.looseness ≤ 4 := by
  cases e <;> simp only [category] <;> (repeat' split) <;> first | decide | simp [isSum] at h

theorem looseness_of_not_bracketedFirst {e : Expr} (h : e.bracketedFirst = false)
    : e.category.looseness ≤ 4 := by
  cases e <;> simp only [category] <;> (repeat' split) <;>
    first | decide | simp [bracketedFirst] at h

theorem looseness_of_not_bracketedLater {e : Expr} (h : e.bracketedLater = false)
    : e.category.looseness ≤ 3 := by
  cases e <;> simp only [category] <;> (repeat' split) <;>
    first | decide | simp [bracketedLater] at h

/-- A factor that can follow another without a sign is at most a power. -/
theorem looseness_of_canFollow {e : Expr} (hf : e.canFollow = true)
    (h : e.bracketedLater = false) (hs : e.hasSignedBase = false)
    : e.category.looseness ≤ 2 := by
  cases e <;> simp_all [canFollow, bracketedLater, category, Category.looseness]

/-- A base that is written without brackets is at most an atom. -/
theorem looseness_of_basePlain {base : Expr} (exponent : Expr) (h : base.basePlain = true)
    (hs : hasSignedBase (power base exponent) = false)
    : base.category.looseness ≤ 1 := by
  cases base with
  | constant literal =>
      have hl : literal.isSigned = false := by simpa [hasSignedBase, h] using hs
      simp only [category, hl, Bool.false_eq_true, if_false]
      split <;> decide
  | symbol | group | call => exact Nat.zero_le 1
  | _ => simp [basePlain] at h

end Expr

-----------------------------------------------------------------------------------------
-- Derivations of written trees
-----------------------------------------------------------------------------------------

theorem derives_numeral (n : Numeral)
    : Derives (if n.isFraction then .atom else .operand) [.numeral n]
        (.constant (.ofNumeral n)) := by
  cases n with
  | decimal whole places => exact .decimal whole places
  | fraction numerator denominator => exact .fraction numerator denominator

/-- The tokens of a constant are read as a constant. -/
theorem Literal.derives_tokens (literal : Literal)
    : Derives (Expr.constant literal).category literal.tokens (.constant literal.reread) := by
  have hn := derives_numeral literal.numeral
  simp only [Expr.category, Literal.tokens, Literal.reread]
  split
  · refine .signed .minus (hn.toUnary ?_)
    split <;> decide
  · exact hn

/-- In an exponent, the tokens of a constant are read as the same constant, if it is no
fraction. -/
theorem Literal.derives_exponent {literal : Literal}
    (h : Token.fractionsFit false literal.tokens = true)
    : Derives .exponent literal.tokens (.constant literal.reread) := by
  have hn := derives_numeral literal.numeral
  have hf : literal.numeral.isFraction = false := by
    simp only [Literal.tokens] at h
    split at h <;> simpa [Token.fractionsFit, Token.isFraction, Token.fractionAfter] using h
  rw [if_neg (by simp [hf])] at hn
  simp only [Literal.tokens, Literal.reread]
  split
  · exact .exponentSigned .minus (.exponentBase hn)
  · exact .exponentBase hn

namespace Expr

/-- Operands behind one another are read from left to right, each joined to those before. -/
theorem derives_tokensBehind {whole part : Category} (separator : List Token)
    (needed : Expr → Bool) {join : Expr → Expr → Expr}
    (hjoin : ∀ left right a b, Derives whole left a → Derives part right b
      → Derives whole (left ++ (separator ++ right)) (join a b))
    {rest : List Expr}
    (hrest : ∀ e ∈ rest,
      Derives part (enclosed (needed e) e.tokens) (e.reread.grouped (needed e)))
    {left : List Token} {a : Expr} (hl : Derives whole left a)
    : Derives whole (left ++ tokensBehind separator needed rest)
        ((rereadAll needed rest).foldl join a) := by
  induction rest generalizing left a with
  | nil => simpa [tokensBehind, rereadAll] using hl
  | cons e es ih =>
      obtain ⟨he, hes⟩ := List.forall_mem_cons.mp hrest
      have hnext := ih hes (hjoin _ _ _ _ hl he)
      simpa [tokensBehind, rereadAll] using hnext

/-- Arguments behind commas are read from left to right. -/
theorem derives_arguments {rest : List Expr}
    (hrest : ∀ e ∈ rest, Derives .sum e.tokens e.reread) {left : List Token}
    {arguments : List Expr} (hl : DerivesArguments left arguments)
    : DerivesArguments (left ++ tokensBehind [.comma] (fun _ => false) rest)
        (arguments ++ rereadAll (fun _ => false) rest) := by
  induction rest generalizing left arguments with
  | nil => simpa [tokensBehind, rereadAll] using hl
  | cons e es ih =>
      obtain ⟨he, hes⟩ := List.forall_mem_cons.mp hrest
      have hnext := ih hes (.more hl he)
      simpa [tokensBehind, rereadAll, enclosed, grouped] using hnext

/-- How a tree is read back from its tokens: as a part of its category, and as an exponent if it
can be one without brackets. -/
structure Rereads (e : Expr) : Prop where
  derives : Derives e.category e.tokens e.reread
  exponent : e.bracketedLater = false → Token.fractionsFit false e.tokens = true
    → Derives .exponent e.tokens e.reread

namespace Rereads

variable {e : Expr}

theorem formula (h : e.Rereads) : Derives .sum e.tokens e.reread :=
  h.derives.toSum e.looseness_le

/-- An operand of a sum, in brackets if it is a sum, is read as a product. -/
theorem summand (h : e.Rereads)
    : Derives .product (enclosed e.isSum e.tokens) (e.reread.grouped e.isSum) :=
  (h.derives.enclosed _ e.looseness_le).toProduct (looseness_enclosed looseness_of_not_isSum)

theorem firstFactor (h : e.Rereads)
    : Derives .product (enclosed e.bracketedFirst e.tokens)
        (e.reread.grouped e.bracketedFirst) :=
  (h.derives.enclosed _ e.looseness_le).toProduct
    (looseness_enclosed looseness_of_not_bracketedFirst)

/-- A later factor, in brackets if it is an operation or a quotient, is read as a factor with
signs. -/
theorem laterFactor (h : e.Rereads)
    : Derives .unary (enclosed e.bracketedLater e.tokens)
        (e.reread.grouped e.bracketedLater) :=
  (h.derives.enclosed _ e.looseness_le).toUnary
    (looseness_enclosed looseness_of_not_bracketedLater)

theorem besideFactor (h : e.Rereads) (hf : e.canFollow = true) (hs : e.hasSignedBase = false)
    : Derives .power (enclosed e.bracketedLater e.tokens)
        (e.reread.grouped e.bracketedLater) :=
  (h.derives.enclosed _ e.looseness_le).toPower
    (looseness_enclosed fun hb => looseness_of_canFollow hf hb hs)

/-- An exponent is read as one, in brackets or without, if no fraction leads it. -/
theorem inExponent (h : e.Rereads)
    (hf : Token.fractionsFit false (enclosed e.bracketedLater e.tokens) = true)
    : Derives .exponent (enclosed e.bracketedLater e.tokens)
        (e.reread.grouped e.bracketedLater) := by
  cases hb : e.bracketedLater with
  | false =>
      rw [hb] at hf
      exact h.exponent hb hf
  | true => exact .exponentBase (.group h.formula)

end Rereads

theorem rereads_constant (literal : Literal) : (constant literal).Rereads :=
  ⟨literal.derives_tokens, fun _ hf => Literal.derives_exponent hf⟩

theorem rereads_symbol (letter : Char) : (symbol (String.singleton letter)).Rereads := by
  have hs : (symbol (String.singleton letter)).tokens = [.symbol letter] := by simp [tokens]
  constructor
  · rw [hs]
    exact .symbol letter
  · intro _ _
    rw [hs]
    exact .exponentBase (.symbol letter)

theorem rereads_group {inner : Expr} (h : inner.Rereads) : (group inner).Rereads :=
  ⟨.group h.formula, fun _ _ => .exponentBase (.group h.formula)⟩

theorem rereads_quotient {numerator denominator : Expr} (hn : numerator.Rereads)
    (hd : denominator.Rereads)
    : (quotient numerator denominator).Rereads := by
  refine ⟨.dividedBy ?_ hd.laterFactor, fun hb => by simp [bracketedLater] at hb⟩
  exact hn.summand

/-- A sum is read back term by term, each behind its plus. -/
theorem rereads_sum {head : Expr} {rest : List Expr} (hh : head.Rereads)
    (hr : ∀ e ∈ rest, e.Rereads)
    : (sum (head :: rest)).Rereads := by
  refine ⟨?_, fun hb => by simp [bracketedLater] at hb⟩
  exact derives_tokensBehind [.sign .plus] isSum (fun _ _ _ _ => .terms .plus)
    (fun e he => (hr e he).summand) (.term hh.summand)

theorem rereads_call {name : String} {head : Expr} {rest : List Expr} (hh : head.Rereads)
    (hr : ∀ e ∈ rest, e.Rereads)
    : (call name (head :: rest)).Rereads := by
  have harguments := derives_arguments (fun e he => (hr e he).formula) (.one hh.formula)
  have h := Derives.call name.toList harguments
  rw [String.ofList_toList] at h
  exact ⟨h, fun _ _ => .exponentBase h⟩

/-- A product is read from left to right, and a coefficient minus one as the sign of the factor
behind it. -/
theorem rereads_product {head : Expr} {rest : List Expr} {implicit : Bool} (hne : rest ≠ [])
    (hh : head.Rereads) (hr : ∀ e ∈ rest, e.Rereads)
    (hs : hidesSign (product (head :: rest) implicit) = false)
    : (product (head :: rest) implicit).Rereads := by
  refine ⟨?_, fun hb => by simp [bracketedLater] at hb⟩
  simp only [category, tokens, reread]
  cases hj : isJuxtaposed (head :: rest) implicit with
  | false =>
      exact derives_tokensBehind [.times] bracketedLater (fun _ _ _ _ => .times)
        (fun e he => (hr e he).laterFactor) hh.firstFactor
  | true =>
      have hf : ∀ e ∈ rest, e.canFollow = true := by
        simp only [isJuxtaposed, Bool.and_eq_true, List.drop_succ_cons, List.drop_zero,
          List.all_eq_true] at hj
        exact hj.2
      simp only [hidesSign, hj, Bool.true_and, List.any_eq_false, Bool.not_eq_true] at hs
      cases hm : head.isMinusOne with
      | false =>
          rw [hm] at hs
          exact derives_tokensBehind [] bracketedLater (fun _ _ _ _ => .beside)
            (fun e he => (hr e he).besideFactor (hf e he) (hs e he)) hh.firstFactor
      | true =>
          obtain ⟨first, later, rfl⟩ := List.exists_cons_of_ne_nil hne
          obtain ⟨hfirst, hlater⟩ := List.forall_mem_cons.mp hr
          rw [hm] at hs
          have hsigned := Derives.factor (.signed .minus hfirst.laterFactor)
          have h := derives_tokensBehind [] bracketedLater (fun _ _ _ _ => .beside)
            (fun e he => (hlater e he).besideFactor (hf e (List.mem_cons_of_mem _ he)) (hs e he))
            hsigned
          simpa [tokensBehind, rereadAll, Sign.apply] using h

/-- A base without brackets is an operand, unless it is a fraction. -/
theorem looseness_of_basePlain_fits {base : Expr} (exponent : Expr) (h : base.basePlain = true)
    (hs : hasSignedBase (power base exponent) = false)
    (hf : Token.fractionsFit false base.tokens = true)
    : base.category = .operand := by
  cases base with
  | constant literal =>
      have hl : literal.isSigned = false := by simpa [hasSignedBase, h] using hs
      have hn : literal.numeral.isFraction = false := by
        simpa [tokens, Literal.tokens, hl, Token.fractionsFit, Token.isFraction] using hf
      simp [category, hl, hn]
  | symbol | group | call => rfl
  | _ => simp [basePlain] at h

/-- A power whose base has no sign of its own is read as a power. -/
theorem rereads_power {base exponent : Expr} (hb : base.Rereads) (hx : exponent.Rereads)
    (hf : Token.fractionsFit true (power base exponent).tokens = true)
    (hs : hasSignedBase (power base exponent) = false)
    : (power base exponent).Rereads := by
  have hexponent := hx.inExponent (Token.fractionsFit_power hf).2
  have hbase := hb.derives.enclosed (!base.basePlain) base.looseness_le
  constructor
  · simp only [category, reread, hs, Bool.false_eq_true, if_false, tokens]
    refine .raised (hbase.toAtom (looseness_enclosed fun h => ?_)) hexponent
    exact looseness_of_basePlain exponent (by simpa using h) hs
  · intro _ hfalse
    simp only [reread, hs, Bool.false_eq_true, if_false, tokens] at hfalse ⊢
    refine .exponentRaised ?_ hexponent
    cases h : base.basePlain with
    | false => simpa [h] using hbase
    | true =>
        rw [h] at hbase hfalse
        have := looseness_of_basePlain_fits exponent h hs
          (Token.fractionsFit_append.mp hfalse).1
        simpa [this] using hbase

/-- A power whose base has a sign of its own is read as the opposite of a power. -/
theorem rereads_signedPower {base exponent : Expr} (hbase : base.IsReadable)
    (hx : exponent.Rereads) (hf : Token.fractionsFit true (power base exponent).tokens = true)
    (hs : hasSignedBase (power base exponent) = true)
    : (power base exponent).Rereads := by
  have hexponent := hx.inExponent (Token.fractionsFit_power hf).2
  cases base with
  | constant literal =>
      cases hbase with
      | constant hl =>
          simp only [hasSignedBase, Bool.and_eq_true] at hs
          obtain ⟨hplain, hsigned⟩ := hs
          have hn := derives_numeral literal.numeral
          have htokens : (power (constant literal) exponent).tokens
              = .sign .minus :: ([.numeral literal.numeral] ++ .caret
                :: enclosed exponent.bracketedLater exponent.tokens) := by
            simp [tokens, enclosed, hplain, Literal.tokens, hsigned]
          have hreread : (power (constant literal) exponent).reread
              = (power (constant (.ofNumeral literal.numeral))
                  (exponent.reread.grouped exponent.bracketedLater)).opposite := by
            simp [reread, hasSignedBase, hplain, hsigned, Literal.reread, opposite,
              Literal.opposite_opposite_ofNumeral hl.numeral]
          have hcategory : (power (constant literal) exponent).category = .unary := by
            simp [category, hasSignedBase, hplain, hsigned]
          constructor
          · rw [htokens, hreread, hcategory]
            refine .signed .minus (.unsigned (.raised (hn.toAtom ?_) hexponent))
            split <;> decide
          · intro _ hfalse
            rw [htokens] at hfalse
            have hn' : literal.numeral.isFraction = false := by
              simp only [Token.fractionsFit, List.singleton_append, Bool.and_eq_true] at hfalse
              simpa [Token.isFraction, Token.fractionAfter] using hfalse.2.1
            rw [if_neg (by simp [hn'])] at hn
            rw [htokens, hreread]
            exact .exponentSigned .minus (.exponentRaised hn hexponent)
  | _ => simp [hasSignedBase] at hs

/-- A readable tree is read back from its tokens if they are read one by one, and if no sign of a
base is hidden behind another factor. -/
theorem IsReadable.rereads {e : Expr} (h : e.IsReadable)
    (hf : Token.fractionsFit true e.tokens = true)
    (hs : ∀ node ∈ e.subtrees, node.hidesSign = false)
    : e.Rereads := by
  induction h with
  | constant => exact rereads_constant _
  | symbol => exact rereads_symbol _
  | @power base exponent hbase _ ihb ihx =>
      have hc := (forall_subtrees.mp hs).2
      obtain ⟨hl, hr⟩ := Token.fractionsFit_power hf
      have hb := ihb (Token.fractionsFit_enclosed hl) (hc _ (.head _))
      have hx := ihx (Token.fractionsFit_enclosed (Token.fractionsFit_true hr))
        (hc _ (.tail _ (.head _)))
      cases hsigned : hasSignedBase (.power base exponent) with
      | false => exact rereads_power hb hx hf hsigned
      | true => exact rereads_signedPower hbase hx hf hsigned
  | sum _ _ _ ihh ihr =>
      have hc := (forall_subtrees.mp hs).2
      obtain ⟨hl, hr⟩ := Token.fractionsFit_parts hf
      exact rereads_sum (ihh (Token.fractionsFit_enclosed hl) (hc _ (.head _))) fun e he =>
        ihr e he (Token.fractionsFit_tokensBehind hr e he) (hc e (.tail _ he))
  | @product head rest implicit hne _ _ ihh ihr =>
      obtain ⟨hnode, hc⟩ := forall_subtrees.mp hs
      obtain ⟨hl, hr⟩ := Token.fractionsFit_product hf
      exact rereads_product hne (ihh hl (hc _ (.head _)))
        (fun e he => ihr e he (hr e he) (hc e (.tail _ he))) hnode
  | group _ ih =>
      have hc := (forall_subtrees.mp hs).2
      have hinner := (Token.fractionsFit_parts (Token.fractionsFit_tail hf)).1
      exact rereads_group (ih hinner (hc _ (.head _)))
  | call _ _ _ ihh ihr =>
      have hc := (forall_subtrees.mp hs).2
      have hf := Token.fractionsFit_enclosed (Token.fractionsFit_tail hf)
      obtain ⟨hl, hr⟩ := Token.fractionsFit_parts hf
      exact rereads_call (ihh hl (hc _ (.head _))) fun e he =>
        ihr e he (Token.fractionsFit_tokensBehind hr e he) (hc e (.tail _ he))
  | quotient _ _ ihn ihd =>
      have hc := (forall_subtrees.mp hs).2
      obtain ⟨hl, hr⟩ := Token.fractionsFit_parts hf
      have hr := Token.fractionsFit_tail hr
      exact rereads_quotient (ihn (Token.fractionsFit_enclosed hl) (hc _ (.head _)))
        (ihd (Token.fractionsFit_enclosed hr) (hc _ (.tail _ (.head _))))

/-- Where no base has a sign, no sign is hidden. -/
theorem hidesSign_of_hasSignedBase {e : Expr}
    (h : ∀ node ∈ e.subtrees, node.hasSignedBase = false)
    : ∀ node ∈ e.subtrees, node.hidesSign = false := by
  induction e using Expr.induct_children with
  | step e ih =>
      have hc := (forall_subtrees.mp h).2
      refine forall_subtrees.mpr ⟨?_, fun child hm => ih child hm (hc child hm)⟩
      have hroot (child : Expr) (hm : child ∈ e.children) : child.hasSignedBase = false :=
        (forall_subtrees.mp (hc child hm)).1
      unfold hidesSign
      split
      · next head rest implicit =>
        have hany : (if head.isMinusOne then rest.tail else rest).any hasSignedBase = false := by
          simp only [List.any_eq_false, Bool.not_eq_true]
          intro child hm
          split at hm
          · exact hroot child (.tail _ (List.mem_of_mem_tail hm))
          · exact hroot child (.tail _ hm)
        rw [hany, Bool.and_false]
      · rfl

end Expr

-----------------------------------------------------------------------------------------
-- Texts of written trees
-----------------------------------------------------------------------------------------

theorem Numeral.IsReadable.denominator_ne_zero {n : Numeral} (h : n.IsReadable)
    : n.denominator ≠ 0 := by
  cases n with
  | decimal whole places => simp [denominator]
  | fraction numerator denominator => exact h.2.2.2

/-- No readable token is a fraction with the denominator zero. -/
theorem allDefined_of_readable {tokens : List Token} (h : ∀ token ∈ tokens, token.IsReadable)
    : AllDefined tokens := by
  intro token ht
  cases token with
  | numeral n => simpa [Token.isUndefined] using Numeral.IsReadable.denominator_ne_zero (h _ ht)
  | _ => rfl

/-- A readable tree whose tokens stand apart has a text, and the text is read as the tree that
the tokens are read as. -/
theorem Expr.IsReadable.parse_text {e : Expr} (h : e.IsReadable)
    (hf : Token.fractionsFit true e.tokens = true) (ha : Token.allApart e.tokens = true)
    (hs : ∀ node ∈ e.subtrees, node.hidesSign = false)
    : ∃ text, e.text = .ok text ∧ parse text = .ok e.reread := by
  refine ⟨_, h.text_eq, parse_eq_ok_iff.mpr ⟨e.tokens, ?_, (h.rereads hf hs).formula, ?_⟩⟩
  · rw [String.toList_ofList]
    exact lexes_printed h.tokens_readable hf ha
  · exact allDefined_of_readable h.tokens_readable

end TermGrouping
