import TermGrouping.Proofs.Writing.Rereading

/-! Neighbours in written forms. Numerals stand side by side only where the second one is the base
of a power, because no constant follows another factor without a sign.
-/

namespace TermGrouping

namespace Token

/-- Whether a list starts with no numeral but the base of a power. -/
def startsWithBase : List Token → Bool
  | numeral _ :: rest => rest.head? == some caret
  | _ => true

def canPrecede : Token → List Token → Bool
  | numeral _, rest => startsWithBase rest
  | callee _, rest => rest.head? == some opening
  | _, _ => true

/-- Whether every token of a list stands where one of a written form can stand. -/
def wellSpaced : List Token → Bool
  | [] => true
  | token :: rest => token.canPrecede rest && wellSpaced rest

theorem startsWithBase_append {left : List Token} (right : List Token) (hne : left ≠ [])
    (h : startsWithBase left = true)
    : startsWithBase (left ++ right) = true := by
  match left, hne with
  | [token], _ => cases token <;> simp_all [startsWithBase]
  | token :: next :: left, _ => cases token <;> simp_all [startsWithBase]

/-- What can stand behind a token still can if no numeral follows it, except as the base of a
power. -/
theorem canPrecede_append {token : Token} {left right : List Token}
    (hl : token.canPrecede left = true) (hr : startsWithBase right = true)
    : token.canPrecede (left ++ right) = true := by
  cases left with
  | nil => cases token <;> simp_all [canPrecede]
  | cons next left =>
      cases token with
      | numeral => exact startsWithBase_append right (List.cons_ne_nil _ _) hl
      | callee => exact hl
      | _ => rfl

/-- Well-spaced tokens can stand behind others, unless they start with a numeral that is no
base. -/
theorem wellSpaced_append {left right : List Token} (hl : wellSpaced left = true)
    (hr : wellSpaced right = true) (hb : startsWithBase right = true)
    : wellSpaced (left ++ right) = true := by
  induction left with
  | nil => exact hr
  | cons token left ih =>
      simp only [List.cons_append, wellSpaced, Bool.and_eq_true] at hl ⊢
      exact ⟨canPrecede_append hl.1 hb, ih hl.2⟩

/-- An operator or a closing bracket may stand in front of all well-spaced tokens. -/
theorem wellSpaced_separates {token : Token} {tokens : List Token}
    (hs : token.separates = true) (h : wellSpaced tokens = true)
    : wellSpaced (token :: tokens) = true ∧ startsWithBase (token :: tokens) = true := by
  cases token <;> simp_all [separates, wellSpaced, canPrecede, startsWithBase]

/-- Operators separate what stands on either side. -/
theorem wellSpaced_separated {left right : List Token} {token : Token}
    (hs : token.separates = true) (hl : wellSpaced left = true)
    (hr : wellSpaced right = true)
    : wellSpaced (left ++ token :: right) = true := by
  obtain ⟨hspaced, hbase⟩ := wellSpaced_separates hs hr
  exact wellSpaced_append hl hspaced hbase

/-- Brackets around well-spaced tokens leave them well spaced. -/
theorem wellSpaced_enclosed (needed : Bool) {tokens : List Token}
    (h : wellSpaced tokens = true)
    : wellSpaced (Expr.enclosed needed tokens) = true := by
  cases needed with
  | false => exact h
  | true =>
      change wellSpaced (.opening :: (tokens ++ .closing :: [])) = true
      rw [wellSpaced, wellSpaced_separated rfl h rfl]
      rfl

/-- Trees behind one another are well spaced if each is, and if none starts with a numeral that
is no base. -/
theorem wellSpaced_tokensBehind {separator : List Token} {needed : Expr → Bool}
    {es : List Expr} {left : List Token} (hl : wellSpaced left = true)
    (h : ∀ e ∈ es, wellSpaced (separator ++ Expr.enclosed (needed e) e.tokens) = true
      ∧ startsWithBase (separator ++ Expr.enclosed (needed e) e.tokens) = true)
    : wellSpaced (left ++ Expr.tokensBehind separator needed es) = true := by
  induction es generalizing left with
  | nil => simpa [Expr.tokensBehind] using hl
  | cons e es ih =>
      obtain ⟨⟨he, hb⟩, hes⟩ := List.forall_mem_cons.mp h
      have hnext := wellSpaced_append hl he hb
      simpa [Expr.tokensBehind] using ih hnext hes

/-- Trees behind separators are well spaced if each of them is. -/
theorem wellSpaced_behindSeparator {separator : Token} {needed : Expr → Bool}
    {es : List Expr} {left : List Token} (hs : separator.separates = true)
    (hl : wellSpaced left = true) (h : ∀ e ∈ es, wellSpaced e.tokens = true)
    : wellSpaced (left ++ Expr.tokensBehind [separator] needed es) = true :=
  wellSpaced_tokensBehind hl fun e he =>
    wellSpaced_separates hs (wellSpaced_enclosed (needed e) (h e he))

end Token

namespace Expr

/-- A factor that can follow another one without a sign starts with a base, if it starts with a
constant. -/
theorem startsWithBase_of_canFollow {e : Expr} (h : e.canFollow = true) (hr : e.IsReadable)
    : Token.startsWithBase (enclosed e.bracketedLater e.tokens) = true := by
  cases hr with
  | constant | quotient => simp [canFollow] at h
  | symbol => simp [tokens, enclosed, bracketedLater, Token.startsWithBase]
  | group | call => rfl
  | sum | product => rfl
  | @power base exponent hb _ =>
      have hbase : Token.startsWithBase (power base exponent).tokens = true := by
        cases hplain : base.basePlain with
        | false => simp [tokens, hplain, enclosed, Token.startsWithBase]
        | true =>
            cases hb with
            | @constant literal =>
                cases hsigned : literal.isSigned <;>
                  simp [tokens, hplain, enclosed, Literal.tokens, hsigned, Token.startsWithBase]
            | symbol => simp [tokens, basePlain, enclosed, Token.startsWithBase]
            | group | call => rfl
            | power | sum | product | quotient => simp [basePlain] at hplain
      exact hbase

/-- The tokens of a readable tree are well spaced. -/
theorem IsReadable.wellSpaced {e : Expr} (h : e.IsReadable)
    : Token.wellSpaced e.tokens = true := by
  induction h with
  | @constant literal =>
      simp only [tokens, Literal.tokens]
      split <;> rfl
  | symbol => simp [tokens, Token.wellSpaced, Token.canPrecede]
  | power _ _ ihb ihx | quotient _ _ ihb ihx =>
      exact Token.wellSpaced_separated rfl (Token.wellSpaced_enclosed _ ihb)
        (Token.wellSpaced_enclosed _ ihx)
  | group _ ih => exact Token.wellSpaced_enclosed true ih
  | sum _ _ _ ihh ihr =>
      exact Token.wellSpaced_behindSeparator rfl (Token.wellSpaced_enclosed _ ihh) ihr
  | @call name head rest _ _ _ ihh ihr =>
      have harguments : Token.wellSpaced
          (head.tokens ++ tokensBehind [.comma] (fun _ => false) rest) = true :=
        Token.wellSpaced_behindSeparator rfl ihh ihr
      have hcall := Token.wellSpaced_enclosed true harguments
      simpa [tokens, Token.wellSpaced, Token.canPrecede, enclosed] using hcall
  | @product head rest implicit _ _ hr ihh ihr =>
      simp only [tokens]
      split
      · next hj =>
        simp only [isJuxtaposed, List.drop_succ_cons, List.drop_zero, Bool.and_eq_true,
          List.all_eq_true] at hj
        refine Token.wellSpaced_tokensBehind ?_ fun e he =>
          ⟨Token.wellSpaced_enclosed _ (ihr e he),
            startsWithBase_of_canFollow (hj.2 e he) (hr e he)⟩
        split
        · rfl
        · exact Token.wellSpaced_enclosed _ ihh
      · exact Token.wellSpaced_behindSeparator rfl (Token.wellSpaced_enclosed _ ihh) ihr

end Expr

end TermGrouping
