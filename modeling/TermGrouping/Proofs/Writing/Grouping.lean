import TermGrouping.Proofs.WellFormed
import TermGrouping.Proofs.Writing.Regrouping

/-! Written forms that show the grouping of a tree. If every implicit product is a coefficient in
front of a symbol or of its power, the text of a tree is read as the same tree, operators inside
their own kind included.
-/

namespace TermGrouping

-----------------------------------------------------------------------------------------
-- Trees as collecting leaves them
-----------------------------------------------------------------------------------------

/-- A constant without a text, or with a numeral of its value as its text that has a minus sign in
front exactly if the value is negative. -/
def Literal.IsFaithful (literal : Literal) : Prop :=
  literal.text = none
  ∨ ∃ n : Numeral, n.IsReadable
    ∧ literal.text
      = some (String.ofList (if literal.value < 0 then '-' :: n.spelling else n.spelling))
    ∧ literal.value = if literal.value < 0 then -n.value else n.value

namespace Expr

def isSlashed : Expr → Bool
  | constant literal => literal.written.contains '/'
  | _ => false

/-- Whether the factors of a product are a coefficient and a symbol or the power of a symbol. -/
def isMonomial : List Expr → Bool
  | [constant _, symbol _] | [constant _, power (symbol _) _] => true
  | _ => false

/-- A node that is written as a reader would expect: one letter for a symbol, more for a function,
no fraction in a power, and a sign between all factors but a coefficient and a symbol. -/
def IsPlainNode : Expr → Prop
  | constant literal => literal.IsFaithful
  | symbol name => ∃ letter, Text.isLetter letter = true ∧ name = String.singleton letter
  | power base exponent => base.isSlashed = false ∧ exponent.isSlashed = false
  | product factors implicit => implicit = true → isMonomial factors = true
  | call name arguments => (Token.callee name.toList).IsReadable ∧ arguments ≠ []
  | sum _ | group _ | quotient _ _ | foreign _ => True

/-- A well-formed tree of plain nodes. -/
def IsPlain (e : Expr) : Prop := e.WellFormed ∧ ∀ node ∈ e.subtrees, node.IsPlainNode

/-- A tree is plain if its root is faultless and plain and its children are plain trees. -/
theorem isPlain_iff {e : Expr}
    : e.IsPlain ↔ e.fault? = none ∧ e.IsPlainNode ∧ ∀ child ∈ e.children, child.IsPlain := by
  unfold IsPlain
  rw [wellFormed_iff, forall_subtrees]
  constructor
  · rintro ⟨⟨hfault, hw⟩, hnode, hn⟩
    exact ⟨hfault, hnode, fun child hc => ⟨hw child hc, hn child hc⟩⟩
  · rintro ⟨hfault, hnode, hc⟩
    exact ⟨⟨hfault, fun child h => (hc child h).1⟩, hnode, fun child h => (hc child h).2⟩

end Expr

/-- A faithful constant is readable, and has a sign exactly if it is negative. -/
theorem Literal.IsFaithful.isReadable {literal : Literal} (h : literal.IsFaithful)
    : literal.IsReadable ∧ literal.isSigned = decide (literal.value < 0) := by
  rcases h with h | ⟨n, hn, ht, hv⟩
  · obtain ⟨hr, hs, _⟩ := isReadable_of_text_eq_none h
    exact ⟨hr, hs⟩
  · have hw : literal.written
        = if literal.value < 0 then '-' :: n.spelling else n.spelling := by
      simp [Literal.written, ht]
    obtain ⟨hr, hs, _⟩ := isReadable_of_written (decide (literal.value < 0)) hn
      (by simpa using hw) (by simpa using hv)
    exact ⟨hr, hs⟩

namespace Expr

/-- A plain tree is readable. -/
theorem IsPlain.isReadable {e : Expr} (h : e.IsPlain) : e.IsReadable := by
  induction e using Expr.induct with
  | constant literal =>
      obtain ⟨_, hnode, _⟩ := isPlain_iff.mp h
      exact .constant hnode.isReadable.1
  | symbol name =>
      obtain ⟨_, ⟨letter, hl, rfl⟩, _⟩ := isPlain_iff.mp h
      exact .symbol hl
  | power base exponent ihb ihx =>
      obtain ⟨_, _, hc⟩ := isPlain_iff.mp h
      exact .power (ihb (hc _ (.head _))) (ihx (hc _ (.tail _ (.head _))))
  | sum operands ih =>
      obtain ⟨_, _, hc⟩ := isPlain_iff.mp h
      have hlength := (wellFormed_sum.mp h.1).1
      match operands, hlength with
      | head :: next :: rest, _ =>
          exact .sum (List.cons_ne_nil _ _) (ih _ (.head _) (hc _ (.head _)))
            fun e he => ih e (.tail _ he) (hc e (.tail _ he))
  | product operands implicit ih =>
      obtain ⟨_, _, hc⟩ := isPlain_iff.mp h
      have hlength := (wellFormed_product.mp h.1).1
      match operands, hlength with
      | head :: next :: rest, _ =>
          exact .product implicit (List.cons_ne_nil _ _) (ih _ (.head _) (hc _ (.head _)))
            fun e he => ih e (.tail _ he) (hc e (.tail _ he))
  | group inner ih =>
      obtain ⟨_, _, hc⟩ := isPlain_iff.mp h
      exact .group (ih (hc _ (.head _)))
  | call name arguments ih =>
      obtain ⟨_, ⟨hname, hne⟩, hc⟩ := isPlain_iff.mp h
      obtain ⟨head, rest, rfl⟩ := List.exists_cons_of_ne_nil hne
      exact .call hname (ih _ (.head _) (hc _ (.head _)))
        fun e he => ih e (.tail _ he) (hc e (.tail _ he))
  | quotient numerator denominator ihn ihd =>
      obtain ⟨_, _, hc⟩ := isPlain_iff.mp h
      exact .quotient (ihn (hc _ (.head _))) (ihd (hc _ (.tail _ (.head _))))
  | foreign value => exact absurd h.1 (not_wellFormed_foreign value)

/-- No base of a plain tree has a sign, because a base without brackets is not negative. -/
theorem IsPlain.hasSignedBase {e : Expr} (h : e.IsPlain)
    : ∀ node ∈ e.subtrees, node.hasSignedBase = false := by
  induction e using Expr.induct_children with
  | step e ih =>
      obtain ⟨_, _, hc⟩ := isPlain_iff.mp h
      refine forall_subtrees.mpr ⟨?_, fun child hm => ih child hm (hc child hm)⟩
      unfold Expr.hasSignedBase
      split
      · rename_i literal exponent _ _
        obtain ⟨_, hfaithful, _⟩ := isPlain_iff.mp (hc (constant literal) (.head _))
        rw [Literal.IsFaithful.isReadable hfaithful |>.2, basePlain]
        by_cases hv : literal.value < 0
        · simp [hv, not_le.mpr hv]
        · simp [hv]
      · rfl

end Expr

-----------------------------------------------------------------------------------------
-- Fractions of plain trees
-----------------------------------------------------------------------------------------

namespace Expr

/-- A constant that is not written with a slash is no fraction. -/
theorem isFraction_of_not_isSlashed {literal : Literal} (hl : literal.IsReadable)
    (h : (constant literal).isSlashed = false)
    : literal.numeral.isFraction = false := by
  cases hn : literal.numeral with
  | decimal => rfl
  | fraction =>
      have hw := hl.written
      rw [hn] at hw
      split at hw <;> simp [isSlashed, hw, Numeral.spelling] at h

/-- No exponent of a plain tree starts with a fraction. -/
theorem IsPlain.exponentFits {e : Expr} (h : e.IsPlain)
    : ∀ node ∈ e.subtrees, node.exponentFits = true := by
  induction e using Expr.induct_children with
  | step e ih =>
      obtain ⟨_, hnode, hc⟩ := isPlain_iff.mp h
      refine forall_subtrees.mpr ⟨?_, fun child hm => ih child hm (hc child hm)⟩
      have hfirst (literal : Literal) (hp : (constant literal).IsPlain)
          (hs : (constant literal).isSlashed = false)
          : literal.numeral.isFraction = false := by
        cases hp.isReadable with
        | constant hl => exact isFraction_of_not_isSlashed hl hs
      cases e with
      | power base exponent =>
          have hx : exponent.IsPlain := hc _ (.tail _ (.head _))
          have hlead : exponent.leadsWithFraction = false := by
            cases exponent with
            | constant literal => exact hfirst literal hx hnode.2
            | power inner _ =>
                obtain ⟨_, ⟨hslash, _⟩, hinner⟩ := isPlain_iff.mp hx
                cases inner with
                | constant literal =>
                    rw [leadsWithFraction, leadsWithFraction,
                      hfirst literal (hinner _ (.head _)) hslash, Bool.and_false]
                | power => rfl
                | _ => exact Bool.and_false _
            | _ => rfl
          rw [Expr.exponentFits, hlead]
          rfl
      | _ => rfl

end Expr

-----------------------------------------------------------------------------------------
-- Neighbours in plain trees
-----------------------------------------------------------------------------------------

namespace Token

theorem reachesBracket_append {token : Token} (h : token.separates = true)
    (left right : List Token)
    : reachesBracket (left ++ token :: right) = reachesBracket left := by
  induction left with
  | nil => cases token <;> simp_all [separates, reachesBracket]
  | cons first left ih => cases first <;> simp_all [reachesBracket]

/-- Tokens on either side of a separator stand apart. -/
theorem allApart_append {left right : List Token} {token : Token} (ht : token.separates = true)
    (hl : allApart left = true) (hr : allApart right = true)
    : allApart (left ++ token :: right) = true := by
  induction left with
  | nil => cases token <;> simp_all [separates, allApart, standsApart]
  | cons first left ih =>
      simp only [List.cons_append, allApart, Bool.and_eq_true] at hl ⊢
      refine ⟨?_, ih hl.2⟩
      have hbracket := reachesBracket_append ht left right
      cases left with
      | nil => cases first <;> cases token <;> simp_all [separates, standsApart, isNumeral, isWord]
      | cons next left => cases first <;> simp_all [standsApart]

theorem allApart_enclosed (needed : Bool) {tokens : List Token} (h : allApart tokens = true)
    : allApart (Expr.enclosed needed tokens) = true := by
  cases needed with
  | false => exact h
  | true =>
      change allApart ((.opening :: tokens) ++ .closing :: []) = true
      exact allApart_append rfl h rfl

/-- A coefficient stands apart from a symbol behind it. -/
theorem allApart_coefficient (minusOne : Bool) (literal : Literal) {letter : Char}
    {rest : List Token} (h : allApart (.symbol letter :: rest) = true)
    : allApart ((if minusOne then [.sign .minus] else literal.tokens) ++ .symbol letter :: rest)
      = true := by
  have hnumeral : allApart (.numeral literal.numeral :: .symbol letter :: rest) = true := by
    rw [allApart, h]
    rfl
  unfold Literal.tokens
  split
  · exact h
  · split
    · exact hnumeral
    · exact hnumeral

/-- Trees behind separators stand apart if the tokens of each do. -/
theorem allApart_tokensBehind {separator : Token} {needed : Expr → Bool} {es : List Expr}
    {left : List Token} (hs : separator.separates = true) (hl : allApart left = true)
    (h : ∀ e ∈ es, allApart e.tokens = true)
    : allApart (left ++ Expr.tokensBehind [separator] needed es) = true := by
  induction es generalizing left with
  | nil => simpa [Expr.tokensBehind] using hl
  | cons e es ih =>
      obtain ⟨he, hes⟩ := List.forall_mem_cons.mp h
      have hnext := allApart_append hs hl (allApart_enclosed (needed e) he)
      simpa [Expr.tokensBehind] using ih hnext hes

end Token

namespace Expr

/-- The factors of a monomial are a constant and a symbol or a power of one. -/
theorem eq_of_isMonomial {head : Expr} {rest : List Expr} (h : isMonomial (head :: rest) = true)
    : ∃ literal e, head = constant literal ∧ rest = [e]
      ∧ ((∃ name, e = symbol name) ∨ ∃ name exponent, e = power (symbol name) exponent) := by
  unfold isMonomial at h
  split at h
  · next heq =>
    obtain ⟨rfl, rfl⟩ := List.cons.inj heq
    exact ⟨_, _, rfl, rfl, .inl ⟨_, rfl⟩⟩
  · next heq =>
    obtain ⟨rfl, rfl⟩ := List.cons.inj heq
    exact ⟨_, _, rfl, rfl, .inr ⟨_, _, rfl⟩⟩
  · cases h

/-- A symbol of a plain tree, and a power of it, starts with a letter. -/
theorem IsPlain.tokens_eq_symbol {e : Expr} (h : e.IsPlain)
    (he : (∃ name, e = symbol name) ∨ ∃ name exponent, e = power (symbol name) exponent)
    : ∃ letter tail, e.tokens = .symbol letter :: tail := by
  obtain ⟨_, hnode, hc⟩ := isPlain_iff.mp h
  rcases he with ⟨name, rfl⟩ | ⟨name, exponent, rfl⟩
  · obtain ⟨letter, _, rfl⟩ := hnode
    exact ⟨letter, [], by simp [tokens]⟩
  · obtain ⟨_, ⟨letter, _, rfl⟩, _⟩ := isPlain_iff.mp (hc _ (.head _))
    refine ⟨letter, .caret :: enclosed exponent.bracketedLater exponent.tokens, ?_⟩
    simp [tokens, basePlain, enclosed]

/-- The tokens of a plain tree stand apart. -/
theorem IsPlain.allApart {e : Expr} (h : e.IsPlain) : Token.allApart e.tokens = true := by
  have hreadable := h.isReadable
  induction hreadable with
  | @constant literal =>
      simp only [tokens, Literal.tokens]
      split <;> rfl
  | symbol => simp [tokens, Token.allApart, Token.standsApart]
  | power _ _ ihb ihx =>
      obtain ⟨_, _, hc⟩ := isPlain_iff.mp h
      exact Token.allApart_append rfl (Token.allApart_enclosed _ (ihb (hc _ (.head _))))
        (Token.allApart_enclosed _ (ihx (hc _ (.tail _ (.head _)))))
  | quotient _ _ ihb ihx =>
      obtain ⟨_, _, hc⟩ := isPlain_iff.mp h
      exact Token.allApart_append rfl (Token.allApart_enclosed _ (ihb (hc _ (.head _))))
        (Token.allApart_enclosed _ (ihx (hc _ (.tail _ (.head _)))))
  | sum _ _ _ ihh ihr =>
      obtain ⟨_, _, hc⟩ := isPlain_iff.mp h
      exact Token.allApart_tokensBehind rfl (Token.allApart_enclosed _ (ihh (hc _ (.head _))))
        fun e he => ihr e he (hc e (.tail _ he))
  | @product head rest implicit _ hh _ ihh ihr =>
      obtain ⟨_, hmonomial, hc⟩ := isPlain_iff.mp h
      have hhead := ihh (hc _ (.head _))
      simp only [tokens]
      split
      · next hj =>
        simp only [isJuxtaposed, Bool.and_eq_true] at hj
        obtain ⟨literal, e, rfl, rfl, he⟩ := eq_of_isMonomial (hmonomial hj.1)
        have hplain := hc e (.tail _ (.head _))
        have hapart := ihr e (.head _) hplain
        obtain ⟨letter, tail, ht⟩ := hplain.tokens_eq_symbol he
        have hlater : e.bracketedLater = false := by
          rcases he with ⟨name, rfl⟩ | ⟨name, exponent, rfl⟩ <;> rfl
        rw [ht] at hapart
        simpa [tokens, tokensBehind, enclosed, bracketedFirst, hlater, ht]
          using Token.allApart_coefficient _ literal hapart
      · exact Token.allApart_tokensBehind rfl (Token.allApart_enclosed _ hhead)
          fun e he => ihr e he (hc e (.tail _ he))
  | group _ ih => exact Token.allApart_enclosed _ (ih ((isPlain_iff.mp h).2.2 _ (.head _)))
  | @call name head rest _ _ _ ihh ihr =>
      obtain ⟨_, _, hc⟩ := isPlain_iff.mp h
      have harguments : Token.allApart
          (head.tokens ++ tokensBehind [.comma] (fun _ => false) rest) = true :=
        Token.allApart_tokensBehind rfl (ihh (hc _ (.head _)))
          fun e he => ihr e he (hc e (.tail _ he))
      have hbrackets := Token.allApart_enclosed true harguments
      simpa [tokens, Token.allApart, Token.standsApart, enclosed] using hbrackets

/-- A plain tree has a text, and the text is read as a tree that differs from it in groups and
nested operators alone: operators of one kind that stand inside each other are not spliced. -/
theorem text_shows_grouping {e : Expr} (h : e.IsPlain)
    : ∃ text u, e.text = .ok text ∧ parse text = .ok u
      ∧ Alike u.spliced.ungrouped e.ungrouped := by
  have hsigned := h.hasSignedBase
  have hfits := h.isReadable.fractionsFit_iff.mpr h.exponentFits
  obtain ⟨text, htext, hparse⟩ :=
    h.isReadable.parse_text hfits h.allApart (hidesSign_of_hasSignedBase hsigned)
  exact ⟨text, e.reread, htext, hparse, h.isReadable.alike_reread hsigned⟩

/-- Collecting puts a sum inside a sum; in the text it stands in brackets, so it is not taken
for a part of the sum around it. -/
theorem text_shows_grouping_bundles
    : (sum [sum [symbol "x", product [constant ⟨-1, false, none⟩, symbol "x"] true],
        constant ⟨-1 / 2, true, some "-1/2"⟩]).IsPlain
      ∧ ∃ text u, (sum [sum [symbol "x", product [constant ⟨-1, false, none⟩, symbol "x"] true],
          constant ⟨-1 / 2, true, some "-1/2"⟩]).text = .ok text
        ∧ parse text = .ok u
        ∧ Alike u.spliced.ungrouped
          (sum [sum [symbol "x", product [constant ⟨-1, false, none⟩, symbol "x"] true],
            constant ⟨-1 / 2, true, some "-1/2"⟩]).ungrouped := by
  have h : (sum [sum [symbol "x", product [constant ⟨-1, false, none⟩, symbol "x"] true],
      constant ⟨-1 / 2, true, some "-1/2"⟩]).IsPlain := by
    have hx : IsPlainNode (symbol "x") := ⟨'x', by decide, by decide⟩
    have hdigits : ∀ c ∈ ['1'] ++ ['2'], Text.isDigit c = true :=
      List.forall_mem_cons.mpr ⟨by decide, List.forall_mem_singleton.mpr (by decide)⟩
    have hhalf : IsPlainNode (constant ⟨-1 / 2, true, some "-1/2"⟩) :=
      .inr ⟨.fraction ['1'] ['2'], ⟨by simp, by simp, hdigits, by decide⟩, by decide +kernel,
        by decide +kernel⟩
    refine ⟨by decide, ?_⟩
    simp only [subtrees, subtreesAll, List.forall_mem_cons, List.cons_append, List.nil_append,
      List.append_nil]
    exact ⟨trivial, trivial, hx, fun _ => rfl, .inl rfl, hx, hhalf, by simp⟩
  exact ⟨h, text_shows_grouping h⟩

end Expr

end TermGrouping
