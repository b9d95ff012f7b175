import TermGrouping.Proofs.Writing.Scanning

/-! Fractions in written forms. The slash of a fraction is read as one token with its digits, but
not in an exponent, so a tree is written without trouble if no exponent starts with a fraction.
-/

namespace TermGrouping

namespace Token

/-- Fractions fit in two lists in a row if they fit in each, where the first decides what the second
may start with. -/
theorem fractionsFit_append {fractionAllowed : Bool} {left right : List Token}
    : fractionsFit fractionAllowed (left ++ right) = true
      ↔ fractionsFit fractionAllowed left = true
        ∧ fractionsFit (left.foldl Token.fractionAfter fractionAllowed) right = true := by
  induction left generalizing fractionAllowed with
  | nil => simp [fractionsFit]
  | cons token left ih => simp [fractionsFit, ih, and_assoc]

/-- Where no fraction may stand, no more tokens fit than elsewhere. -/
theorem fractionsFit_true {fractionAllowed : Bool} {tokens : List Token}
    (h : fractionsFit fractionAllowed tokens = true)
    : fractionsFit true tokens = true := by
  induction tokens generalizing fractionAllowed with
  | nil => rfl
  | cons token rest ih =>
      simp only [fractionsFit, Bool.and_eq_true] at h ⊢
      refine ⟨rfl, ?_⟩
      cases token with
      | sign value => exact ih h.2
      | _ => exact h.2

/-- If fractions fit in a list, they fit in its parts. -/
theorem fractionsFit_parts {left right : List Token}
    (h : fractionsFit true (left ++ right) = true)
    : fractionsFit true left = true ∧ fractionsFit true right = true := by
  obtain ⟨hl, hr⟩ := fractionsFit_append.mp h
  exact ⟨hl, fractionsFit_true hr⟩

theorem fractionsFit_tail {token : Token} {rest : List Token}
    (h : fractionsFit true (token :: rest) = true)
    : fractionsFit true rest = true := by
  simp only [fractionsFit, Bool.and_eq_true] at h
  exact fractionsFit_true h.2

/-- If fractions fit in a power, none stands in its exponent. -/
theorem fractionsFit_power {left right : List Token}
    (h : fractionsFit true (left ++ .caret :: right) = true)
    : fractionsFit true left = true ∧ fractionsFit false right = true := by
  obtain ⟨hl, hr⟩ := fractionsFit_append.mp h
  simp only [fractionsFit, Bool.and_eq_true] at hr
  exact ⟨hl, hr.2⟩

theorem fractionsFit_enclosed {needed : Bool} {tokens : List Token}
    (h : fractionsFit true (Expr.enclosed needed tokens) = true)
    : fractionsFit true tokens = true := by
  cases needed with
  | false => exact h
  | true => exact (fractionsFit_parts (fractionsFit_tail h)).1

theorem fractionsFit_tokensBehind {separator : List Token} {needed : Expr → Bool}
    {es : List Expr} (h : fractionsFit true (Expr.tokensBehind separator needed es) = true)
    : ∀ e ∈ es, fractionsFit true e.tokens = true := by
  induction es with
  | nil => simp
  | cons e es ih =>
      obtain ⟨he, hes⟩ := fractionsFit_parts h
      exact List.forall_mem_cons.mpr
        ⟨fractionsFit_enclosed (fractionsFit_parts he).2, ih hes⟩

theorem fractionsFit_literal (literal : Literal)
    : fractionsFit true literal.tokens = true := by
  unfold Literal.tokens
  split <;> simp [fractionsFit, Token.fractionAfter]

/-- If fractions fit in a product, they fit in its factors; a coefficient that is written as a
sign is no fraction. -/
theorem fractionsFit_product {head : Expr} {rest : List Expr} {implicit : Bool}
    (h : fractionsFit true (Expr.product (head :: rest) implicit).tokens = true)
    : fractionsFit true head.tokens = true ∧ ∀ e ∈ rest, fractionsFit true e.tokens = true := by
  simp only [Expr.tokens] at h
  split at h
  · obtain ⟨hl, hr⟩ := fractionsFit_parts h
    refine ⟨?_, fractionsFit_tokensBehind hr⟩
    split at hl
    · next hm =>
      cases head with
      | constant literal => exact fractionsFit_literal literal
      | _ => simp [Expr.isMinusOne] at hm
    · exact fractionsFit_enclosed hl
  · obtain ⟨hl, hr⟩ := fractionsFit_parts h
    exact ⟨fractionsFit_enclosed hl, fractionsFit_tokensBehind hr⟩

end Token

-----------------------------------------------------------------------------------------
-- Fractions behind and inside brackets
-----------------------------------------------------------------------------------------

namespace Expr

/-- Behind a list of trees that is not empty, or starts where a fraction may stand, a fraction may
stand. -/
theorem fractionAfter_tokensBehind {separator : List Token} {needed : Expr → Bool}
    {es : List Expr}
    (h : ∀ e ∈ es, ∀ allowed,
      (enclosed (needed e) e.tokens).foldl Token.fractionAfter allowed = true)
    {allowed : Bool} (ha : es = [] → allowed = true)
    : (tokensBehind separator needed es).foldl Token.fractionAfter allowed = true := by
  induction es generalizing allowed with
  | nil => exact ha rfl
  | cons e es ih =>
      obtain ⟨he, hes⟩ := List.forall_mem_cons.mp h
      simp only [tokensBehind, List.foldl_append, he]
      exact ih hes fun _ => rfl

theorem fractionAfter_enclosed {needed : Bool} {tokens : List Token}
    (h : ∀ allowed, tokens.foldl Token.fractionAfter allowed = true)
    : ∀ allowed, (enclosed needed tokens).foldl Token.fractionAfter allowed = true := by
  cases needed with
  | false => exact h
  | true =>
      intro allowed
      simp [enclosed, Token.fractionAfter]

/-- A fraction may stand behind every tree. -/
theorem IsReadable.fractionAfter {e : Expr} (h : e.IsReadable)
    : ∀ allowed, e.tokens.foldl Token.fractionAfter allowed = true := by
  induction h with
  | @constant literal =>
      intro allowed
      simp only [tokens, Literal.tokens]
      split <;> rfl
  | symbol =>
      intro allowed
      simp [tokens, Token.fractionAfter]
  | power _ _ _ ihx | quotient _ _ _ ihx =>
      intro allowed
      simp only [tokens, List.foldl_append, List.foldl_cons]
      exact fractionAfter_enclosed ihx _
  | sum hne _ _ _ ihr =>
      intro allowed
      simp only [tokens, List.foldl_append]
      exact fractionAfter_tokensBehind (fun e he => fractionAfter_enclosed (ihr e he))
        fun h => absurd h hne
  | product _ hne _ _ _ ihr =>
      intro allowed
      simp only [tokens]
      split <;> rw [List.foldl_append]
      · exact fractionAfter_tokensBehind (fun e he => fractionAfter_enclosed (ihr e he))
          fun h => absurd h hne
      · exact fractionAfter_tokensBehind (fun e he => fractionAfter_enclosed (ihr e he))
          fun h => absurd h hne
  | group _ ih => exact fractionAfter_enclosed ih
  | call =>
      intro allowed
      simp [tokens, enclosed, Token.fractionAfter]

/-- Fractions fit in brackets, whatever may stand in front of them. -/
theorem fractionsFit_enclosed_of {needed fractionAllowed : Bool} {tokens : List Token}
    (h : needed = false → Token.fractionsFit fractionAllowed tokens = true)
    (ht : Token.fractionsFit true tokens = true)
    : Token.fractionsFit fractionAllowed (enclosed needed tokens) = true := by
  cases needed with
  | false => exact h rfl
  | true =>
      have hclosing := Token.fractionsFit_append.mpr
        ⟨ht, show Token.fractionsFit (tokens.foldl Token.fractionAfter true) [.closing] = true by
          simp [Token.fractionsFit, Token.isFraction]⟩
      simpa [enclosed, Token.fractionsFit, Token.isFraction, Token.fractionAfter] using hclosing

theorem fractionsFit_bracketed (needed : Bool) {tokens : List Token}
    (h : Token.fractionsFit true tokens = true)
    : Token.fractionsFit true (enclosed needed tokens) = true :=
  fractionsFit_enclosed_of (fun _ => h) h

/-- Fractions fit in a list of trees if they fit in each, and if none can stand at its front. -/
theorem fractionsFit_behind {separator : List Token} {needed : Expr → Bool} {es : List Expr}
    (hs : Token.fractionsFit true separator = true)
    (ha : separator.foldl Token.fractionAfter true = true)
    (hr : ∀ e ∈ es, e.IsReadable) (h : ∀ e ∈ es, Token.fractionsFit true e.tokens = true)
    : Token.fractionsFit true (tokensBehind separator needed es) = true := by
  induction es with
  | nil => rfl
  | cons e es ih =>
      obtain ⟨he, hes⟩ := List.forall_mem_cons.mp h
      obtain ⟨hre, hres⟩ := List.forall_mem_cons.mp hr
      simp only [tokensBehind, Token.fractionsFit_append, List.foldl_append, ha,
        fractionAfter_enclosed hre.fractionAfter]
      exact ⟨⟨hs, fractionsFit_bracketed _ he⟩, ih hres hes⟩

-----------------------------------------------------------------------------------------
-- Fractions in trees
-----------------------------------------------------------------------------------------

/-- Whether a tree starts with a fraction when it is written without brackets. -/
def leadsWithFraction : Expr → Bool
  | constant literal => literal.numeral.isFraction
  | power base _ => base.basePlain && base.leadsWithFraction
  | _ => false

/-- Whether a node is no power with an exponent that starts with a fraction. -/
def exponentFits : Expr → Bool
  | power _ exponent => !exponent.leadsWithFraction
  | _ => true

/-- Fractions fit in a readable tree if they fit in its exponents, and in an exponent too, if it
does not start with one. -/
theorem IsReadable.fractionsFit_exponent {e : Expr} (h : e.IsReadable)
    (hx : ∀ node ∈ e.subtrees, node.exponentFits = true)
    : Token.fractionsFit true e.tokens = true
      ∧ (e.bracketedLater = false → e.leadsWithFraction = false
        → Token.fractionsFit false e.tokens = true) := by
  induction h with
  | @constant literal hl =>
      refine ⟨Token.fractionsFit_literal literal, fun _ hlead => ?_⟩
      have hn : literal.numeral.isFraction = false := hlead
      simp only [tokens, Literal.tokens]
      split <;> simp [Token.fractionsFit, Token.isFraction, Token.fractionAfter, hn]
  | symbol => simp [tokens, Token.fractionsFit, Token.isFraction]
  | @power base exponent hb _ ihb ihx =>
      obtain ⟨hnode, hc⟩ := forall_subtrees.mp hx
      obtain ⟨hbase, hbase'⟩ := ihb (hc _ (.head _))
      obtain ⟨hexponent, hexponent'⟩ := ihx (hc _ (.tail _ (.head _)))
      have hlater (hplain : (!base.basePlain) = false) : base.bracketedLater = false := by
        cases base <;> simp_all [basePlain, bracketedLater]
      have hfit : Token.fractionsFit false
          (enclosed exponent.bracketedLater exponent.tokens) = true :=
        fractionsFit_enclosed_of (fun hb => hexponent' hb (by simpa [exponentFits] using hnode))
          hexponent
      have hpower {fractionAllowed : Bool}
          (hb : base.basePlain = true → Token.fractionsFit fractionAllowed base.tokens = true)
          : Token.fractionsFit fractionAllowed (Expr.power base exponent).tokens = true := by
        refine Token.fractionsFit_append.mpr
          ⟨fractionsFit_enclosed_of (fun hplain => hb (by simpa using hplain)) hbase, ?_⟩
        simpa [Token.fractionsFit, Token.isFraction, Token.fractionAfter] using hfit
      refine ⟨hpower fun _ => hbase, fun _ hlead => hpower fun hplain => ?_⟩
      rw [leadsWithFraction, hplain, Bool.true_and] at hlead
      exact hbase' (hlater (by simpa using hplain)) hlead
  | @sum head rest _ hh hr ihh ihr =>
      have hc := (forall_subtrees.mp hx).2
      refine ⟨?_, fun hb => by simp [bracketedLater] at hb⟩
      have hhead := (ihh (hc _ (.head _))).1
      refine Token.fractionsFit_append.mpr ⟨fractionsFit_bracketed _ hhead, ?_⟩
      rw [fractionAfter_enclosed hh.fractionAfter]
      exact fractionsFit_behind rfl rfl hr fun e he => (ihr e he (hc e (.tail _ he))).1
  | @product head rest implicit _ hh hr ihh ihr =>
      have hc := (forall_subtrees.mp hx).2
      refine ⟨?_, fun hb => by simp [bracketedLater] at hb⟩
      have hhead := (ihh (hc _ (.head _))).1
      have hfirst := fractionsFit_bracketed head.bracketedFirst hhead
      simp only [tokens]
      split <;> refine Token.fractionsFit_append.mpr ⟨?_, ?_⟩
      · split
        · rfl
        · exact hfirst
      · have hafter : (if head.isMinusOne then [Token.sign .minus]
            else enclosed head.bracketedFirst head.tokens).foldl Token.fractionAfter true
            = true := by
          split
          · rfl
          · exact fractionAfter_enclosed hh.fractionAfter true
        rw [hafter]
        exact fractionsFit_behind rfl rfl hr fun e he => (ihr e he (hc e (.tail _ he))).1
      · exact hfirst
      · rw [fractionAfter_enclosed hh.fractionAfter]
        exact fractionsFit_behind rfl rfl hr fun e he => (ihr e he (hc e (.tail _ he))).1
  | group _ ih =>
      have hc := (forall_subtrees.mp hx).2
      have hinner := (ih (hc _ (.head _))).1
      exact ⟨fractionsFit_bracketed true hinner, fun _ _ =>
        fractionsFit_enclosed_of (fun h => Bool.noConfusion h) hinner⟩
  | @call name head rest _ hh hr ihh ihr =>
      have hc := (forall_subtrees.mp hx).2
      have hhead := (ihh (hc _ (.head _))).1
      have hrest : Token.fractionsFit true (tokensBehind [.comma] (fun _ => false) rest) = true :=
        fractionsFit_behind rfl rfl hr fun e he => (ihr e he (hc e (.tail _ he))).1
      have harguments : Token.fractionsFit true
          (head.tokens ++ tokensBehind [.comma] (fun _ => false) rest) = true :=
        Token.fractionsFit_append.mpr ⟨hhead, by rw [hh.fractionAfter]; exact hrest⟩
      have hcall := fractionsFit_bracketed true harguments
      constructor
      · simpa [tokens, Token.fractionsFit, Token.isFraction, Token.fractionAfter] using hcall
      · intro _ _
        simpa [tokens, Token.fractionsFit, Token.isFraction, Token.fractionAfter] using hcall
  | quotient hrn _ ihn ihd =>
      have hc := (forall_subtrees.mp hx).2
      refine ⟨?_, fun hb => by simp [bracketedLater] at hb⟩
      have hn := (ihn (hc _ (.head _))).1
      have hd := (ihd (hc _ (.tail _ (.head _)))).1
      refine Token.fractionsFit_append.mpr ⟨fractionsFit_bracketed _ hn, ?_⟩
      simpa [Token.fractionsFit, Token.isFraction, Token.fractionAfter]
        using fractionsFit_bracketed _ hd

/-- An exponent in which fractions fit does not start with one. -/
theorem IsReadable.leadsWithFraction_eq_false {e : Expr} (h : e.IsReadable)
    (hf : Token.fractionsFit false e.tokens = true)
    : e.leadsWithFraction = false := by
  induction h with
  | @constant literal =>
      simp only [tokens, Literal.tokens] at hf
      split at hf
      all_goals
        simpa [Token.fractionsFit, Token.isFraction, Token.fractionAfter, leadsWithFraction]
          using hf
  | @power base exponent _ _ ihb _ =>
      rw [leadsWithFraction]
      cases hplain : base.basePlain with
      | false => rfl
      | true =>
          have hbase := (Token.fractionsFit_append.mp hf).1
          rw [hplain] at hbase
          exact ihb hbase
  | _ => rfl

/-- Fractions fit in a readable tree exactly if they fit in all its exponents. -/
theorem IsReadable.fractionsFit_iff {e : Expr} (h : e.IsReadable)
    : Token.fractionsFit true e.tokens = true
      ↔ ∀ node ∈ e.subtrees, node.exponentFits = true := by
  refine ⟨fun hf => ?_, fun hx => (h.fractionsFit_exponent hx).1⟩
  induction h with
  | constant | symbol => exact List.forall_mem_singleton.mpr rfl
  | @power base exponent hb hx ihb ihx =>
      obtain ⟨hl, hr⟩ := Token.fractionsFit_power hf
      have hnode : exponent.leadsWithFraction = false := by
        cases hlater : exponent.bracketedLater with
        | false =>
            rw [hlater] at hr
            exact hx.leadsWithFraction_eq_false hr
        | true => cases exponent <;> simp_all [bracketedLater, leadsWithFraction]
      refine forall_subtrees.mpr ⟨by simp [exponentFits, hnode], ?_⟩
      exact List.forall_mem_cons.mpr ⟨ihb (Token.fractionsFit_enclosed hl),
        List.forall_mem_singleton.mpr
          (ihx (Token.fractionsFit_enclosed (Token.fractionsFit_true hr)))⟩
  | quotient _ _ ihn ihd =>
      obtain ⟨hl, hr⟩ := Token.fractionsFit_parts hf
      refine forall_subtrees.mpr ⟨rfl, List.forall_mem_cons.mpr ⟨?_, ?_⟩⟩
      · exact ihn (Token.fractionsFit_enclosed hl)
      · exact List.forall_mem_singleton.mpr
          (ihd (Token.fractionsFit_enclosed (Token.fractionsFit_tail hr)))
  | group _ ih =>
      exact forall_subtrees.mpr
        ⟨rfl, List.forall_mem_singleton.mpr (ih (Token.fractionsFit_enclosed hf))⟩
  | sum _ _ _ ihh ihr =>
      obtain ⟨hl, hr⟩ := Token.fractionsFit_parts hf
      refine forall_subtrees.mpr ⟨rfl, List.forall_mem_cons.mpr ⟨?_, ?_⟩⟩
      · exact ihh (Token.fractionsFit_enclosed hl)
      · exact fun e he => ihr e he (Token.fractionsFit_tokensBehind hr e he)
  | product _ _ _ _ ihh ihr =>
      obtain ⟨hl, hr⟩ := Token.fractionsFit_product hf
      exact forall_subtrees.mpr
        ⟨rfl, List.forall_mem_cons.mpr ⟨ihh hl, fun e he => ihr e he (hr e he)⟩⟩
  | call _ _ _ ihh ihr =>
      obtain ⟨hl, hr⟩ := Token.fractionsFit_parts
        (Token.fractionsFit_enclosed (Token.fractionsFit_tail hf))
      refine forall_subtrees.mpr ⟨rfl, List.forall_mem_cons.mpr ⟨ihh hl, ?_⟩⟩
      exact fun e he => ihr e he (Token.fractionsFit_tokensBehind hr e he)

end Expr

end TermGrouping
