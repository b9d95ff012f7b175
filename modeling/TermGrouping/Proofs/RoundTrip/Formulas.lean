import Mathlib
import TermGrouping.Proofs.RoundTrip.Legible

/-! Formulas that can be read back. What is read from a text is written with the brackets of the
text, so it comes back exactly if its tokens stand apart; flattening removes brackets, and what is
left comes back exactly if it is legible.
-/

namespace TermGrouping

namespace Expr

/-- The nodes of a tree are legible if its root and the nodes of its children are. -/
theorem hasLegibleNodes_iff {e : Expr}
    : e.HasLegibleNodes ↔ e.IsLegibleNode ∧ ∀ child ∈ e.children, child.HasLegibleNodes :=
  forall_subtrees

theorem hasLegibleNodes_constant (literal : Literal) : (constant literal).HasLegibleNodes :=
  List.forall_mem_singleton.mpr ⟨rfl, rfl⟩

theorem hasLegibleNodes_product {operands : List Expr} (implicit : Bool)
    (h : ∀ e ∈ operands, e.HasLegibleNodes)
    : (product operands implicit).HasLegibleNodes :=
  hasLegibleNodes_iff.mpr ⟨⟨rfl, rfl⟩, h⟩

/-- Changing the sign of a tree changes a coefficient, and no power. -/
theorem HasLegibleNodes.opposite {e : Expr} (h : e.HasLegibleNodes)
    : e.opposite.HasLegibleNodes := by
  have hminus := hasLegibleNodes_constant .minusOne
  unfold Expr.opposite
  split
  · exact hasLegibleNodes_constant _
  · obtain ⟨_, hrest⟩ := List.forall_mem_cons.mp (hasLegibleNodes_iff.mp h).2
    exact hasLegibleNodes_product _
      (List.forall_mem_cons.mpr ⟨hasLegibleNodes_constant _, hrest⟩)
  · have hfactors := (hasLegibleNodes_iff.mp h).2
    exact hasLegibleNodes_product _ (List.forall_mem_cons.mpr ⟨hminus, hfactors⟩)
  · exact hasLegibleNodes_product _
      (List.forall_mem_cons.mpr ⟨hminus, List.forall_mem_singleton.mpr h⟩)

theorem HasLegibleNodes.signed {e : Expr} (h : e.HasLegibleNodes) (sign : Sign)
    : (sign.apply e).HasLegibleNodes := by
  cases sign with
  | plus => exact h
  | minus => exact h.opposite

/-- A sign does not make a fraction of an exponent. -/
theorem IsReadable.leadsWithFraction_signed {e : Expr} (h : e.IsReadable) (sign : Sign)
    (hlead : e.leadsWithFraction = false)
    : (sign.apply e).leadsWithFraction = false := by
  cases sign with
  | plus => exact hlead
  | minus =>
      change e.opposite.leadsWithFraction = false
      unfold Expr.opposite
      split
      · cases h with
        | constant hl => exact hl.opposite.2.trans hlead
      · rfl
      · rfl
      · rfl

end Expr

-----------------------------------------------------------------------------------------
-- Trees that a formula writes
-----------------------------------------------------------------------------------------

/-- A tight part is read as a whole, without brackets around it. -/
def Category.isTight : Category → Bool
  | atom | operand => true
  | _ => false

/-- What stands behind a caret is an exponent, or starts one. -/
def Category.isExponential : Category → Bool
  | exponent | operand => true
  | _ => false

/-- What the grammar grants of a part of a formula: its nodes are legible, a tight part is no
constant with a sign, and an exponent does not start with a fraction. -/
structure Category.Grants (category : Category) (e : Expr) : Prop where
  nodes : e.HasLegibleNodes
  unsigned : category.isTight = true → ∀ literal, e = .constant literal → literal.isSigned = false
  exponent : category.isExponential = true → e.leadsWithFraction = false

/-- A part that is neither tight nor an exponent has only to be legible. -/
theorem Category.Grants.of_loose {category : Category} {e : Expr} (h : e.HasLegibleNodes)
    (ht : category.isTight = false) (hx : category.isExponential = false)
    : category.Grants e where
  nodes := h
  unsigned htight := absurd (ht.symm.trans htight) Bool.false_ne_true
  exponent hexponential := absurd (hx.symm.trans hexponential) Bool.false_ne_true

/-- An exponent has to be legible and not to start with a fraction. -/
theorem Category.Grants.of_exponent {e : Expr} (h : e.HasLegibleNodes)
    (hlead : e.leadsWithFraction = false)
    : Category.exponent.Grants e where
  nodes := h
  unsigned htight := absurd htight Bool.false_ne_true
  exponent _ := hlead

/-- The base of a power in a formula has no sign, and its exponent does not start with a
fraction. -/
theorem Category.Grants.power {whole part : Category} {a b : Expr} (ha : whole.Grants a)
    (hb : part.Grants b) (hwhole : whole.isTight = true) (hpart : part.isExponential = true)
    : (Expr.power a b).HasLegibleNodes := by
  refine Expr.hasLegibleNodes_iff.mpr ⟨⟨?_, ?_⟩, ?_⟩
  · rw [Expr.exponentFits, hb.exponent hpart]
    rfl
  · cases a with
    | constant literal =>
        rw [Expr.hasSignedBase, ha.unsigned hwhole literal rfl, Bool.and_false]
    | _ => rfl
  · exact List.forall_mem_cons.mpr ⟨ha.nodes, List.forall_mem_singleton.mpr hb.nodes⟩

/-- Every part of a formula is as the grammar grants. -/
theorem Derives.grants {category : Category} {tokens : List Token} {e : Expr}
    (h : Derives category tokens e) (ht : ∀ token ∈ tokens, token.IsReadable)
    : category.Grants e := by
  induction h using Derives.induct fun tokens es => (∀ token ∈ tokens, token.IsReadable)
      → ∀ e ∈ es, e.HasLegibleNodes with
  | term _ ih | factor _ ih | unsigned _ ih | base _ ih =>
      exact .of_loose (ih ht).nodes rfl rfl
  | exponentBase _ ih =>
      exact .of_exponent (ih ht).nodes ((ih ht).exponent rfl)
  | atomOperand _ ih =>
      exact ⟨(ih ht).nodes, fun _ => (ih ht).unsigned rfl,
        fun hc => absurd hc Bool.false_ne_true⟩
  | terms sign _ _ ihl ihr =>
      obtain ⟨hl, hr⟩ := List.forall_mem_append.mp ht
      have hright := (ihr (List.forall_mem_cons.mp hr).2).nodes.signed sign
      refine .of_loose (Expr.hasLegibleNodes_iff.mpr ⟨⟨rfl, rfl⟩, ?_⟩) rfl rfl
      exact List.forall_mem_cons.mpr ⟨(ihl hl).nodes, List.forall_mem_singleton.mpr hright⟩
  | signed sign _ ih =>
      have hnodes := (ih (List.forall_mem_cons.mp ht).2).nodes
      exact .of_loose (hnodes.signed sign) rfl rfl
  | exponentSigned sign h ih =>
      have ht := (List.forall_mem_cons.mp ht).2
      have hlead := (h.readable ht).leadsWithFraction_signed sign ((ih ht).exponent rfl)
      exact .of_exponent ((ih ht).nodes.signed sign) hlead
  | times _ _ ihl ihr =>
      obtain ⟨hl, hr⟩ := List.forall_mem_append.mp ht
      have hright := (ihr (List.forall_mem_cons.mp hr).2).nodes
      refine .of_loose (Expr.hasLegibleNodes_product _ ?_) rfl rfl
      exact List.forall_mem_cons.mpr ⟨(ihl hl).nodes, List.forall_mem_singleton.mpr hright⟩
  | dividedBy _ _ ihl ihr =>
      obtain ⟨hl, hr⟩ := List.forall_mem_append.mp ht
      have hright := (ihr (List.forall_mem_cons.mp hr).2).nodes
      refine .of_loose (Expr.hasLegibleNodes_iff.mpr ⟨⟨rfl, rfl⟩, ?_⟩) rfl rfl
      exact List.forall_mem_cons.mpr ⟨(ihl hl).nodes, List.forall_mem_singleton.mpr hright⟩
  | beside _ _ ihl ihr =>
      obtain ⟨hl, hr⟩ := List.forall_mem_append.mp ht
      refine .of_loose (Expr.hasLegibleNodes_product _ ?_) rfl rfl
      exact List.forall_mem_cons.mpr
        ⟨(ihl hl).nodes, List.forall_mem_singleton.mpr (ihr hr).nodes⟩
  | raised _ _ ihl ihr =>
      obtain ⟨hl, hr⟩ := List.forall_mem_append.mp ht
      have hright := ihr (List.forall_mem_cons.mp hr).2
      exact .of_loose ((ihl hl).power hright rfl rfl) rfl rfl
  | exponentRaised _ _ ihl ihr =>
      obtain ⟨hl, hr⟩ := List.forall_mem_append.mp ht
      have hleft := ihl hl
      have hright := ihr (List.forall_mem_cons.mp hr).2
      refine .of_exponent (hleft.power hright rfl rfl) ?_
      rw [Expr.leadsWithFraction, hleft.exponent rfl, Bool.and_false]
  | fraction =>
      obtain ⟨_, hsigned, _⟩ := Literal.isReadable_ofNumeral (ht _ (.head _))
      refine ⟨Expr.hasLegibleNodes_constant _, fun _ literal hl => ?_,
        fun hc => absurd hc Bool.false_ne_true⟩
      rwa [← Expr.constant.inj hl]
  | decimal =>
      obtain ⟨_, hsigned, hnumeral⟩ := Literal.isReadable_ofNumeral (ht _ (.head _))
      refine ⟨Expr.hasLegibleNodes_constant _, fun _ literal hl => ?_, fun _ => ?_⟩
      · rwa [← Expr.constant.inj hl]
      · rw [Expr.leadsWithFraction, hnumeral]
        rfl
  | symbol letter =>
      exact ⟨List.forall_mem_singleton.mpr ⟨rfl, rfl⟩, fun _ _ hl => Expr.noConfusion hl,
        fun _ => rfl⟩
  | call _ _ ih =>
      have ht := (List.forall_mem_append.mp (List.forall_mem_cons.mp
        (List.forall_mem_cons.mp ht).2).2).1
      exact ⟨Expr.hasLegibleNodes_iff.mpr ⟨⟨rfl, rfl⟩, ih ht⟩, fun _ _ hl => Expr.noConfusion hl,
        fun _ => rfl⟩
  | group _ ih =>
      have ht := (List.forall_mem_append.mp (List.forall_mem_cons.mp ht).2).1
      refine ⟨Expr.hasLegibleNodes_iff.mpr ⟨⟨rfl, rfl⟩, ?_⟩, fun _ _ hl => Expr.noConfusion hl,
        fun _ => rfl⟩
      exact List.forall_mem_singleton.mpr (ih ht).nodes
  | one _ ih ht e he => exact List.forall_mem_singleton.mpr (ih ht).nodes e he
  | more _ _ ihl ihr ht e he =>
      obtain ⟨hl, hr⟩ := List.forall_mem_append.mp ht
      have hright := (ihr (List.forall_mem_cons.mp hr).2).nodes
      exact List.forall_mem_append.mpr ⟨ihl hl, List.forall_mem_singleton.mpr hright⟩ e he

/-- A tree that was read from a text is legible exactly if its tokens stand apart. -/
theorem isLegible_iff_of_parse {text : String} {e : Expr} (h : parse text = .ok e)
    : e.IsLegible ↔ Token.allApart e.tokens = true := by
  obtain ⟨tokens, hlexes, hd, hdefined⟩ := parse_eq_ok_iff.mp h
  have hnodes := (hd.grants (hlexes.readable hdefined)).nodes
  exact ⟨Expr.IsLegible.apart, fun hapart => ⟨hnodes, hapart⟩⟩

namespace Expr

/-- A tree that was read from a text comes back from its own text exactly if its tokens stand
apart there: the letter or the numeral in front of a factor must not run into it. -/
theorem roundTrips_of_parse {text : String} {e : Expr} (h : parse text = .ok e)
    : e.RoundTrips ↔ Token.allApart e.tokens = true :=
  (readable_of_parse h).roundTrips_iff.trans (isLegible_iff_of_parse h)

/-- Brackets, fractions, signs of exponents and differences do no harm. -/
theorem roundTrips_of_parse_difference
    : ∃ e, parse "2(x + 1/2)^-2 - y" = .ok e ∧ Token.allApart e.tokens = true
      ∧ (e.RoundTrips ↔ Token.allApart e.tokens = true) := by
  have h : parse "2(x + 1/2)^-2 - y" = .ok (sum
      [product [constant ⟨2, false, some "2"⟩,
        power (group (sum [symbol "x", constant ⟨1 / 2, true, some "1/2"⟩]))
          (constant ⟨-2, false, some "-2"⟩)] true,
      product [constant .minusOne, symbol "y"] true]) := by
    cbv
  exact ⟨_, h, by cbv, roundTrips_of_parse h⟩

/-- A letter in front of a call is taken for the first letter of the name of the function. -/
theorem not_roundTrips_of_call
    : ¬ ∀ (text : String) (e : Expr), parse text = .ok e → e.RoundTrips := by
  intro hall
  have h : parse "x sin(y)" = .ok (product [symbol "x", call "sin" [symbol "y"]] true) := by cbv
  obtain ⟨text, u, htext, hparse, halike⟩ := hall _ _ h
  have hread : parse "xsin(y)" = .ok (call "xsin" [symbol "y"]) := by cbv
  have hwritten : (product [symbol "x", call "sin" [symbol "y"]] true).text = .ok "xsin(y)" := by
    cbv
  cases Except.ok.inj (hwritten.symm.trans htext)
  cases Except.ok.inj (hread.symm.trans hparse)
  exact absurd halike (by decide)

/-- The flat tree of a text comes back from its own text exactly if it is legible, so flattening
does no harm to a tree that comes back exactly if the flat tree is legible then. -/
theorem roundTrips_flatten {text : String} {e : Expr} (h : parse text = .ok e)
    : (e.flatten.RoundTrips ↔ e.flatten.IsLegible)
      ∧ ((e.RoundTrips → e.flatten.RoundTrips)
        ↔ (Token.allApart e.tokens = true → e.flatten.IsLegible)) := by
  have hflat := (readable_of_parse h).flatten.roundTrips_iff
  have hraw := (readable_of_parse h).roundTrips_iff.trans (isLegible_iff_of_parse h)
  exact ⟨hflat, by rw [hflat, hraw]⟩

/-- Without the brackets of its base, and with those of its exponent, a power is legible. -/
theorem roundTrips_flatten_power
    : ∃ e, parse "(x + 1) + 2((y)^(-3))" = .ok e ∧ e.flatten.IsLegible
      ∧ (e.flatten.RoundTrips ↔ e.flatten.IsLegible)
      ∧ ((e.RoundTrips → e.flatten.RoundTrips)
        ↔ (Token.allApart e.tokens = true → e.flatten.IsLegible)) := by
  have h : parse "(x + 1) + 2((y)^(-3))" = .ok (sum
      [group (sum [symbol "x", constant ⟨1, false, some "1"⟩]),
      product [constant ⟨2, false, some "2"⟩,
        group (power (group (symbol "y")) (group (constant ⟨-3, false, some "-3"⟩)))] true]) := by
    cbv
  exact ⟨_, h, by decide +kernel, roundTrips_flatten h⟩

/-- Without its brackets, the fraction in an exponent is read as a quotient. -/
theorem not_roundTrips_flatten_fraction
    : ¬ ∀ (text : String) (e : Expr), parse text = .ok e → e.RoundTrips
      → e.flatten.RoundTrips := by
  intro hall
  have h : parse "x^(1/2)"
      = .ok (power (symbol "x") (group (constant ⟨1 / 2, true, some "1/2"⟩))) := by
    cbv
  have hwritten : (power (symbol "x") (group (constant ⟨1 / 2, true, some "1/2"⟩))).text
      = .ok "x^(1/2)" := by
    cbv
  obtain ⟨text, u, htext, hparse, halike⟩ := hall _ _ h ⟨_, _, hwritten, h, .refl _⟩
  have hflat : (power (symbol "x") (group (constant ⟨1 / 2, true, some "1/2"⟩))).flatten.text
      = .ok "x^1/2" := by
    cbv
  have hread : parse "x^1/2" = .ok (quotient (power (symbol "x") (constant ⟨1, false, some "1"⟩))
      (constant ⟨2, false, some "2"⟩)) := by
    cbv
  cases Except.ok.inj (hflat.symm.trans htext)
  cases Except.ok.inj (hread.symm.trans hparse)
  exact absurd halike (by decide)

end Expr

end TermGrouping
