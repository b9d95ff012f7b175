import TermGrouping.Grammar

/-! Induction over derivations. A derivation of a part of a formula can hold derivations of
arguments, so the statement about arguments is given first and proved along with the other one.
-/

namespace TermGrouping

/-- Induction over a derivation, with a second statement for the arguments of calls. -/
@[elab_as_elim]
theorem Derives.induct (arguments : List Token → List Expr → Prop)
    {motive : ∀ category tokens e, Derives category tokens e → Prop}
    (term : ∀ {tokens e} (h : Derives .product tokens e), motive _ _ _ h
      → motive .sum tokens e (.term h))
    (terms : ∀ {left right a b} (sign : Sign) (hl : Derives .sum left a)
      (hr : Derives .product right b), motive _ _ _ hl → motive _ _ _ hr
      → motive .sum _ _ (.terms sign hl hr))
    (factor : ∀ {tokens e} (h : Derives .unary tokens e), motive _ _ _ h
      → motive .product tokens e (.factor h))
    (times : ∀ {left right a b} (hl : Derives .product left a) (hr : Derives .unary right b),
      motive _ _ _ hl → motive _ _ _ hr → motive .product _ _ (.times hl hr))
    (dividedBy : ∀ {left right a b} (hl : Derives .product left a) (hr : Derives .unary right b),
      motive _ _ _ hl → motive _ _ _ hr → motive .product _ _ (.dividedBy hl hr))
    (beside : ∀ {left right a b} (hl : Derives .product left a) (hr : Derives .power right b),
      motive _ _ _ hl → motive _ _ _ hr → motive .product _ _ (.beside hl hr))
    (unsigned : ∀ {tokens e} (h : Derives .power tokens e), motive _ _ _ h
      → motive .unary tokens e (.unsigned h))
    (signed : ∀ {tokens e} (sign : Sign) (h : Derives .unary tokens e), motive _ _ _ h
      → motive .unary _ _ (.signed sign h))
    (base : ∀ {tokens e} (h : Derives .atom tokens e), motive _ _ _ h
      → motive .power tokens e (.base h))
    (raised : ∀ {left right a b} (hl : Derives .atom left a) (hr : Derives .exponent right b),
      motive _ _ _ hl → motive _ _ _ hr → motive .power _ _ (.raised hl hr))
    (exponentBase : ∀ {tokens e} (h : Derives .operand tokens e), motive _ _ _ h
      → motive .exponent tokens e (.exponentBase h))
    (exponentRaised : ∀ {left right a b} (hl : Derives .operand left a)
      (hr : Derives .exponent right b), motive _ _ _ hl → motive _ _ _ hr
      → motive .exponent _ _ (.exponentRaised hl hr))
    (exponentSigned : ∀ {tokens e} (sign : Sign) (h : Derives .exponent tokens e),
      motive _ _ _ h → motive .exponent _ _ (.exponentSigned sign h))
    (fraction : ∀ numerator denominator,
      motive .atom _ _ (.fraction numerator denominator))
    (atomOperand : ∀ {tokens e} (h : Derives .operand tokens e), motive _ _ _ h
      → motive .atom tokens e (.atomOperand h))
    (decimal : ∀ whole places, motive .operand _ _ (.decimal whole places))
    (symbol : ∀ letter, motive .operand _ _ (.symbol letter))
    (call : ∀ {tokens es} (name : List Char) (h : DerivesArguments tokens es),
      arguments tokens es → motive .operand _ _ (.call name h))
    (group : ∀ {tokens e} (h : Derives .sum tokens e), motive _ _ _ h
      → motive .operand _ _ (.group h))
    (one : ∀ {tokens e} (h : Derives .sum tokens e), motive _ _ _ h → arguments tokens [e])
    (more : ∀ {left right es e} (_ : DerivesArguments left es) (hr : Derives .sum right e),
      arguments left es → motive _ _ _ hr → arguments (left ++ .comma :: right) (es ++ [e]))
    {category : Category} {tokens : List Token} {e : Expr} (h : Derives category tokens e)
    : motive category tokens e h :=
  @Derives.rec motive (fun tokens es _ => arguments tokens es) term terms factor times dividedBy
    beside unsigned signed base raised exponentBase exponentRaised exponentSigned fraction
    atomOperand decimal symbol call group one more category tokens e h

def Token.startsOperand : Token → Bool
  | numeral _ | symbol _ | callee _ | opening => true
  | _ => false

/-- The tightest categories start with an operand; only signs can stand in front of one. -/
theorem Derives.starts_operand {category : Category} {tokens : List Token} {e : Expr}
    (h : Derives category tokens e)
    (hc : category = .operand ∨ category = .atom ∨ category = .power)
    : ∃ token rest, tokens = token :: rest ∧ token.startsOperand = true := by
  induction h using Derives.induct fun _ _ => True with
  | fraction | decimal | symbol | call | group => exact ⟨_, _, rfl, rfl⟩
  | base _ ih => exact ih (.inr (.inl rfl))
  | atomOperand _ ih => exact ih (.inl rfl)
  | raised _ _ ih _ =>
      obtain ⟨token, rest, rfl, ht⟩ := ih (.inr (.inl rfl))
      exact ⟨token, _, rfl, ht⟩
  | term | terms | factor | times | dividedBy | beside | unsigned | signed | exponentBase
    | exponentRaised | exponentSigned =>
      rcases hc with hc | hc | hc <;> cases hc
  | one | more => trivial

/-- Tokens that hold no fraction with the denominator zero. -/
def AllDefined (tokens : List Token) : Prop := ∀ token ∈ tokens, token.isUndefined = false

theorem allDefined_append {left right : List Token}
    : AllDefined (left ++ right) ↔ AllDefined left ∧ AllDefined right :=
  List.forall_mem_append

theorem allDefined_cons {token : Token} {tokens : List Token}
    : AllDefined (token :: tokens) ↔ token.isUndefined = false ∧ AllDefined tokens :=
  List.forall_mem_cons

end TermGrouping
