import TermGrouping.Parse.State
import TermGrouping.Proofs.Parsing.Derivation

/-! What the states read, the grammar derives. The tokens read so far fall into the open brackets,
the parts of the line under way and the operand behind it, and a step keeps such a division.
-/

namespace TermGrouping

/-- The tokens of the power under way, before its last operand. -/
inductive RaisedRead : List Raised → List Token → Prop where
  | base {left b} : Derives .atom left b → RaisedRead [.base b] (left ++ [.caret])
  | exponent {r rs tokens left b}
    : RaisedRead (r :: rs) tokens → Derives .operand left b
      → RaisedRead (.base b :: r :: rs) (tokens ++ left ++ [.caret])
  | sign {r rs tokens} (s : Sign)
    : RaisedRead (r :: rs) tokens → RaisedRead (.sign s :: r :: rs) (tokens ++ [.sign s])

def Joint.tokens : Joint → List Token
  | times => [.times]
  | dividedBy => [.slash]
  | beside => []

/-- The tokens of the terms before the term under way. -/
def TermsRead (terms : Option (Expr × Sign)) (tokens : List Token) : Prop :=
  match terms with
  | none => tokens = []
  | some (e, sign) => ∃ left, Derives .sum left e ∧ tokens = left ++ [.sign sign]

/-- The tokens of the factors before the factor under way. -/
def FactorsRead (factors : Option (Expr × Joint)) (tokens : List Token) : Prop :=
  match factors with
  | none => tokens = []
  | some (e, joint) => ∃ left, Derives .product left e ∧ tokens = left ++ joint.tokens

/-- The tokens that have led to a line. No sign stands behind a factor without a sign. -/
structure Line.Reads (line : Line) (tokens : List Token) : Prop where
  split
    : ∃ terms factors raised,
        TermsRead line.terms terms
        ∧ FactorsRead line.factors factors
        ∧ (line.raised = [] ∧ raised = [] ∨ RaisedRead line.raised raised)
        ∧ tokens = terms ++ factors ++ line.signs.reverse.map .sign ++ raised
  unsigned : ∀ e, line.factors = some (e, .beside) → line.signs = []

/-- What the operand behind a line may be: no fraction stands in an exponent. -/
def Line.operandCategory (line : Line) : Category := if line.raised = [] then .atom else .operand

theorem Line.start_reads : Line.start.Reads [] :=
  ⟨⟨[], [], [], rfl, rfl, .inl ⟨rfl, rfl⟩, rfl⟩, fun _ h => by cases h⟩

theorem Line.start_open (e : Expr) (h : Line.start.factors = some (e, .beside))
    : Line.start.raised ≠ [] := by
  cases h

/-- An operand can stand behind every line, also as an exponent. -/
theorem Line.operandCategory_of_operand {tokens : List Token} {e : Expr} (line : Line)
    (h : Derives .operand tokens e)
    : Derives line.operandCategory tokens e := by
  unfold operandCategory
  split
  · exact .atomOperand h
  · exact h

theorem RaisedRead.ne_nil {raised : List Raised} {tokens : List Token}
    (h : RaisedRead raised tokens)
    : raised ≠ [] := by
  cases h <;> exact List.cons_ne_nil _ _

/-- The power under way is derived once its last exponent is, by induction over the parts under
way. -/
theorem RaisedRead.power {raised : List Raised} {tokens right : List Token} {e : Expr}
    (h : RaisedRead raised tokens) (hd : Derives .exponent right e)
    : Derives .power (tokens ++ right) (raised.foldl (fun exponent r => r.apply exponent) e) := by
  induction h generalizing right e with
  | base hb => simpa [Raised.apply] using Derives.raised hb hd
  | exponent _ hb ih => simpa [Raised.apply] using ih (.exponentRaised hb hd)
  | sign s _ ih => simpa [Raised.apply] using ih (.exponentSigned s hd)

/-- Signs in front of a factor make a factor again, by induction over the signs. -/
theorem Derives.signs {tokens : List Token} {e : Expr} (h : Derives .unary tokens e)
    (signs : List Sign)
    : Derives .unary (signs.reverse.map .sign ++ tokens)
        (signs.foldl (fun e s => s.apply e) e) := by
  induction signs generalizing tokens e with
  | nil => exact h
  | cons s signs ih => simpa using ih (.signed s h)

/-- The parts of a line in front of an operand make it a product behind the terms before. -/
theorem Line.Reads.product {line : Line} {tokens right : List Token} {o : Expr}
    (h : line.Reads tokens) (hd : Derives line.operandCategory right o)
    : ∃ terms left,
        TermsRead line.terms terms
        ∧ Derives .product left (line.product o)
        ∧ tokens ++ right = terms ++ left := by
  obtain ⟨terms, factors, raised, hterms, hfactors, hraised, rfl⟩ := h.split
  have hpower : Derives .power (raised ++ right) (line.power o) := by
    rcases hraised with ⟨hr, rfl⟩ | hr
    · simp only [Line.operandCategory, hr, if_true] at hd
      simpa [Line.power, hr] using Derives.base hd
    · simp only [Line.operandCategory, hr.ne_nil, if_false] at hd
      exact hr.power (.exponentBase hd)
  have hfactor := (Derives.unsigned hpower).signs line.signs
  refine ⟨terms, factors ++ line.signs.reverse.map .sign ++ raised ++ right, hterms, ?_,
    by simp⟩
  unfold Line.product
  cases hf : line.factors with
  | none =>
      simp only [hf, FactorsRead] at hfactors
      simpa [hfactors, Line.factor] using Derives.factor hfactor
  | some attached =>
      obtain ⟨before, joint⟩ := attached
      simp only [hf, FactorsRead] at hfactors
      obtain ⟨left, hleft, rfl⟩ := hfactors
      cases joint with
      | times =>
          simpa [Joint.tokens, Joint.apply, Line.factor] using Derives.times hleft hfactor
      | dividedBy =>
          simpa [Joint.tokens, Joint.apply, Line.factor] using Derives.dividedBy hleft hfactor
      | beside =>
          have hs := h.unsigned before hf
          simpa [Joint.tokens, Joint.apply, hs, Line.factor] using Derives.beside hleft hpower

/-- The tokens of a line and of its last operand derive the sum under way. -/
theorem Line.Reads.sum {line : Line} {tokens right : List Token} {o : Expr}
    (h : line.Reads tokens) (hd : Derives line.operandCategory right o)
    : Derives .sum (tokens ++ right) (line.sum o) := by
  obtain ⟨terms, left, hterms, hproduct, he⟩ := h.product hd
  rw [he]
  unfold Line.sum
  cases ht : line.terms with
  | none =>
      simp only [ht, TermsRead] at hterms
      simpa [hterms] using Derives.term hproduct
  | some before =>
      obtain ⟨before, sign⟩ := before
      simp only [ht, TermsRead] at hterms
      obtain ⟨first, hfirst, rfl⟩ := hterms
      simpa using Derives.terms sign hfirst hproduct

/-- Attaching a factor completes the product before it and leaves the terms as they are. -/
theorem Line.Reads.attach {line : Line} {tokens right : List Token} {o : Expr}
    (h : line.Reads tokens) (hd : Derives line.operandCategory right o) (joint : Joint)
    : (line.attach o joint).Reads (tokens ++ right ++ joint.tokens) := by
  obtain ⟨terms, left, hterms, hproduct, he⟩ := h.product hd
  refine ⟨⟨terms, left ++ joint.tokens, [], hterms, ⟨left, hproduct, rfl⟩, .inl ⟨rfl, rfl⟩, ?_⟩,
    fun _ _ => rfl⟩
  simp [he, Line.attach]

/-- Another term completes the sum before it. -/
theorem Line.Reads.continued {line : Line} {tokens right : List Token} {o : Expr}
    (h : line.Reads tokens) (hd : Derives line.operandCategory right o) (sign : Sign)
    : (line.continued o sign).Reads (tokens ++ right ++ [.sign sign]) := by
  refine ⟨⟨_, [], [], ⟨_, h.sum hd, rfl⟩, rfl, .inl ⟨rfl, rfl⟩, ?_⟩, fun _ _ => rfl⟩
  simp [Line.continued]

/-- A caret puts the operand before it under way, as a base or as part of an exponent. -/
theorem Line.Reads.raise {line : Line} {tokens right : List Token} {o : Expr}
    (h : line.Reads tokens) (hd : Derives line.operandCategory right o)
    : (line.raise o).Reads (tokens ++ right ++ [.caret]) := by
  obtain ⟨terms, factors, raised, hterms, hfactors, hraised, rfl⟩ := h.split
  refine ⟨⟨terms, factors, raised ++ right ++ [.caret], hterms, hfactors, .inr ?_, ?_⟩,
    h.unsigned⟩
  · unfold Line.raise
    rcases hraised with ⟨hr, rfl⟩ | hr
    · simp only [Line.operandCategory, hr, if_true] at hd
      simpa [hr] using RaisedRead.base hd
    · simp only [Line.operandCategory, hr.ne_nil, if_false] at hd
      obtain ⟨r, rs, hrs⟩ := List.exists_cons_of_ne_nil hr.ne_nil
      rw [hrs] at hr ⊢
      exact hr.exponent hd
  · simp [Line.raise]

/-- A sign goes to the exponent under way, or in front of a factor that is not attached without
a sign. -/
theorem Line.Reads.signed {line : Line} {tokens : List Token} (h : line.Reads tokens)
    (hb : ∀ e, line.factors = some (e, .beside) → line.raised ≠ []) (sign : Sign)
    : (line.signed sign).Reads (tokens ++ [.sign sign]) := by
  obtain ⟨terms, factors, raised, hterms, hfactors, hraised, rfl⟩ := h.split
  unfold Line.signed
  rcases hraised with ⟨hr, rfl⟩ | hr
  · rw [hr]
    refine ⟨⟨terms, factors, [], hterms, hfactors, .inl ⟨rfl, rfl⟩, by simp⟩, ?_⟩
    intro e he
    exact absurd hr (hb e he)
  · obtain ⟨r, rs, hrs⟩ := List.exists_cons_of_ne_nil hr.ne_nil
    rw [hrs] at hr ⊢
    exact ⟨⟨terms, factors, raised ++ [.sign sign], hterms, hfactors, .inr (hr.sign sign),
      by simp⟩, h.unsigned⟩

-----------------------------------------------------------------------------------------
-- The tokens of a state
-----------------------------------------------------------------------------------------

/-- The tokens of the complete arguments of a call, with the comma behind them. -/
def ArgumentsRead (arguments : List Expr) (tokens : List Token) : Prop :=
  arguments = [] ∧ tokens = []
  ∨ ∃ inner, DerivesArguments inner arguments ∧ tokens = inner ++ [.comma]

/-- The arguments of a call are complete with the last one behind the comma. -/
theorem ArgumentsRead.snoc {arguments : List Expr} {tokens right : List Token} {e : Expr}
    (h : ArgumentsRead arguments tokens) (hd : Derives .sum right e)
    : DerivesArguments (tokens ++ right) (arguments ++ [e]) := by
  rcases h with ⟨rfl, rfl⟩ | ⟨inner, hinner, rfl⟩
  · exact .one hd
  · simpa using DerivesArguments.more hinner hd

/-- The tokens up to the innermost open bracket, or up to the last comma behind it. -/
inductive EnclosuresRead : List Enclosure → List Token → Prop where
  | nil : EnclosuresRead [] []
  | group {enclosures before outer tokens}
    : EnclosuresRead enclosures before → Line.Reads outer tokens
      → EnclosuresRead (.group outer :: enclosures) (before ++ tokens ++ [.opening])
  | call {enclosures before outer tokens arguments inner} (name : List Char)
    : EnclosuresRead enclosures before → Line.Reads outer tokens
      → ArgumentsRead arguments inner
      → EnclosuresRead (.call (String.ofList name) arguments outer :: enclosures)
          (before ++ tokens ++ .callee name :: .opening :: inner)

/-- The tokens behind the line. No sign may follow a factor that is attached without one. -/
inductive Phase.Reads (line : Line) : Phase → List Token → Prop where
  | operand
    : (∀ e, line.factors = some (e, .beside) → line.raised ≠ []) → Phase.Reads line .operand []
  | callee (name : List Char)
    : Phase.Reads line (.callee (String.ofList name)) [.callee name]
  | operator {tokens o}
    : Derives line.operandCategory tokens o → Phase.Reads line (.operator o) tokens

/-- The tokens that have led to a state. Nothing is said once a fraction is undefined, because no
formula comes of it. -/
def State.Reads (state : State) (tokens : List Token) : Prop :=
  (∃ numerator, state.phase = .undefined numerator)
  ∨ AllDefined tokens
    ∧ ∃ before inner last,
        EnclosuresRead state.enclosures before
        ∧ state.line.Reads inner
        ∧ state.phase.Reads state.line last
        ∧ tokens = before ++ inner ++ last

theorem State.start_reads : State.start.Reads [] :=
  .inr ⟨List.forall_mem_nil _, [], [], [], .nil, Line.start_reads,
    .operand Line.start_open, rfl⟩

/-- A numeral that is accepted as an operand is undefined or an operand of its line. -/
theorem State.withNumeral_reads {state next : State} {before inner : List Token}
    {numeral : Numeral} (he : EnclosuresRead state.enclosures before)
    (hl : state.line.Reads inner) (hd : AllDefined (before ++ inner))
    (h : state.withNumeral numeral = .ok next)
    : next.Reads (before ++ inner ++ [.numeral numeral]) := by
  unfold State.withNumeral at h
  split at h
  · cases h
  next hfraction =>
  split at h
  · cases h
    exact .inl ⟨_, rfl⟩
  next hdenominator =>
  cases h
  have hdefined : AllDefined (before ++ inner ++ [.numeral numeral]) :=
    allDefined_append.mpr ⟨hd, by simpa [AllDefined, Token.isUndefined] using hdenominator⟩
  refine .inr ⟨hdefined, before, inner, _, he, hl, .operator ?_, rfl⟩
  cases numeral with
  | decimal whole places =>
      exact Line.operandCategory_of_operand _ (Derives.decimal whole places)
  | fraction numerator denominator =>
      have hraised : state.line.raised = [] := by
        simpa [Numeral.isFraction, Line.inExponent] using hfraction
      simpa [State.withOperand, Line.operandCategory, hraised]
        using Derives.fraction numerator denominator

/-- A token that is accepted where an operand is expected keeps the division of the tokens. A
sign is accepted only where one may stand. -/
theorem State.stepOperand_reads {state next : State} {before inner : List Token} {token : Token}
    (h : state.stepOperand token = .ok next) (he : EnclosuresRead state.enclosures before)
    (hl : state.line.Reads inner) (hd : AllDefined (before ++ inner))
    (hs : (∀ e, state.line.factors = some (e, .beside) → state.line.raised ≠ [])
      ∨ token.startsOperand = true)
    : next.Reads (before ++ inner ++ [token]) := by
  have hsnoc (hu : token.isUndefined = false) : AllDefined (before ++ inner ++ [token]) :=
    allDefined_append.mpr ⟨hd, by simpa [AllDefined] using hu⟩
  cases token with
  | numeral numeral => exact State.withNumeral_reads he hl hd h
  | symbol letter =>
      cases h
      have hsymbol := Line.operandCategory_of_operand state.line (Derives.symbol letter)
      exact .inr ⟨hsnoc rfl, before, inner, _, he, hl, .operator hsymbol, rfl⟩
  | callee name =>
      cases h
      exact .inr ⟨hsnoc rfl, before, inner, _, he, hl, .callee name, rfl⟩
  | sign sign =>
      cases h
      have hb := hs.resolve_right Bool.false_ne_true
      refine .inr ⟨hsnoc rfl, before, inner ++ [.sign sign], [], he, hl.signed hb sign, .operand ?_,
        by simp⟩
      intro e hf
      unfold Line.signed at hf ⊢
      cases hr : state.line.raised with
      | nil =>
          rw [hr] at hf
          exact absurd hr (hb e hf)
      | cons r rs => simp
  | opening =>
      cases h
      exact .inr ⟨hsnoc rfl, _, [], [], he.group hl, Line.start_reads,
        .operand Line.start_open, by simp⟩
  | times | slash | caret | closing | comma => cases h

/-- A step behind an operand keeps account of the tokens read, by cases on the token. -/
theorem State.stepOperator_reads {state next : State} {before inner last : List Token}
    {operand : Expr} {token : Token} (he : EnclosuresRead state.enclosures before)
    (hl : state.line.Reads inner) (ho : Derives state.line.operandCategory last operand)
    (hd : AllDefined (before ++ inner ++ last)) (h : state.stepOperator operand token = .ok next)
    : next.Reads (before ++ inner ++ last ++ [token]) := by
  have hsnoc (hu : token.isUndefined = false) : AllDefined (before ++ inner ++ last ++ [token]) :=
    allDefined_append.mpr ⟨hd, by simpa [AllDefined] using hu⟩
  have hbeside (ht : token.startsOperand = true)
      (h : State.stepOperand
        { state with line := state.line.attach operand .beside, phase := .operand } token
          = .ok next)
      : next.Reads (before ++ inner ++ last ++ [token]) := by
    have hattached : (state.line.attach operand .beside).Reads (inner ++ last) := by
      simpa [Joint.tokens] using hl.attach ho .beside
    simpa using State.stepOperand_reads h he hattached (by simpa using hd) (.inr ht)
  have hattach (joint : Joint) (hj : joint ≠ .beside) (ht : joint.tokens = [token])
      (hu : token.isUndefined = false)
      : State.Reads { state with line := state.line.attach operand joint, phase := .operand }
          (before ++ inner ++ last ++ [token]) := by
    refine .inr ⟨hsnoc hu, before, _, [], he, hl.attach ho joint, .operand ?_, by simp [ht]⟩
    intro e hf
    exact absurd (Prod.mk.inj (Option.some.inj hf)).2 hj
  cases token with
  | numeral | symbol | callee | opening => exact hbeside rfl h
  | times =>
      cases h
      exact hattach .times (by simp) rfl rfl
  | slash =>
      cases h
      exact hattach .dividedBy (by simp) rfl rfl
  | sign sign =>
      cases h
      exact .inr ⟨hsnoc rfl, before, _, [], he, hl.continued ho sign,
        .operand (fun _ hf => by cases hf), by simp⟩
  | caret =>
      cases h
      exact .inr ⟨hsnoc rfl, before, _, [], he, hl.raise ho,
        .operand fun _ _ => List.cons_ne_nil _ _, by simp⟩
  | closing =>
      obtain ⟨enclosures, line, phase⟩ := state
      cases he with
      | nil => cases h
      | @group _ outerTokens outer tokens houter hline =>
          cases h
          have hgroup := Line.operandCategory_of_operand outer (Derives.group (hl.sum ho))
          exact .inr ⟨hsnoc rfl, _, _, _, houter, hline, .operator hgroup, by simp⟩
      | @call _ outerTokens outer tokens arguments _ name houter hline harguments =>
          cases h
          have hcall := Line.operandCategory_of_operand outer
            (Derives.call name (harguments.snoc (hl.sum ho)))
          exact .inr ⟨hsnoc rfl, _, _, _, houter, hline, .operator hcall, by simp⟩
  | comma =>
      obtain ⟨enclosures, line, phase⟩ := state
      cases he with
      | nil => cases h
      | group => cases h
      | call name houter hline harguments =>
          cases h
          have hmore : ArgumentsRead _ _ := .inr ⟨_, harguments.snoc (hl.sum ho), rfl⟩
          exact .inr ⟨hsnoc rfl, _, [], [], houter.call name hline hmore, Line.start_reads,
            .operand Line.start_open, by simp⟩

/-- A step keeps the division of the tokens. -/
theorem State.step_reads {state next : State} {tokens : List Token} {token : Token}
    (h : state.step token = .ok next) (hr : state.Reads tokens)
    : next.Reads (tokens ++ [token]) := by
  obtain ⟨enclosures, line, phase⟩ := state
  rcases hr with ⟨numerator, rfl⟩ | ⟨hd, before, inner, last, he, hl, hp, rfl⟩
  · cases h
  cases hp with
  | operand hopen => simpa using State.stepOperand_reads h he hl (by simpa using hd) (.inl hopen)
  | operator ho => exact State.stepOperator_reads he hl ho hd h
  | callee name =>
      cases token with
      | opening =>
          cases h
          have hd' : AllDefined (before ++ inner ++ [.callee name] ++ [.opening]) :=
            allDefined_append.mpr ⟨hd, by simp [AllDefined, Token.isUndefined]⟩
          exact .inr ⟨hd', _, [], [], he.call name hl (.inl ⟨rfl, rfl⟩), Line.start_reads,
            .operand Line.start_open, by simp⟩
      | numeral | symbol | callee | sign | times | slash | caret | closing | comma => cases h

/-- Two computations in a row succeed only if both do. -/
theorem exists_of_bind_eq_ok {α β ε : Type} {result : Except ε α} {next : α → Except ε β} {b : β}
    (h : (result >>= next) = .ok b)
    : ∃ a, result = .ok a ∧ next a = .ok b := by
  cases result with
  | error => cases h
  | ok a => exact ⟨a, rfl, h⟩

/-- A run keeps the division of the tokens. -/
theorem State.run_reads {state last : State} {before tokens : List Token}
    (h : state.run tokens = .ok last) (hr : state.Reads before)
    : last.Reads (before ++ tokens) := by
  induction tokens generalizing state before with
  | nil =>
      cases h
      simpa using hr
  | cons token tokens ih =>
      obtain ⟨next, hstep, hrun⟩ := exists_of_bind_eq_ok h
      simpa using ih hrun (State.step_reads hstep hr)

/-- A formula that is read from the start is derived, and its fractions are defined. -/
theorem State.derives_of_run {tokens : List Token} {state : State} {e : Expr}
    (h : State.start.run tokens = .ok state) (hf : state.finish = .ok e)
    : Derives .sum tokens e ∧ AllDefined tokens := by
  obtain ⟨enclosures, line, phase⟩ := state
  rcases State.run_reads h State.start_reads with
    ⟨numerator, rfl⟩ | ⟨hd, before, inner, last, he, hl, hp, ht⟩
  · cases hf
  cases hp with
  | operand | callee => cases hf
  | operator ho =>
      cases he with
      | nil =>
          cases hf
          simp only [List.nil_append] at ht hd
          exact ⟨ht ▸ hl.sum ho, hd⟩
      | group | call => cases hf

end TermGrouping
