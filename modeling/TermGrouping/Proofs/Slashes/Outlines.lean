import TermGrouping.Proofs.Parsing.Formula
import TermGrouping.Proofs.Writing.Fractions
import TermGrouping.Tightening

/-! What a state accepts. The trees that have been read play no part in it; so a fraction and its
parts, which leave the same brackets and the same kind of line, are accepted alike.
-/

namespace TermGrouping

/-- What a line waits for, whatever has been read. -/
inductive PhaseOutline where
  | operand
  | callee
  | operator
  | undefined
  deriving DecidableEq

def Phase.outline : Phase → PhaseOutline
  | operand => .operand
  | callee _ => .callee
  | operator _ => .operator
  | undefined _ => .undefined

/-- Whether an open bracket is that of a call, and whether it stands in an exponent. -/
def Enclosure.outline : Enclosure → Bool × Bool
  | group outer => (false, outer.inExponent)
  | call _ _ outer => (true, outer.inExponent)

/-- The part of a state that decides what it accepts. -/
structure Outline where
  enclosures : List (Bool × Bool)
  inExponent : Bool
  phase : PhaseOutline
  deriving DecidableEq

def State.outline (state : State) : Outline :=
  ⟨state.enclosures.map Enclosure.outline, state.line.inExponent, state.phase.outline⟩

/-- Results of reading that are both refusals, or states of the same outline. -/
inductive AlikeResults : Except Refusal State → Except Refusal State → Prop where
  | refused (refusal other : Refusal) : AlikeResults (.error refusal) (.error other)
  | states {state other : State}
    : state.outline = other.outline → AlikeResults (.ok state) (.ok other)

/-- Alike results stay alike when steps follow that keep states of one outline alike. -/
theorem AlikeResults.bind {result other : Except Refusal State} (h : AlikeResults result other)
    {f g : State → Except Refusal State}
    (hfg : ∀ state other,
      result = .ok state → state.outline = other.outline → AlikeResults (f state) (g other))
    : AlikeResults (result >>= f) (other >>= g) := by
  cases h with
  | refused refusal other => exact .refused refusal other
  | states h => exact hfg _ _ rfl h

@[simp]
theorem Line.inExponent_signed (line : Line) (sign : Sign)
    : (line.signed sign).inExponent = line.inExponent := by
  obtain ⟨terms, factors, signs, raised⟩ := line
  cases raised <;> rfl

namespace State

-----------------------------------------------------------------------------------------
-- States of the same outline accept the same
-----------------------------------------------------------------------------------------

theorem outline_eq_iff {state other : State}
    : state.outline = other.outline
      ↔ state.enclosures.map Enclosure.outline = other.enclosures.map Enclosure.outline
        ∧ state.line.inExponent = other.line.inExponent
        ∧ state.phase.outline = other.phase.outline := by
  simp [outline]

theorem phase_cases {phase phase' : Phase} (h : phase.outline = phase'.outline)
    : phase = .operand ∧ phase' = .operand
      ∨ (∃ name name', phase = .callee name ∧ phase' = .callee name')
      ∨ (∃ operand operand', phase = .operator operand ∧ phase' = .operator operand')
      ∨ ∃ numerator numerator', phase = .undefined numerator ∧ phase' = .undefined numerator' := by
  cases phase <;> cases phase' <;> simp_all [Phase.outline]

theorem enclosure_cases {enclosure enclosure' : Enclosure}
    (h : enclosure.outline = enclosure'.outline)
    : (∃ outer outer',
        enclosure = .group outer ∧ enclosure' = .group outer'
        ∧ outer.inExponent = outer'.inExponent)
      ∨ ∃ name arguments name' arguments' outer outer',
          enclosure = .call name arguments outer ∧ enclosure' = .call name' arguments' outer'
          ∧ outer.inExponent = outer'.inExponent := by
  cases enclosure with
  | group outer =>
      cases enclosure' with
      | group outer' => exact .inl ⟨outer, outer', rfl, rfl, (Prod.mk.inj h).2⟩
      | call => cases (Prod.mk.inj h).1
  | call name arguments outer =>
      cases enclosure' with
      | group => cases (Prod.mk.inj h).1
      | call name' arguments' outer' =>
          exact .inr ⟨_, _, _, _, outer, outer', rfl, rfl, (Prod.mk.inj h).2⟩

/-- A numeral does the same to states of one outline, which agree on whether an exponent is read. -/
theorem withNumeral_alike {state other : State} (h : state.outline = other.outline)
    (numeral : Numeral)
    : AlikeResults (state.withNumeral numeral) (other.withNumeral numeral) := by
  obtain ⟨henclosures, hexponent, _⟩ := outline_eq_iff.mp h
  simp only [withNumeral, hexponent]
  split
  · exact .refused _ _
  · split <;> exact .states (outline_eq_iff.mpr ⟨henclosures, hexponent, rfl⟩)

/-- A step to an operand does the same to states of one outline, by cases on the token. -/
theorem stepOperand_alike {state other : State} (h : state.outline = other.outline) (token : Token)
    : AlikeResults (state.stepOperand token) (other.stepOperand token) := by
  obtain ⟨henclosures, hexponent, _⟩ := outline_eq_iff.mp h
  cases token with
  | numeral numeral => exact withNumeral_alike h numeral
  | symbol | callee => exact .states (outline_eq_iff.mpr ⟨henclosures, hexponent, rfl⟩)
  | sign sign => exact .states (outline_eq_iff.mpr ⟨henclosures, by simpa using hexponent, rfl⟩)
  | opening =>
      exact .states (outline_eq_iff.mpr
        ⟨by simp [enclose, Enclosure.outline, henclosures, hexponent], rfl, rfl⟩)
  | times | slash | caret | closing | comma => exact .refused _ _

/-- A step behind an operand does the same to states of one outline, by cases on the token. -/
theorem stepOperator_alike {state other : State} (h : state.outline = other.outline)
    (operand operand' : Expr) (token : Token)
    : AlikeResults (state.stepOperator operand token) (other.stepOperator operand' token) := by
  obtain ⟨enclosures, line, phase⟩ := state
  obtain ⟨enclosures', line', phase'⟩ := other
  obtain ⟨henclosures, _, _⟩ := outline_eq_iff.mp h
  have hbeside (token : Token)
      : AlikeResults (stepOperand ⟨enclosures, line.attach operand .beside, .operand⟩ token)
          (stepOperand ⟨enclosures', line'.attach operand' .beside, .operand⟩ token) := by
    apply stepOperand_alike
    exact outline_eq_iff.mpr ⟨henclosures, rfl, rfl⟩
  cases token with
  | numeral digits => exact hbeside (.numeral digits)
  | symbol letter => exact hbeside (.symbol letter)
  | callee name => exact hbeside (.callee name)
  | opening => exact hbeside .opening
  | times | slash | caret | sign => exact .states (outline_eq_iff.mpr ⟨henclosures, rfl, rfl⟩)
  | closing | comma =>
      -- What the bracket is for decides what may follow, and where the line goes on.
      cases enclosures with
      | nil =>
          cases List.map_eq_nil_iff.mp henclosures.symm
          exact .refused _ _
      | cons enclosure enclosures =>
          obtain ⟨enclosure', enclosures', rfl, henclosure, hrest⟩ :=
            List.map_eq_cons_iff.mp henclosures.symm
          rcases enclosure_cases henclosure with
            ⟨outer, outer', rfl, rfl, houter⟩ | ⟨_, _, _, _, outer, outer', rfl, rfl, houter⟩
          all_goals
            first
            | exact .refused _ _
            | exact .states (by simp [outline, Phase.outline, Enclosure.outline, hrest, houter])

/-- States of the same outline accept the same tokens. -/
theorem step_alike {state other : State} (h : state.outline = other.outline) (token : Token)
    : AlikeResults (state.step token) (other.step token) := by
  obtain ⟨henclosures, hexponent, hphase⟩ := outline_eq_iff.mp h
  obtain ⟨enclosures, line, phase⟩ := state
  obtain ⟨enclosures', line', phase'⟩ := other
  rcases phase_cases hphase with
    ⟨rfl, rfl⟩ | ⟨name, name', rfl, rfl⟩ | ⟨operand, operand', rfl, rfl⟩ | ⟨_, _, rfl, rfl⟩
  · exact stepOperand_alike h token
  · cases token with
    | opening =>
        exact .states (outline_eq_iff.mpr
          ⟨by simpa [enclose, Enclosure.outline] using ⟨hexponent, henclosures⟩, rfl, rfl⟩)
    | numeral | symbol | callee | sign | times | slash | caret | closing | comma =>
        exact .refused _ _
  · exact stepOperator_alike h operand operand' token
  · exact .refused _ _

/-- In states of the same outline, a formula may end in both or in none. -/
theorem finish_alike {state other : State} (h : state.outline = other.outline)
    : (∃ e, state.finish = .ok e) ↔ ∃ e, other.finish = .ok e := by
  obtain ⟨henclosures, _, hphase⟩ := outline_eq_iff.mp h
  obtain ⟨enclosures, line, phase⟩ := state
  obtain ⟨enclosures', line', phase'⟩ := other
  rcases phase_cases hphase with
    ⟨rfl, rfl⟩ | ⟨_, _, rfl, rfl⟩ | ⟨_, _, rfl, rfl⟩ | ⟨_, _, rfl, rfl⟩
  · simp [finish]
  · simp [finish]
  · cases enclosures <;> cases enclosures' <;> simp_all [finish]
  · simp [finish]

theorem exists_finish_iff {result other : Except Refusal State} (h : AlikeResults result other)
    : (∃ last, result = .ok last ∧ ∃ e, last.finish = .ok e)
      ↔ ∃ last, other = .ok last ∧ ∃ e, last.finish = .ok e := by
  cases h with
  | refused => simp
  | states h => simpa using finish_alike h

-----------------------------------------------------------------------------------------
-- Where a fraction is accepted
-----------------------------------------------------------------------------------------

/-- Whether the flag allows a fraction only where the state accepts one. -/
def AllowsFraction (state : State) (fractionAllowed : Bool) : Prop :=
  state.phase = .operand → fractionAllowed = true → state.line.inExponent = false

/-- After a step to an operand a fraction is allowed only where the state accepts one. -/
theorem stepOperand_allowsFraction {state next : State} {fractionAllowed : Bool} {token : Token}
    (h : state.stepOperand token = .ok next)
    (hf : fractionAllowed = true → state.line.inExponent = false)
    : next.AllowsFraction (token.fractionAfter fractionAllowed) := by
  cases token with
  | numeral numeral =>
      simp only [stepOperand, withNumeral] at h
      split at h
      · cases h
      · split at h <;> cases h <;> exact fun hphase => by cases hphase
  | symbol | callee => cases h; exact fun hphase => by cases hphase
  | sign sign =>
      cases h
      exact fun _ hallowed => by simpa using hf hallowed
  | opening => cases h; exact fun _ _ => rfl
  | times | slash | caret | closing | comma => cases h

/-- The flag that goes along with reading tokens allows no fraction that the state refuses. -/
theorem step_allowsFraction {state next : State} {fractionAllowed : Bool} {token : Token}
    (h : state.step token = .ok next) (hf : state.AllowsFraction fractionAllowed)
    : next.AllowsFraction (token.fractionAfter fractionAllowed) := by
  obtain ⟨enclosures, line, phase⟩ := state
  cases phase with
  | operand => exact stepOperand_allowsFraction h (hf rfl)
  | callee name =>
      cases token with
      | opening => cases h; exact fun _ _ => rfl
      | numeral | symbol | callee | sign | times | slash | caret | closing | comma => cases h
  | operator operand =>
      cases token with
      | numeral | symbol | callee | opening => exact stepOperand_allowsFraction h fun _ => rfl
      | times | slash | sign => cases h; exact fun _ _ => rfl
      | caret => cases h; exact fun _ hallowed => absurd hallowed Bool.false_ne_true
      | closing =>
          simp only [step, stepOperator] at h
          split at h <;> cases h <;> exact fun hphase => by cases hphase
      | comma =>
          simp only [step, stepOperator] at h
          split at h <;> cases h
          exact fun _ _ => rfl
  | undefined numerator => cases h

-----------------------------------------------------------------------------------------
-- A fraction is accepted exactly if its parts are
-----------------------------------------------------------------------------------------

theorem step_integer (enclosures : List Enclosure) (line : Line) (digits : List Char)
    : step ⟨enclosures, line, .operand⟩ (.numeral (.decimal digits []))
      = .ok ⟨enclosures, line, .operator (.constant (.ofNumeral (.decimal digits [])))⟩ := by
  simp [step, stepOperand, withNumeral, withOperand, Numeral.isFraction, Numeral.denominator]

/-- Where an operand is expected, a fraction and its parts leave states of the same outline. -/
theorem step_fraction {enclosures enclosures' : List Enclosure} {line line' : Line}
    (he : enclosures.map Enclosure.outline = enclosures'.map Enclosure.outline)
    (hline : line.inExponent = false) {numerator denominator : List Char}
    (hd : (Numeral.fraction numerator denominator).denominator ≠ 0)
    : AlikeResults
        (step ⟨enclosures, line, .operand⟩ (.numeral (.fraction numerator denominator)))
        (run ⟨enclosures', line', .operand⟩
          (Token.numeral (.fraction numerator denominator)).parts) := by
  have hwhole : step ⟨enclosures, line, .operand⟩ (.numeral (.fraction numerator denominator))
      = .ok ⟨enclosures, line,
          .operator (.constant (.ofNumeral (.fraction numerator denominator)))⟩ := by
    simp [step, stepOperand, withNumeral, withOperand, hline, hd]
  have hparts : run ⟨enclosures', line', .operand⟩
        (Token.numeral (.fraction numerator denominator)).parts
      = .ok ⟨enclosures',
          line'.attach (.constant (.ofNumeral (.decimal numerator []))) .dividedBy,
          .operator (.constant (.ofNumeral (.decimal denominator [])))⟩ := by
    simp only [Token.parts, run, step_integer]
    exact step_integer _ _ denominator
  rw [hwhole, hparts]
  exact .states (outline_eq_iff.mpr ⟨he, hline, rfl⟩)

/-- A token is accepted exactly if its parts are, and they leave states of the same outline. -/
theorem step_parts {state other : State} (h : state.outline = other.outline)
    {fractionAllowed : Bool} {token : Token} (hf : state.AllowsFraction fractionAllowed)
    (hallowed : (fractionAllowed || !token.isFraction) = true) (hd : token.isUndefined = false)
    : AlikeResults (state.step token) (other.run token.parts) := by
  have hsame (hp : token.parts = [token])
      : AlikeResults (state.step token) (other.run token.parts) := by
    rw [hp, run_singleton]
    exact step_alike h token
  cases token with
  | symbol | callee | sign | times | slash | caret | opening | closing | comma => exact hsame rfl
  | numeral numeral =>
      cases numeral with
      | decimal whole places => exact hsame rfl
      | fraction numerator denominator =>
          have hdenominator : (Numeral.fraction numerator denominator).denominator ≠ 0 := by
            simpa [Token.isUndefined] using hd
          have hflag : fractionAllowed = true := by
            simpa [Token.isFraction, Numeral.isFraction] using hallowed
          obtain ⟨henclosures, _, hphase⟩ := outline_eq_iff.mp h
          obtain ⟨enclosures, line, phase⟩ := state
          obtain ⟨enclosures', line', phase'⟩ := other
          rcases phase_cases hphase with
            ⟨rfl, rfl⟩ | ⟨_, _, rfl, rfl⟩ | ⟨_, _, rfl, rfl⟩ | ⟨_, _, rfl, rfl⟩
          · exact step_fraction henclosures (hf rfl hflag) hdenominator
          · exact .refused _ _
          · -- The fraction is a factor beside the operand, and so is its numerator.
            exact step_fraction henclosures rfl hdenominator
          · exact .refused _ _

/-- Tokens are accepted exactly if their parts are, and they leave states of the same outline. -/
theorem run_parts {state other : State} (h : state.outline = other.outline)
    {fractionAllowed : Bool} (hf : state.AllowsFraction fractionAllowed) {tokens : List Token}
    (hfit : Token.fractionsFit fractionAllowed tokens = true) (hd : AllDefined tokens)
    : AlikeResults (state.run tokens) (other.run (tokens.flatMap Token.parts)) := by
  induction tokens generalizing state other fractionAllowed with
  | nil => exact .states h
  | cons token rest ih =>
      obtain ⟨htoken, hrest⟩ := allDefined_cons.mp hd
      simp only [Token.fractionsFit, Bool.and_eq_true] at hfit
      rw [List.flatMap_cons, run_append]
      -- The two runs share no tree; the outline is what the induction carries.
      refine (step_parts h hf hfit.1 htoken).bind fun next next' hnext halike => ?_
      exact ih halike (step_allowsFraction hnext hf) hfit.2 hrest

end State

/-- Taking fractions to pieces leaves integers and slashes, all of them defined. -/
theorem allDefined_parts {tokens : List Token} (h : AllDefined tokens)
    : AllDefined (tokens.flatMap Token.parts) := by
  intro part hpart
  obtain ⟨token, htoken, hmem⟩ := List.mem_flatMap.mp hpart
  have hinteger (digits : List Char)
      : (Token.numeral (.decimal digits [])).isUndefined = false := by
    simp [Token.isUndefined, Numeral.denominator]
  unfold Token.parts at hmem
  split at hmem
  · simp only [List.mem_cons, List.not_mem_nil, or_false] at hmem
    rcases hmem with rfl | rfl | rfl
    · exact hinteger _
    · rfl
    · exact hinteger _
  · rw [List.mem_singleton.mp hmem]
    exact h token htoken

/-- Defined tokens are those of a formula exactly if a formula may end where they lead to. -/
theorem exists_derives_iff {tokens : List Token} (h : AllDefined tokens)
    : (∃ e, Derives .sum tokens e)
      ↔ ∃ last, State.start.run tokens = .ok last ∧ ∃ e, last.finish = .ok e := by
  constructor
  · rintro ⟨e, he⟩
    obtain ⟨last, hrun, hfinish⟩ := he.run_finish h
    exact ⟨last, hrun, e, hfinish⟩
  · rintro ⟨last, hrun, e, hfinish⟩
    exact ⟨e, (State.derives_of_run hrun hfinish).1⟩

/-- The tokens of a formula are those whose parts are the tokens of a formula. -/
theorem derives_parts_iff {tokens : List Token} (hfit : Token.fractionsFit true tokens = true)
    (hd : AllDefined tokens)
    : (∃ e, Derives .sum tokens e) ↔ ∃ e, Derives .sum (tokens.flatMap Token.parts) e := by
  have hstart : State.start.AllowsFraction true := fun _ _ => rfl
  rw [exists_derives_iff hd, exists_derives_iff (allDefined_parts hd)]
  exact State.exists_finish_iff (State.run_parts rfl hstart hfit hd)

end TermGrouping
