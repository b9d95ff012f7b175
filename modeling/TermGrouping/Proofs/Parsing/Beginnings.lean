import TermGrouping.Proofs.Parsing.Completeness
import TermGrouping.Proofs.Parsing.Soundness

/-! Beginnings of formulas. What has been read up to an operand can be completed, because every open
bracket can be closed behind it. So the states accept a fraction without a value exactly where the
fraction is the end of a beginning of a formula, whatever its value is.
-/

namespace TermGrouping

/-- An operand behind the tokens of open brackets and of a line is the end of a beginning of a
formula: the line ends with it, and the brackets are closed from the innermost outwards. -/
theorem EnclosuresRead.beginsFormula {enclosures : List Enclosure} {line : Line}
    {before inner last : List Token} {operand : Expr} (he : EnclosuresRead enclosures before)
    (hl : line.Reads inner) (ho : Derives line.operandCategory last operand)
    : BeginsFormula (before ++ inner ++ last) := by
  induction he generalizing line inner last operand with
  | nil => exact ⟨[], _, by simpa using hl.sum ho⟩
  | @group _ _ outer _ _ hline ih =>
      have hgroup := outer.operandCategory_of_operand (.group (hl.sum ho))
      obtain ⟨rest, e, hd⟩ := ih hline hgroup
      exact ⟨.closing :: rest, e, by simpa using hd⟩
  | @call _ _ outer _ _ _ name _ hline harguments ih =>
      have hcall := outer.operandCategory_of_operand
        (.call name (harguments.snoc (hl.sum ho)))
      obtain ⟨rest, e, hd⟩ := ih hline hcall
      exact ⟨.closing :: rest, e, by simpa using hd⟩

namespace State

-----------------------------------------------------------------------------------------
-- Fractions without a value
-----------------------------------------------------------------------------------------

/-- A numeral that is accepted without a value has the denominator zero, and ends a beginning of a
formula. -/
theorem beginsFormula_of_withNumeral {state next : State} {before inner : List Token}
    {numeral : Numeral} {n : Nat} (he : EnclosuresRead state.enclosures before)
    (hl : state.line.Reads inner) (h : state.withNumeral numeral = .ok next)
    (hn : next.phase = .undefined n)
    : Token.IsZeroDivision (.numeral numeral) n
      ∧ BeginsFormula (before ++ inner ++ [.numeral numeral]) := by
  unfold withNumeral at h
  split at h
  · cases h
  next hfraction =>
  split at h
  · next hzero =>
    cases h
    cases hn
    cases numeral with
    | decimal => cases Numeral.isFraction_of_denominator_eq_zero hzero
    | fraction numerator denominator =>
        have hatom : state.line.operandCategory = .atom :=
          if_pos (by simpa [Numeral.isFraction, Line.inExponent] using hfraction)
        have ho := Derives.fraction numerator denominator
        exact ⟨.intro hzero, he.beginsFormula hl (hatom ▸ ho)⟩
  · cases h
    cases hn

/-- Only a numeral is accepted without a value: in front of an operand, or beside one. -/
theorem step_eq_undefined {state next : State} {token : Token} {n : Nat}
    (h : state.step token = .ok next) (hn : next.phase = .undefined n)
    : ∃ numeral, token = .numeral numeral
        ∧ (state.phase = .operand ∧ state.withNumeral numeral = .ok next
          ∨ ∃ operand, state.phase = .operator operand
              ∧ withNumeral { state with line := state.line.attach operand .beside } numeral
                = .ok next) := by
  obtain ⟨enclosures, line, phase⟩ := state
  cases phase with
  | operand =>
      cases token with
      | numeral numeral => exact ⟨numeral, rfl, .inl ⟨rfl, h⟩⟩
      | symbol | callee | sign | times | slash | caret | opening | closing | comma =>
          cases h <;> cases hn
  | callee =>
      cases token with
      | opening =>
          cases h
          cases hn
      | numeral | symbol | callee | sign | times | slash | caret | closing | comma => cases h
  | operator operand =>
      cases token with
      | numeral numeral => exact ⟨numeral, rfl, .inr ⟨operand, rfl, h⟩⟩
      | symbol | callee | sign | times | slash | caret | opening =>
          cases h
          cases hn
      | closing | comma =>
          simp only [step, stepOperator] at h
          split at h <;> cases h <;> cases hn
  | undefined => cases h

/-- A token that leaves a state without a value is a fraction with the denominator zero. The tokens
before it are defined, and together with it they begin a formula. -/
theorem Reads.beginsFormula_of_step {state next : State} {tokens : List Token} {token : Token}
    {n : Nat} (hr : state.Reads tokens) (h : state.step token = .ok next)
    (hn : next.phase = .undefined n)
    : token.IsZeroDivision n ∧ AllDefined tokens ∧ BeginsFormula (tokens ++ [token]) := by
  rcases hr with ⟨m, hphase⟩ | ⟨hdefined, before, inner, last, he, hl, hp, rfl⟩
  · rw [step, hphase] at h
    cases h
  obtain ⟨numeral, rfl, ⟨hphase, hw⟩ | ⟨operand, hphase, hw⟩⟩ := step_eq_undefined h hn
  · rw [hphase] at hp
    cases hp
    obtain ⟨hzero, hbegins⟩ := beginsFormula_of_withNumeral he hl hw hn
    exact ⟨hzero, hdefined, by simpa using hbegins⟩
  · rw [hphase] at hp
    cases hp with
    | operator ho =>
        have hattached := hl.attach ho .beside
        rw [Joint.tokens, List.append_nil] at hattached
        let beside : State := { state with line := state.line.attach operand .beside }
        have he : EnclosuresRead beside.enclosures before := he
        obtain ⟨hzero, hbegins⟩ := beginsFormula_of_withNumeral he hattached hw hn
        exact ⟨hzero, hdefined, by simpa using hbegins⟩

/-- Where a fraction may stand, one with the denominator zero leaves the state without a value. -/
theorem step_of_stepLeniently {state next : State} {token : Token} {n : Nat}
    (h : state.stepLeniently token = .ok next) (hzero : token.IsZeroDivision n)
    : ∃ last, state.step token = .ok last ∧ last.phase = .undefined n := by
  obtain @⟨numerator, denominator, hzero⟩ := hzero
  have hnumeral {state next : State}
      (h : state.withAnyNumeral (.fraction numerator denominator) = .ok next)
      : ∃ last, state.withNumeral (.fraction numerator denominator) = .ok last
          ∧ last.phase = .undefined (Text.naturalOf numerator) := by
    unfold withAnyNumeral at h
    unfold withNumeral
    split at h
    · cases h
    · next hallowed => exact ⟨_, (if_neg hallowed).trans (if_pos hzero), rfl⟩
  obtain ⟨enclosures, line, phase⟩ := state
  cases phase with
  | operand => exact hnumeral h
  | operator operand => exact hnumeral h
  | callee | undefined => cases h

/-- A run ends without a value exactly if its last token is a fraction with the denominator zero,
the tokens before are defined, and all of them begin a formula. -/
theorem run_eq_undefined_iff {tokens : List Token} {n : Nat}
    : (∃ last, start.run tokens = .ok last ∧ last.phase = .undefined n)
      ↔ ∃ before token,
          tokens = before ++ [token]
          ∧ token.IsZeroDivision n
          ∧ AllDefined before
          ∧ BeginsFormula tokens := by
  constructor
  · rintro ⟨last, h, hn⟩
    rcases List.eq_nil_or_concat tokens with rfl | ⟨before, token, rfl⟩
    · cases h
      cases hn
    rw [List.concat_eq_append] at h ⊢
    rw [run_append] at h
    obtain ⟨state, hrun, hstep⟩ := exists_of_bind_eq_ok h
    rw [run_singleton] at hstep
    exact ⟨before, token, rfl, (run_reads hrun start_reads).beginsFormula_of_step hstep hn⟩
  · rintro ⟨before, token, rfl, hzero, hdefined, rest, e, hd⟩
    -- The grammar does not look at denominators, and neither does the lenient run.
    obtain ⟨_, hrun, -⟩ := hd.runLeniently_finish
    rw [List.append_assoc, runLeniently_append_eq, runLeniently_eq _ hdefined] at hrun
    obtain ⟨state, hbefore, hrun⟩ := exists_of_bind_eq_ok hrun
    obtain ⟨next, hstep, -⟩ := exists_of_bind_eq_ok hrun
    obtain ⟨last, hstep, hphase⟩ := step_of_stepLeniently hstep hzero
    refine ⟨last, ?_, hphase⟩
    rw [run_append, hbefore]
    exact (run_singleton state token).trans hstep

end State

end TermGrouping
