import TermGrouping.Proofs.Parsing.Beginnings
import TermGrouping.Proofs.Parsing.Continuations

/-! Fractions with the denominator zero. Such a fraction is refused once another token or the end of
the text is seen behind it; so whether a text is refused for a denominator, and for which one, does
not depend on what stands behind that token.
-/

namespace TermGrouping

/-- A text has a fraction with the given numerator and the denominator zero behind the given tokens,
which begin a formula together with it; and behind the fraction the text ends or goes on with some
terminal. -/
def DividesByZero (text : List Char) (before : List Token) (n : Nat) : Prop :=
  ∃ token rest,
    token.IsZeroDivision n
    ∧ TokenisedUpTo [] text (before ++ [token]) rest
    ∧ BeginsFormula (before ++ [token])
    ∧ CanContinue rest

-----------------------------------------------------------------------------------------
-- Where reading fails for a denominator
-----------------------------------------------------------------------------------------

namespace State

theorem withNumeral_ne_zeroDenominator (state : State) (numeral : Numeral) (n : Nat)
    : state.withNumeral numeral ≠ .error (.zeroDenominator n) := by
  unfold withNumeral
  split
  · simp
  · split <;> simp

/-- No denominator is refused where an operand is expected; the refusal comes with the token behind
it. -/
theorem stepOperand_ne_zeroDenominator (state : State) (token : Token) (n : Nat)
    : state.stepOperand token ≠ .error (.zeroDenominator n) := by
  cases token with
  | numeral numeral => exact withNumeral_ne_zeroDenominator state numeral n
  | symbol | callee | sign | times | slash | caret | opening | closing | comma =>
      simp [stepOperand]

/-- A token is refused for a denominator only behind a fraction without a value. -/
theorem step_eq_zeroDenominator {state : State} {token : Token} {n : Nat}
    : state.step token = .error (.zeroDenominator n) ↔ state.phase = .undefined n := by
  obtain ⟨enclosures, line, phase⟩ := state
  cases phase with
  | operand => exact iff_of_false (stepOperand_ne_zeroDenominator _ token n) (by simp)
  | callee => cases token <;> simp [step]
  | operator operand =>
      refine iff_of_false ?_ (by simp)
      cases token with
      | numeral | symbol | callee | opening =>
          simp only [step, stepOperator]
          exact stepOperand_ne_zeroDenominator _ _ n
      | sign | times | slash | caret => simp [step, stepOperator]
      | closing | comma =>
          simp only [step, stepOperator]
          split <;> simp
  | undefined => simp [step]

/-- The end refuses a denominator exactly in the undefined phase. -/
theorem finish_eq_zeroDenominator {state : State} {n : Nat}
    : state.finish = .error (.zeroDenominator n) ↔ state.phase = .undefined n := by
  unfold finish
  split <;> simp_all

theorem errorAt_eq_zeroDenominator {refusal : Refusal} {position n : Nat}
    : refusal.errorAt position = .zeroDenominator n ↔ refusal = .zeroDenominator n := by
  cases refusal <;> simp [Refusal.errorAt]

/-- Whether a run of the first tokens of a scan ends without a value, and the scan goes on. -/
def RefusesDenominator (state : State) (scan : Scan) (n : Nat) : Prop :=
  ∃ tokens last, scan.GoesOnAfter tokens ∧ state.run tokens = .ok last ∧ last.phase = .undefined n

/-- At the end of a scan a denominator is refused in the undefined phase, if the text ends there
too. -/
theorem refusesDenominator_nil {state : State} {stop : Option Nat} {n : Nat}
    : state.RefusesDenominator ⟨[], stop⟩ n ↔ stop = none ∧ state.phase = .undefined n := by
  constructor
  · rintro ⟨tokens, last, hgoes, hrun, hlast⟩
    cases tokens with
    | nil =>
        cases hrun
        exact ⟨by simpa [Scan.goesOnAfter_nil, Scan.tokens] using hgoes, hlast⟩
    | cons => exact absurd hgoes Scan.not_goesOnAfter_cons
  · rintro ⟨rfl, hphase⟩
    exact ⟨[], state, Scan.goesOnAfter_nil.mpr (.inr rfl), rfl, hphase⟩

/-- A denominator is refused in front of the first token, or by the state that this token leads
to. -/
theorem refusesDenominator_cons {state : State} {lexeme : Lexeme} {scan : Scan} {n : Nat}
    : state.RefusesDenominator (scan.cons lexeme) n
      ↔ state.phase = .undefined n
        ∨ ∃ next, state.step lexeme.token = .ok next ∧ next.RefusesDenominator scan n := by
  constructor
  · rintro ⟨tokens, last, hgoes, hrun, hlast⟩
    cases tokens with
    | nil =>
        cases hrun
        exact .inl hlast
    | cons token tokens =>
        obtain ⟨rfl, hrest⟩ := Scan.goesOnAfter_cons.mp hgoes
        obtain ⟨next, hstep, hrun⟩ := exists_of_bind_eq_ok hrun
        exact .inr ⟨next, hstep, tokens, last, hrest, hrun, hlast⟩
  · rintro (hphase | ⟨next, hstep, tokens, last, hgoes, hrun, hlast⟩)
    · exact ⟨[], state, Scan.goesOnAfter_nil.mpr (.inl (List.cons_ne_nil _ _)), rfl, hphase⟩
    · refine ⟨lexeme.token :: tokens, last, Scan.goesOnAfter_cons.mpr ⟨rfl, hgoes⟩, ?_, hlast⟩
      rw [run, hstep]
      exact hrun

/-- Reading fails for a denominator exactly if a run of the first tokens ends without a value, and
another token or the end of the text follows. -/
theorem read_eq_zeroDenominator_iff {state : State} {position n : Nat} {stop : Option Nat}
    {lexemes : List Lexeme}
    : state.read position stop lexemes = .error (.zeroDenominator n)
      ↔ state.RefusesDenominator ⟨lexemes, stop⟩ n := by
  induction lexemes generalizing state position with
  | nil =>
      rw [refusesDenominator_nil]
      cases stop with
      | some stop => simp [State.read]
      | none =>
          rw [← finish_eq_zeroDenominator, State.read]
          cases state.finish <;> simp [Except.mapError, errorAt_eq_zeroDenominator]
  | cons lexeme lexemes ih =>
      change _ ↔ state.RefusesDenominator (Scan.cons lexeme ⟨lexemes, stop⟩) n
      have hphase := @step_eq_zeroDenominator state lexeme.token n
      rw [refusesDenominator_cons, State.read, ← hphase]
      cases state.step lexeme.token with
      | error refusal => simp [errorAt_eq_zeroDenominator]
      | ok next => simpa using ih

end State

-----------------------------------------------------------------------------------------
-- The first fraction with the denominator zero
-----------------------------------------------------------------------------------------

/-- A prefix of tokens that begin a formula begins the same formula. -/
theorem BeginsFormula.of_append {left right : List Token} (h : BeginsFormula (left ++ right))
    : BeginsFormula left := by
  obtain ⟨rest, e, hd⟩ := h
  exact ⟨right ++ rest, e, by simpa using hd⟩

/-- What divides by zero in a text shows in its scan. -/
theorem dividesByZero_iff {text : List Char} {before : List Token} {n : Nat}
    : DividesByZero text before n
      ↔ ∃ token,
          token.IsZeroDivision n
          ∧ (Scan.ofText text).GoesOnAfter (before ++ [token])
          ∧ BeginsFormula (before ++ [token]) := by
  have hgoes {token : Token} (hzero : token.IsZeroDivision n)
      : (Scan.ofText text).GoesOnAfter (before ++ [token])
        ↔ ∃ rest, TokenisedUpTo [] text (before ++ [token]) rest ∧ CanContinue rest := by
    cases hzero
    exact Scan.goesOnAfter_iff [] 0 (by simp [Token.fractionBehind, Token.fractionAfter])
  constructor
  · rintro ⟨token, rest, hzero, hread, hbegins, hrest⟩
    exact ⟨token, hzero, (hgoes hzero).mpr ⟨rest, hread, hrest⟩, hbegins⟩
  · rintro ⟨token, hzero, hscan, hbegins⟩
    obtain ⟨rest, hread, hrest⟩ := (hgoes hzero).mp hscan
    exact ⟨token, rest, hzero, hread, hbegins, hrest⟩

/-- A text is refused for a denominator exactly if something divides by zero in it, behind tokens
that are all defined. -/
theorem parse_eq_zeroDenominator_iff {text : String} {n : Nat}
    : parse text = .error (.zeroDenominator n)
      ↔ ∃ before, DividesByZero text.toList before n ∧ AllDefined before := by
  unfold parse
  rw [State.read_eq_zeroDenominator_iff]
  constructor
  · rintro ⟨tokens, last, hscan, hlast⟩
    obtain ⟨before, token, rfl, hzero, hdefined, hbegins⟩ :=
      State.run_eq_undefined_iff.mp ⟨last, hlast⟩
    exact ⟨before, dividesByZero_iff.mpr ⟨token, hzero, hscan, hbegins⟩, hdefined⟩
  · rintro ⟨before, hdivides, hdefined⟩
    obtain ⟨token, hzero, hscan, hbegins⟩ := dividesByZero_iff.mp hdivides
    obtain ⟨last, hlast⟩ :=
      State.run_eq_undefined_iff.mpr ⟨before, token, rfl, hzero, hdefined, hbegins⟩
    exact ⟨_, last, hscan, hlast⟩

/-- The undefined tokens are the fractions with the denominator zero: decimals have powers of
ten. -/
theorem Token.isUndefined_iff {token : Token}
    : token.isUndefined = true ↔ ∃ n, token.IsZeroDivision n := by
  constructor
  · intro h
    cases token with
    | numeral digits =>
        have hzero : digits.denominator = 0 := by simpa [isUndefined] using h
        cases digits with
        | decimal => cases Numeral.isFraction_of_denominator_eq_zero hzero
        | fraction => exact ⟨_, .intro hzero⟩
    | symbol | callee | sign | times | slash | caret | opening | closing | comma => cases h
  · rintro ⟨n, ⟨hzero⟩⟩
    simp [isUndefined, Numeral.denominator, hzero]

namespace DividesByZero

variable {text : List Char} {before : List Token} {n : Nat}

/-- An undefined token before a fraction that divides by zero does so itself. -/
theorem exists_earlier (h : DividesByZero text before n) (hundefined : ¬ AllDefined before)
    : ∃ other m, DividesByZero text other m ∧ other.length < before.length := by
  obtain ⟨token, -, hscan, hbegins⟩ := dividesByZero_iff.mp h
  obtain ⟨first, hmem, hfirst⟩ : ∃ token ∈ before, token.isUndefined = true := by
    simpa [AllDefined] using hundefined
  obtain ⟨other, behind, rfl⟩ := List.append_of_mem hmem
  obtain ⟨m, hzero⟩ := Token.isUndefined_iff.mp hfirst
  rw [List.append_cons other, List.append_assoc] at hscan hbegins
  refine ⟨other, m, ?_, by simp⟩
  exact dividesByZero_iff.mpr ⟨first, hzero, hscan.of_append, hbegins.of_append⟩

/-- If some fraction divides by zero, then one does behind tokens that are all defined. -/
theorem exists_first (h : DividesByZero text before n)
    : ∃ first m, DividesByZero text first m ∧ AllDefined first := by
  induction hlength : before.length using Nat.strong_induction_on generalizing before n with
  | _ length ih =>
      subst hlength
      by_cases hdefined : AllDefined before
      · exact ⟨before, n, h, hdefined⟩
      · obtain ⟨other, m, hother, hlt⟩ := h.exists_earlier hdefined
        exact ih other.length hlt hother rfl

/-- The first fraction that divides by zero is the one behind tokens that are all defined. -/
theorem allDefined_iff (h : DividesByZero text before n)
    : AllDefined before ↔ ∀ other m, DividesByZero text other m → before <+: other := by
  constructor
  · intro hdefined other m hother
    obtain ⟨token, -, ⟨hscan, -⟩, -⟩ := dividesByZero_iff.mp h
    obtain ⟨first, hzero, ⟨hscan', -⟩, -⟩ := dividesByZero_iff.mp hother
    rcases Nat.lt_or_ge other.length before.length with hlt | hle
    · -- The other fraction would be one of the defined tokens.
      have hprefix := List.prefix_of_prefix_length_le hscan'
        ((List.prefix_append _ _).trans hscan) (by simpa using hlt)
      have hmem := hprefix.subset (List.mem_append_right other List.mem_cons_self)
      have hundefined := Token.isUndefined_iff.mpr ⟨m, hzero⟩
      rw [hdefined first hmem] at hundefined
      cases hundefined
    · exact List.prefix_of_prefix_length_le ((List.prefix_append _ _).trans hscan)
        ((List.prefix_append _ _).trans hscan') hle
  · intro hfirst
    by_contra hundefined
    obtain ⟨other, m, hother, hlt⟩ := h.exists_earlier hundefined
    have hle := (hfirst other m hother).length_le
    omega

end DividesByZero

/-- Every text is read as a tree, or refused for a denominator or for a place in it. It is refused
for a denominator exactly if something divides by zero in it, whatever stands behind that, and the
error shows the numerator of the first fraction that does. -/
theorem parse_divides_by_zero (text : String)
    : ((∃ e, parse text = .ok e)
        ∨ (∃ n, parse text = .error (.zeroDenominator n))
        ∨ ∃ position, parse text = .error (.unreadable position))
      ∧ ((∃ n, parse text = .error (.zeroDenominator n))
        ↔ ∃ before n, DividesByZero text.toList before n)
      ∧ ∀ n,
          (parse text = .error (.zeroDenominator n)
            ↔ ∃ before,
                DividesByZero text.toList before n
                ∧ ∀ other m, DividesByZero text.toList other m → before <+: other)
          ∧ (ParseError.zeroDenominator n).message text = "Fraction(" ++ toString n ++ ", 0)" := by
  refine ⟨?_, ⟨?_, ?_⟩, fun n => ⟨?_, rfl⟩⟩
  · cases hparse : parse text with
    | ok e => exact .inl ⟨e, rfl⟩
    | error error =>
        cases error with
        | unreadable position => exact .inr (.inr ⟨position, rfl⟩)
        | zeroDenominator n => exact .inr (.inl ⟨n, rfl⟩)
  · rintro ⟨n, h⟩
    obtain ⟨before, hdivides, -⟩ := parse_eq_zeroDenominator_iff.mp h
    exact ⟨before, n, hdivides⟩
  · rintro ⟨before, n, hdivides⟩
    obtain ⟨first, m, hfirst, hdefined⟩ := hdivides.exists_first
    exact ⟨m, parse_eq_zeroDenominator_iff.mpr ⟨first, hfirst, hdefined⟩⟩
  · rw [parse_eq_zeroDenominator_iff]
    exact exists_congr fun before => and_congr_right fun h => h.allDefined_iff

example : parse "2x + 07/00 )) $" = .error (.zeroDenominator 7) := by cbv

end TermGrouping
