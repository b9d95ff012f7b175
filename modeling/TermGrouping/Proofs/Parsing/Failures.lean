import TermGrouping.Proofs.Parsing.Denominators
import TermGrouping.Proofs.Parsing.Replacement

/-! Where reading fails. A text is refused at a place up to which it is the beginning of a formula:
the tokens in front of the place lead to a state that can be completed, and they are read again if
what stands behind the place is exchanged for the completion.
-/

namespace TermGrouping

-----------------------------------------------------------------------------------------
-- The places of a scan
-----------------------------------------------------------------------------------------

namespace Scan

/-- The places of a text where a token was looked for: those where a token starts, and the one where
none could be read. -/
def places (scan : Scan) : List Nat := scan.lexemes.map Lexeme.start ++ scan.stop.toList

/-- In front of each place of a scan stand the tokens that were read before. -/
theorem exists_tokenisedUpTo (before : List Token) (position : Nat) (text : List Char)
    {index place : Nat}
    (h : (ofCharsAt (Token.fractionBehind before) position text).places[index]? = some place)
    : ∃ front rest,
        text = front ++ rest
        ∧ place = position + front.length
        ∧ TokenisedUpTo before text
            ((ofCharsAt (Token.fractionBehind before) position text).tokens.take index) rest
        ∧ ∀ lexeme ∈ (ofCharsAt (Token.fractionBehind before) position text).lexemes.take index,
            lexeme.start < place := by
  generalize hflag : Token.fractionBehind before = fractionAllowed at h ⊢
  fun_induction ofCharsAt fractionAllowed position text generalizing before index with
  | case1 => simp [places] at h
  | case2 fractionAllowed position c text hc ih =>
      obtain ⟨front, rest, rfl, rfl, hread, hstarts⟩ := ih before hflag h
      have hplace : position + 1 + front.length = position + (c :: front).length := by
        rw [List.length_cons, Nat.add_right_comm, Nat.add_assoc]
      exact ⟨c :: front, rest, rfl, hplace, .spacing hc hread, hstarts⟩
  | case3 fractionAllowed position c text hc hr =>
      cases index with
      | zero =>
          obtain rfl : position = place := by simpa [places] using h
          exact ⟨[], c :: text, rfl, rfl, .nil before _, by simp⟩
      | succ index => simp [places] at h
  | case4 fractionAllowed position c text hc token remaining hr ih =>
      subst hflag
      cases index with
      | zero =>
          obtain rfl : position = place := by simpa [places, cons] using h
          exact ⟨[], c :: text, rfl, rfl, .nil before _, by simp⟩
      | succ index =>
          obtain ⟨front, rest, rfl, rfl, hread, hstarts⟩ := ih (token :: before) rfl h
          have hnext := Token.read?_iff_isNext.mp hr
          have hpos := List.length_pos_iff.mpr (Token.read?_spelling_ne_nil hr)
          refine ⟨token.spelling ++ front, rest, ?_, ?_, .token hnext hread,
            List.forall_mem_cons.mpr ⟨?_, hstarts⟩⟩
          · rw [List.append_assoc, hnext.split]
          · rw [List.length_append, Nat.add_assoc]
          · dsimp only
            omega

end Scan

/-- Reading fails for a place of the scan, behind a run of the tokens in front of it; or the text is
empty, and reading fails where it started. -/
theorem State.exists_run_of_read {state : State} {position place : Nat} {stop : Option Nat}
    {lexemes : List Lexeme}
    (h : state.read position stop lexemes = .error (.unreadable place))
    : (lexemes = [] ∧ place = position)
      ∨ ∃ index last,
          (Scan.places ⟨lexemes, stop⟩)[index]? = some place
          ∧ state.run ((Scan.tokens ⟨lexemes, stop⟩).take index) = .ok last := by
  induction lexemes generalizing state position with
  | nil =>
      cases stop with
      | some stop =>
          cases h
          exact .inr ⟨0, state, rfl, rfl⟩
      | none =>
          refine .inl ⟨rfl, ?_⟩
          rw [State.read] at h
          cases hf : state.finish with
          | ok e =>
              rw [hf] at h
              cases h
          | error refusal =>
              rw [hf] at h
              cases refusal with
              | zeroDenominator => cases h
              | unexpected =>
                  cases h
                  rfl
  | cons lexeme lexemes ih =>
      rw [State.read] at h
      cases hs : state.step lexeme.token with
      | error refusal =>
          rw [hs] at h
          cases refusal with
          | zeroDenominator => cases h
          | unexpected =>
              cases h
              exact .inr ⟨0, state, rfl, rfl⟩
      | ok next =>
          rw [hs] at h
          rcases ih h with ⟨rfl, rfl⟩ | ⟨index, last, hplace, hrun⟩
          · -- The text ends behind this token, so its start is the place.
            exact .inr ⟨0, state, rfl, rfl⟩
          · refine .inr ⟨index + 1, last, hplace, ?_⟩
            change state.run (lexeme.token :: _) = _
            rw [run, hs]
            exact hrun

-----------------------------------------------------------------------------------------
-- Completing a text
-----------------------------------------------------------------------------------------

/-- An operand, in brackets if it should be, and the brackets that close the open ones. -/
def completion (bracketed : Bool) (depth : Nat) : List Token :=
  (if bracketed then [.opening, .symbol 'x', .closing] else [.symbol 'x'])
    ++ List.replicate depth .closing

def completingText (bracketed : Bool) (depth : Nat) : List Char :=
  (if bracketed then ['(', 'x', ')'] else [' ', 'x']) ++ List.replicate depth ')'

/-- Behind an operand, all open brackets can be closed. -/
theorem State.run_closings (enclosures : List Enclosure) (line : Line) (operand : Expr)
    : ∃ last e,
        State.run ⟨enclosures, line, .operator operand⟩
          (List.replicate enclosures.length .closing) = .ok last
        ∧ last.finish = .ok e := by
  induction enclosures generalizing line operand with
  | nil => exact ⟨_, _, rfl, rfl⟩
  | cons enclosure enclosures ih =>
      cases enclosure with
      | group outer => exact ih outer _
      | call name arguments outer => exact ih outer _

/-- Every state can be completed, unless the last token is a fraction without a value. Behind the
name of a function brackets are needed. -/
theorem State.run_completion {state : State} (bracketed : Bool)
    (hdefined : ∀ n, state.phase ≠ .undefined n)
    (hcallee : ∀ name, state.phase = .callee name → bracketed = true)
    : ∃ last e,
        state.run (completion bracketed state.enclosures.length) = .ok last
        ∧ last.finish = .ok e := by
  obtain ⟨enclosures, line, phase⟩ := state
  cases phase with
  | operand => cases bracketed <;> exact run_closings enclosures _ _
  | operator operand => cases bracketed <;> exact run_closings enclosures _ _
  | callee name =>
      obtain rfl := hcallee name rfl
      exact run_closings enclosures _ _
  | undefined n => exact absurd rfl (hdefined n)

theorem lexes_closings (fractionAllowed : Bool) (depth : Nat)
    : Lexes fractionAllowed (List.replicate depth ')') (List.replicate depth .closing) := by
  induction depth generalizing fractionAllowed with
  | zero => exact .nil fractionAllowed
  | succ depth ih => exact .token rfl rfl (ih true)

/-- The completing text is read as the completion: its operand stands in brackets or behind a
blank. -/
theorem lexes_completingText (fractionAllowed bracketed : Bool) (depth : Nat)
    : Lexes fractionAllowed (completingText bracketed depth) (completion bracketed depth) := by
  cases bracketed with
  | true => exact .token rfl rfl (.token rfl rfl (.token rfl rfl (lexes_closings true depth)))
  | false =>
      have hread : Token.read? fractionAllowed ('x' :: List.replicate depth ')')
          = some (.symbol 'x', List.replicate depth ')') := by
        cases depth <;> rfl
      exact .spacing rfl (.token rfl hread (lexes_closings true depth))

theorem canReplace_completingText (rest : List Char) (depth : Nat)
    : Text.CanReplace (completingText (Token.bracketFollows rest) depth) rest := by
  cases h : Token.bracketFollows rest with
  | true => exact ⟨rfl, h.symm⟩
  | false => exact ⟨rfl, h.symm⟩

/-- A bracket follows behind the name of a function, even if reading stops in front of it. -/
theorem TokenisedUpTo.bracketFollows {before tokens : List Token} {text rest : List Char}
    {name : List Char} (h : TokenisedUpTo before text (tokens ++ [.callee name]) rest)
    : Token.bracketFollows rest = true := by
  have hspacing {before : List Token} {text rest : List Char}
      (h : TokenisedUpTo before text [] rest)
      : Token.bracketFollows rest = Token.bracketFollows text := by
    generalize hnil : ([] : List Token) = tokens at h
    induction h with
    | nil => rfl
    | spacing hc _ ih =>
        rw [ih hnil, Token.bracketFollows_cons_of_isBlank (Text.isBlank_of_isSpacing hc)]
    | token => cases hnil
  generalize hall : tokens ++ [.callee name] = all at h
  induction h generalizing tokens with
  | nil => simp at hall
  | spacing _ _ ih => exact ih hall
  | token hnext hrest ih =>
      cases tokens with
      | nil =>
          cases hall
          rw [hspacing hrest]
          exact (Token.fits_callee_iff.mp hnext.fits).2.2
      | cons first tokens =>
          cases hall
          exact ih rfl

-----------------------------------------------------------------------------------------
-- Places where reading fails
-----------------------------------------------------------------------------------------

/-- Behind defined tokens no fraction lacks a value, and only behind the name of a function its
bracket is waited for. -/
theorem State.phase_of_run {tokens : List Token} {last : State}
    (hrun : State.start.run tokens = .ok last) (hdefined : AllDefined tokens)
    : (∀ n, last.phase ≠ .undefined n)
      ∧ ∀ name, last.phase = .callee name →
          ∃ before letters, tokens = before ++ [.callee letters] := by
  have hvalue (n : Nat) : last.phase ≠ .undefined n := by
    intro hphase
    obtain ⟨before, token, rfl, hzero, -⟩ := State.run_eq_undefined_iff.mp ⟨last, hrun, hphase⟩
    have htoken := hdefined token (List.mem_append_right before List.mem_cons_self)
    rw [Token.isUndefined_iff.mpr ⟨n, hzero⟩] at htoken
    cases htoken
  refine ⟨hvalue, fun name hphase => ?_⟩
  rcases State.run_reads hrun State.start_reads with
    ⟨n, hn⟩ | ⟨-, before, inner, behind, -, -, hreads, htokens⟩
  · exact absurd hn (hvalue n)
  · rw [hphase] at hreads
    cases hreads with
    | callee letters => exact ⟨before ++ inner, letters, htokens⟩

/-- If reading stops at a place of a text behind defined tokens, the text up to this place can be
completed to a formula. -/
theorem exists_parse_of_run {front rest : List Char} {tokens : List Token} {last : State}
    (hread : TokenisedUpTo [] (front ++ rest) tokens rest)
    (hrun : State.start.run tokens = .ok last) (hdefined : AllDefined tokens)
    : ∃ behind e, parse (String.ofList (front ++ behind)) = .ok e := by
  obtain ⟨hvalue, hcallee⟩ := State.phase_of_run hrun hdefined
  have hbracket : ∀ name, last.phase = .callee name → Token.bracketFollows rest = true := by
    intro name hphase
    obtain ⟨before, letters, rfl⟩ := hcallee name hphase
    exact hread.bracketFollows
  obtain ⟨final, e, hcompleted, hfinish⟩ := State.run_completion _ hvalue hbracket
  obtain ⟨same, hsame, hreread⟩ :=
    hread.replaced (canReplace_completingText rest last.enclosures.length)
  obtain rfl := List.append_cancel_right hsame
  have hwords := hreread.append (lexes_iff_tokenised.mp (lexes_completingText _ _ _))
  have hwhole := State.run_append .start tokens
    (completion (Token.bracketFollows rest) last.enclosures.length)
  rw [hrun] at hwhole
  obtain ⟨hd, hall⟩ := State.derives_of_run (hwhole.trans hcompleted) hfinish
  refine ⟨completingText (Token.bracketFollows rest) last.enclosures.length, e,
    parse_eq_ok_iff.mpr ⟨_, ?_, hd, hall⟩⟩
  rw [String.toList_ofList]
  exact lexes_iff_tokenised.mpr hwords

/-- A text that is refused at a place is the beginning of a formula up to this place, as long as no
fraction that starts before it has the denominator zero. -/
theorem exists_completion_of_unreadable {text : String} {position : Nat}
    (h : parse text = .error (.unreadable position))
    (hdefined : ∀ lexeme ∈ (Scan.ofText text.toList).lexemes,
      lexeme.start < position → lexeme.token.isUndefined = false)
    : ∃ behind e, parse (String.ofList (text.toList.take position) ++ behind) = .ok e := by
  obtain ⟨front, rest, tokens, last, hsplit, rfl, hread, hrun, htokens⟩ :
      ∃ front rest tokens last,
        text.toList = front ++ rest
        ∧ position = front.length
        ∧ TokenisedUpTo [] text.toList tokens rest
        ∧ State.start.run tokens = .ok last
        ∧ AllDefined tokens := by
    rcases State.exists_run_of_read h with ⟨-, rfl⟩ | ⟨index, last, hplace, hrun⟩
    · exact ⟨[], text.toList, [], .start, rfl, rfl, .nil _ _, rfl, List.forall_mem_nil _⟩
    · obtain ⟨front, rest, hsplit, hposition, hread, hstarts⟩ :=
        Scan.exists_tokenisedUpTo [] 0 text.toList hplace
      refine ⟨front, rest, _, last, hsplit, by simpa using hposition, hread, hrun, ?_⟩
      intro token ht
      rw [Scan.tokens, ← List.map_take] at ht
      obtain ⟨lexeme, hl, rfl⟩ := List.mem_map.mp ht
      exact hdefined lexeme (List.mem_of_mem_take hl) (hstarts lexeme hl)
  rw [hsplit] at hread ⊢
  obtain ⟨behind, e, hparse⟩ := exists_parse_of_run hread hrun htokens
  refine ⟨String.ofList behind, e, ?_⟩
  rwa [List.take_left, ← String.ofList_append]

/-- A text that is cut behind the name of a function, which is one only because of the bracket that
is cut off. -/
theorem exists_completion_of_unreadable_name
    : let text := "2 sin(1/2, ab\u00a0("
      parse text = .error (.unreadable 13)
      ∧ (∀ lexeme ∈ (Scan.ofText text.toList).lexemes,
          lexeme.start < 13 → lexeme.token.isUndefined = false)
      ∧ ∃ behind e, parse ("2 sin(1/2, ab" ++ behind) = .ok e := by
  intro text
  have h : parse text = .error (.unreadable 13) := by
    unfold text
    cbv
  have hdefined : (Scan.ofText text.toList).lexemes.all (fun lexeme =>
      !decide (lexeme.start < 13) || !lexeme.token.isUndefined) = true := by
    unfold text
    cbv
  have hdefined : ∀ lexeme ∈ (Scan.ofText text.toList).lexemes,
      lexeme.start < 13 → lexeme.token.isUndefined = false := by
    intro lexeme hl hlt
    simpa [hlt] using List.all_eq_true.mp hdefined lexeme hl
  have htake : String.ofList (text.toList.take 13) = "2 sin(1/2, ab" := by
    unfold text
    cbv
  obtain ⟨behind, e, hparse⟩ := exists_completion_of_unreadable h hdefined
  rw [htake] at hparse
  exact ⟨h, hdefined, behind, e, hparse⟩

end TermGrouping
