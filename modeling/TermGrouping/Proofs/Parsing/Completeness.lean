import TermGrouping.Parse.State
import TermGrouping.Proofs.Parsing.Derivation

/-! What the grammar derives, the states read. A part of a formula is read from any state that
waits for it, so every statement quantifies over the open brackets and the line before the part.
The grammar knows nothing of denominators; so the states first read fractions whatever their
denominators are, which is the same for tokens that are all defined.
-/

namespace TermGrouping

namespace State

def withAnyNumeral (state : State) (numeral : Numeral) : Except Refusal State :=
  if numeral.isFraction && state.line.inExponent then .error .unexpected
  else .ok (state.withOperand (.constant (.ofNumeral numeral)))

/-- The next state, where a fraction with the denominator zero is an operand like any other. -/
def stepLeniently (state : State) (token : Token) : Except Refusal State :=
  match token, state.phase with
  | .numeral numeral, .operand => state.withAnyNumeral numeral
  | .numeral numeral, .operator operand =>
      { state with line := state.line.attach operand .beside, phase := .operand }.withAnyNumeral
        numeral
  | token, _ => state.step token

def runLeniently (state : State) : List Token → Except Refusal State
  | [] => .ok state
  | token :: rest => state.stepLeniently token >>= fun next => next.runLeniently rest

/-- A defined token makes no difference. -/
theorem stepLeniently_eq (state : State) {token : Token} (h : token.isUndefined = false)
    : state.stepLeniently token = state.step token := by
  cases token with
  | numeral numeral =>
      have hd : numeral.denominator ≠ 0 := by simpa [Token.isUndefined] using h
      have hany (state : State) : state.withAnyNumeral numeral = state.withNumeral numeral := by
        simp [withAnyNumeral, withNumeral, hd]
      obtain ⟨enclosures, line, phase⟩ := state
      cases phase <;> simp [stepLeniently, step, stepOperand, stepOperator, hany]
  | _ => rfl

/-- The lenient run is the run wherever no token is undefined, by induction over the tokens. -/
theorem runLeniently_eq (state : State) {tokens : List Token} (h : AllDefined tokens)
    : state.runLeniently tokens = state.run tokens := by
  induction tokens generalizing state with
  | nil => rfl
  | cons token rest ih =>
      obtain ⟨htoken, hrest⟩ := allDefined_cons.mp h
      simp only [runLeniently, run, stepLeniently_eq state htoken]
      exact congrArg _ (funext fun next => ih next hrest)

@[simp]
theorem run_nil (state : State) : state.run [] = .ok state := rfl

theorem run_singleton (state : State) (token : Token) : state.run [token] = state.step token := by
  simp only [run]
  cases state.step token <;> rfl

/-- Running over two lists is running over the one and then over the other, by induction over the
first. -/
theorem run_append (state : State) (left right : List Token)
    : state.run (left ++ right) = state.run left >>= fun next => next.run right := by
  induction left generalizing state with
  | nil => rfl
  | cons token left ih => simp only [List.cons_append, run, ih, bind_assoc]

theorem runLeniently_cons {state next : State} {token : Token} (rest : List Token)
    (h : state.stepLeniently token = .ok next)
    : state.runLeniently (token :: rest) = next.runLeniently rest := by
  simp only [runLeniently, h]
  rfl

theorem runLeniently_append_eq (state : State) (left right : List Token)
    : state.runLeniently (left ++ right)
      = state.runLeniently left >>= fun next => next.runLeniently right := by
  induction left generalizing state with
  | nil => rfl
  | cons token left ih => simp only [List.cons_append, runLeniently, ih, bind_assoc]

theorem runLeniently_append {state next : State} {left : List Token} (right : List Token)
    (h : state.runLeniently left = .ok next)
    : state.runLeniently (left ++ right) = next.runLeniently right := by
  rw [runLeniently_append_eq, h]
  rfl

end State

/-- Behind an operand, the first token of another operand attaches a factor without a sign. -/
theorem State.stepLeniently_beside (enclosures : List Enclosure) (line : Line) (operand : Expr)
    {token : Token} (ht : token.startsOperand = true)
    : State.stepLeniently ⟨enclosures, line, .operator operand⟩ token
      = State.stepLeniently ⟨enclosures, line.attach operand .beside, .operand⟩ token := by
  cases token <;> first | rfl | cases ht

/-- What reading a part of a formula does to a state that waits for it. Each category adds to the
parts of the line that it can change, and leaves an operand behind. -/
def Category.ReadsTo (category : Category) (tokens : List Token) (e : Expr) : Prop :=
  match category with
  | .operand =>
      ∀ enclosures line,
        State.runLeniently ⟨enclosures, line, .operand⟩ tokens = .ok ⟨enclosures, line, .operator e⟩
  | .atom =>
      ∀ enclosures line,
        line.raised = []
        → State.runLeniently ⟨enclosures, line, .operand⟩ tokens
          = .ok ⟨enclosures, line, .operator e⟩
  | .exponent =>
      ∀ enclosures line,
        line.raised ≠ []
        → ∃ raised operand,
            State.runLeniently ⟨enclosures, line, .operand⟩ tokens
              = .ok ⟨enclosures, { line with raised := raised ++ line.raised },
                  .operator operand⟩
            ∧ raised.foldl (fun exponent r => r.apply exponent) operand = e
  | .power =>
      ∀ enclosures line,
        line.raised = []
        → ∃ raised operand,
            State.runLeniently ⟨enclosures, line, .operand⟩ tokens
              = .ok ⟨enclosures, { line with raised }, .operator operand⟩
            ∧ raised.foldl (fun exponent r => r.apply exponent) operand = e
  | .unary =>
      ∀ enclosures line,
        line.raised = []
        → ∃ signs raised operand,
            State.runLeniently ⟨enclosures, line, .operand⟩ tokens
              = .ok ⟨enclosures, { line with signs := signs ++ line.signs, raised },
                  .operator operand⟩
            ∧ signs.foldl (fun e s => s.apply e)
                (raised.foldl (fun exponent r => r.apply exponent) operand) = e
  | .product =>
      ∀ enclosures terms,
        ∃ line operand,
          State.runLeniently ⟨enclosures, ⟨terms, none, [], []⟩, .operand⟩ tokens
            = .ok ⟨enclosures, line, .operator operand⟩
          ∧ line.terms = terms
          ∧ line.product operand = e
  | .sum =>
      ∀ enclosures,
        ∃ line operand,
          State.runLeniently ⟨enclosures, .start, .operand⟩ tokens
            = .ok ⟨enclosures, line, .operator operand⟩
          ∧ line.sum operand = e

/-- What reading arguments does behind the bracket of a call: all but the last are complete, and
the last is the sum under way. -/
def ArgumentsReadTo (tokens : List Token) (arguments : List Expr) : Prop :=
  ∀ enclosures name before outer,
    ∃ complete line operand,
      State.runLeniently ⟨.call name before outer :: enclosures, .start, .operand⟩ tokens
        = .ok ⟨.call name (before ++ complete) outer :: enclosures, line, .operator operand⟩
      ∧ complete ++ [line.sum operand] = arguments

-----------------------------------------------------------------------------------------
-- One lemma for each way to put a part together
-----------------------------------------------------------------------------------------

/-- A numeral becomes the operand of its constant wherever a fraction may stand, or where it is
none. -/
theorem numeral_readsTo {numeral : Numeral} (enclosures : List Enclosure) (line : Line)
    (hr : numeral.isFraction = false ∨ line.raised = [])
    : State.runLeniently ⟨enclosures, line, .operand⟩ [.numeral numeral]
      = .ok ⟨enclosures, line, .operator (.constant (.ofNumeral numeral))⟩ := by
  have hallowed : (numeral.isFraction && line.inExponent) = false := by
    rcases hr with hr | hr <;> simp [hr, Line.inExponent]
  apply State.runLeniently_cons []
  simp [State.stepLeniently, State.withAnyNumeral, hallowed, State.withOperand]

/-- A call is read by opening its bracket, reading the arguments there, and closing it. -/
theorem call_readsTo {tokens : List Token} {arguments : List Expr} (name : List Char)
    (h : ArgumentsReadTo tokens arguments)
    : Category.ReadsTo .operand (.callee name :: .opening :: tokens ++ [.closing])
        (.call (String.ofList name) arguments) := by
  intro enclosures line
  obtain ⟨complete, inner, operand, hrun, rfl⟩ := h enclosures (String.ofList name) [] line
  rw [List.cons_append, State.runLeniently_cons _ rfl, List.cons_append,
    State.runLeniently_cons _ rfl]
  exact State.runLeniently_append _ hrun

/-- Brackets around a sum are read by starting a new line and closing it again. -/
theorem group_readsTo {tokens : List Token} {e : Expr} (h : Category.ReadsTo .sum tokens e)
    : Category.ReadsTo .operand (.opening :: tokens ++ [.closing]) (.group e) := by
  intro enclosures line
  obtain ⟨inner, operand, hrun, rfl⟩ := h (.group line :: enclosures)
  rw [List.cons_append, State.runLeniently_cons _ rfl]
  exact State.runLeniently_append _ hrun

/-- An operand with a caret stays under way in front of the exponent behind it. -/
theorem exponentRaised_readsTo {left right : List Token} {a b : Expr}
    (hl : Category.ReadsTo .operand left a) (hr : Category.ReadsTo .exponent right b)
    : Category.ReadsTo .exponent (left ++ .caret :: right) (.power a b) := by
  intro enclosures line _
  obtain ⟨raised, operand, hrun, rfl⟩ := hr enclosures (line.raise a) (by simp [Line.raise])
  refine ⟨raised ++ [.base a], operand, ?_, by simp [Raised.apply]⟩
  rw [State.runLeniently_append _ (hl enclosures line), State.runLeniently_cons _ rfl]
  simpa [Line.raise] using hrun

/-- A sign in an exponent belongs to the exponent, because a power is under way. -/
theorem exponentSigned_readsTo {tokens : List Token} {e : Expr} (sign : Sign)
    (h : Category.ReadsTo .exponent tokens e)
    : Category.ReadsTo .exponent (.sign sign :: tokens) (sign.apply e) := by
  intro enclosures line hraised
  have hsigned : line.signed sign = { line with raised := .sign sign :: line.raised } := by
    obtain ⟨r, rs, hrs⟩ := List.exists_cons_of_ne_nil hraised
    simp [Line.signed, hrs]
  obtain ⟨raised, operand, hrun, rfl⟩ := h enclosures (line.signed sign) (by simp [hsigned])
  refine ⟨raised ++ [.sign sign], operand, ?_, by simp [Raised.apply]⟩
  rw [State.runLeniently_cons _ rfl]
  simpa [hsigned] using hrun

/-- A power is read by putting its base under way, and completed by its exponent. -/
theorem raised_readsTo {left right : List Token} {a b : Expr}
    (hl : Category.ReadsTo .atom left a) (hr : Category.ReadsTo .exponent right b)
    : Category.ReadsTo .power (left ++ .caret :: right) (.power a b) := by
  intro enclosures line hraised
  obtain ⟨raised, operand, hrun, rfl⟩ := hr enclosures (line.raise a) (by simp [Line.raise])
  refine ⟨raised ++ [.base a], operand, ?_, by simp [Raised.apply]⟩
  rw [State.runLeniently_append _ (hl enclosures line hraised), State.runLeniently_cons _ rfl]
  simpa [Line.raise, hraised] using hrun

/-- A sign in front of a factor is kept until the factor is complete. -/
theorem signed_readsTo {tokens : List Token} {e : Expr} (sign : Sign)
    (h : Category.ReadsTo .unary tokens e)
    : Category.ReadsTo .unary (.sign sign :: tokens) (sign.apply e) := by
  intro enclosures line hraised
  have hsigned : line.signed sign = { line with signs := sign :: line.signs } := by
    simp [Line.signed, hraised]
  obtain ⟨signs, raised, operand, hrun, rfl⟩ :=
    h enclosures (line.signed sign) (by simp [hsigned, hraised])
  refine ⟨signs ++ [sign], raised, operand, ?_, by simp⟩
  rw [State.runLeniently_cons _ rfl]
  simpa [hsigned] using hrun

/-- A factor that is read behind a product becomes its last part, however it is attached. -/
theorem joint_readsTo {right : List Token} {b : Expr} (hr : Category.ReadsTo .unary right b)
    (enclosures : List Enclosure) (line : Line) (operand : Expr) (joint : Joint)
    : ∃ next last,
        State.runLeniently ⟨enclosures, line.attach operand joint, .operand⟩ right
          = .ok ⟨enclosures, next, .operator last⟩
        ∧ next.terms = line.terms
        ∧ next.product last = joint.apply (line.product operand) b := by
  obtain ⟨signs, raised, last, hrun, rfl⟩ := hr enclosures (line.attach operand joint) rfl
  exact ⟨_, last, hrun, rfl, by simp [Line.attach, Line.product, Line.factor, Line.power]⟩

theorem unary_of_power {tokens : List Token} {e : Expr} (h : Category.ReadsTo .power tokens e)
    : Category.ReadsTo .unary tokens e := by
  intro enclosures line hraised
  obtain ⟨raised, operand, hrun, he⟩ := h enclosures line hraised
  exact ⟨[], raised, operand, by simpa using hrun, he⟩

/-- A factor behind a star or a slash is attached to the product before it, by the step of the token
in between. -/
theorem attached_readsTo {left right : List Token} {a b : Expr} {token : Token} (joint : Joint)
    (hl : Category.ReadsTo .product left a) (hr : Category.ReadsTo .unary right b)
    (hs : ∀ enclosures line operand,
      State.stepLeniently ⟨enclosures, line, .operator operand⟩ token
        = .ok ⟨enclosures, line.attach operand joint, .operand⟩)
    : Category.ReadsTo .product (left ++ token :: right) (joint.apply a b) := by
  intro enclosures terms
  obtain ⟨line, operand, hrun, rfl, rfl⟩ := hl enclosures terms
  obtain ⟨next, last, hnext, hterms, hproduct⟩ := joint_readsTo hr enclosures line operand joint
  refine ⟨next, last, ?_, hterms, hproduct⟩
  rw [State.runLeniently_append _ hrun, State.runLeniently_cons _ (hs enclosures line operand),
    hnext]

/-- A factor without a sign is attached to the product before it. Its first token does in one step
what a joint and an operand do in two. -/
theorem beside_readsTo {left right : List Token} {a b : Expr}
    (hl : Category.ReadsTo .product left a) (hr : Category.ReadsTo .power right b)
    (hd : Derives .power right b)
    : Category.ReadsTo .product (left ++ right) (.product [a, b] true) := by
  intro enclosures terms
  obtain ⟨line, operand, hrun, rfl, rfl⟩ := hl enclosures terms
  obtain ⟨next, last, hnext, hterms, hproduct⟩ :=
    joint_readsTo (unary_of_power hr) enclosures line operand .beside
  refine ⟨next, last, ?_, hterms, hproduct⟩
  obtain ⟨token, rest, rfl, ht⟩ := hd.starts_operand (.inr (.inr rfl))
  rw [State.runLeniently_append _ hrun, ← hnext]
  simp only [State.runLeniently, State.stepLeniently_beside enclosures line operand ht]

/-- A sign between two products completes the sum before it and starts the next term. -/
theorem terms_readsTo {left right : List Token} {a b : Expr} (sign : Sign)
    (hl : Category.ReadsTo .sum left a) (hr : Category.ReadsTo .product right b)
    : Category.ReadsTo .sum (left ++ .sign sign :: right) (.sum [a, sign.apply b]) := by
  intro enclosures
  obtain ⟨line, operand, hrun, rfl⟩ := hl enclosures
  obtain ⟨next, last, hnext, hterms, rfl⟩ := hr enclosures (some (line.sum operand, sign))
  refine ⟨next, last, ?_, by simp [Line.sum, hterms]⟩
  rw [State.runLeniently_append _ hrun, State.runLeniently_cons _ rfl]
  exact hnext

/-- A comma completes the argument before it and starts the next one. -/
theorem more_readsTo {left right : List Token} {arguments : List Expr} {e : Expr}
    (hl : ArgumentsReadTo left arguments) (hr : Category.ReadsTo .sum right e)
    : ArgumentsReadTo (left ++ .comma :: right) (arguments ++ [e]) := by
  intro enclosures name before outer
  obtain ⟨complete, line, operand, hrun, rfl⟩ := hl enclosures name before outer
  obtain ⟨next, last, hnext, rfl⟩ :=
    hr (.call name (before ++ (complete ++ [line.sum operand])) outer :: enclosures)
  refine ⟨complete ++ [line.sum operand], next, last, ?_, rfl⟩
  rw [State.runLeniently_append _ hrun, State.runLeniently_cons _ rfl, List.append_assoc]
  exact hnext

-----------------------------------------------------------------------------------------
-- Every derivation is read
-----------------------------------------------------------------------------------------

/-- A derived part of a formula is read. -/
theorem Derives.readsTo {category : Category} {tokens : List Token} {e : Expr}
    (h : Derives category tokens e)
    : category.ReadsTo tokens e := by
  induction h using Derives.induct ArgumentsReadTo with
  | term _ ih =>
      intro enclosures
      obtain ⟨line, operand, hrun, hterms, rfl⟩ := ih enclosures none
      exact ⟨line, operand, hrun, by simp [Line.sum, hterms]⟩
  | terms sign _ _ ihl ihr => exact terms_readsTo sign ihl ihr
  | factor _ ih =>
      intro enclosures terms
      obtain ⟨signs, raised, operand, hrun, rfl⟩ := ih enclosures ⟨terms, none, [], []⟩ rfl
      exact ⟨_, operand, hrun, rfl, by simp [Line.product, Line.factor, Line.power]⟩
  | times _ _ ihl ihr => exact attached_readsTo .times ihl ihr fun _ _ _ => rfl
  | dividedBy _ _ ihl ihr => exact attached_readsTo .dividedBy ihl ihr fun _ _ _ => rfl
  | beside _ hr ihl ihr => exact beside_readsTo ihl ihr hr
  | unsigned _ ih => exact unary_of_power ih
  | signed sign _ ih => exact signed_readsTo sign ih
  | base _ ih =>
      intro enclosures line hraised
      exact ⟨[], _, by simpa [← hraised] using ih enclosures line hraised, rfl⟩
  | raised _ _ ihl ihr => exact raised_readsTo ihl ihr
  | exponentBase _ ih =>
      intro enclosures line _
      exact ⟨[], _, by simpa using ih enclosures line, rfl⟩
  | exponentRaised _ _ ihl ihr => exact exponentRaised_readsTo ihl ihr
  | exponentSigned sign _ ih => exact exponentSigned_readsTo sign ih
  | fraction numerator denominator =>
      exact fun enclosures line hraised => numeral_readsTo enclosures line (.inr hraised)
  | atomOperand _ ih => exact fun enclosures line _ => ih enclosures line
  | decimal whole places => exact fun enclosures line => numeral_readsTo enclosures line (.inl rfl)
  | symbol letter => exact fun enclosures line => rfl
  | call name _ ih => exact call_readsTo name ih
  | group _ ih => exact group_readsTo ih
  | one _ ih =>
      intro enclosures name before outer
      obtain ⟨line, operand, hrun, rfl⟩ := ih (.call name before outer :: enclosures)
      exact ⟨[], line, operand, by simpa using hrun, rfl⟩
  | more _ _ ihl ihr => exact more_readsTo ihl ihr

/-- A derived formula is read from the start, whatever the denominators of fractions are. -/
theorem Derives.runLeniently_finish {tokens : List Token} {e : Expr} (h : Derives .sum tokens e)
    : ∃ state, State.start.runLeniently tokens = .ok state ∧ state.finish = .ok e := by
  obtain ⟨line, operand, hrun, rfl⟩ := h.readsTo []
  exact ⟨_, hrun, rfl⟩

/-- A derived formula is read from the start, if its fractions are defined. -/
theorem Derives.run_finish {tokens : List Token} {e : Expr} (h : Derives .sum tokens e)
    (hd : AllDefined tokens)
    : ∃ state, State.start.run tokens = .ok state ∧ state.finish = .ok e := by
  rw [← State.runLeniently_eq _ hd]
  exact h.runLeniently_finish

/-- Tokens derive one formula only, because a run has one end. -/
theorem Derives.unique {tokens : List Token} {a b : Expr} (ha : Derives .sum tokens a)
    (hb : Derives .sum tokens b)
    : a = b := by
  obtain ⟨first, hrun, hfinish⟩ := ha.runLeniently_finish
  obtain ⟨second, hrun', hfinish'⟩ := hb.runLeniently_finish
  cases Except.ok.inj (hrun.symm.trans hrun')
  exact Except.ok.inj (hfinish.symm.trans hfinish')

end TermGrouping
