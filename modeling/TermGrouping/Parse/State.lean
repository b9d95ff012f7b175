import TermGrouping.Parse.Line

/-! Reading a formula token by token. A state holds the line under way and, for each open bracket,
the line that goes on behind it; a token moves it to the next state or is refused.
-/

namespace TermGrouping

/-- An open bracket, with the line that it interrupts. -/
inductive Enclosure where
  /-- Brackets around a sum. -/
  | group (outer : Line)
  /-- The arguments of a function, with those that are complete. -/
  | call (name : String) (arguments : List Expr) (outer : Line)
  deriving DecidableEq

/-- What the line waits for. -/
inductive Phase where
  /-- An operand, or a sign in front of one. -/
  | operand
  /-- The bracket behind the name of a function. -/
  | callee (name : String)
  /-- An operator, the end of the line, or a factor without a sign, behind an operand. -/
  | operator (operand : Expr)
  /-- Nothing: the last token is a fraction without a value. -/
  | undefined (numerator : Nat)
  deriving DecidableEq

/-- What has been read of a formula. -/
structure State where
  /-- The open brackets, the innermost first. -/
  enclosures : List Enclosure
  line : Line
  phase : Phase
  deriving DecidableEq

/-- Why a token cannot follow. -/
inductive Refusal where
  /-- No formula goes on with this token. -/
  | unexpected
  /-- The token before is a fraction with this numerator and the denominator zero. -/
  | zeroDenominator (numerator : Nat)
  deriving DecidableEq

namespace State

def start : State := ⟨[], .start, .operand⟩

def withOperand (state : State) (operand : Expr) : State :=
  { state with phase := .operator operand }

/-- The state in front of a new line inside a bracket. -/
def enclose (state : State) (enclosure : Enclosure) : State :=
  ⟨enclosure :: state.enclosures, .start, .operand⟩

/-- The state after a numeral. An exponent cannot be a fraction, and a fraction needs a
denominator other than zero. -/
def withNumeral (state : State) (numeral : Numeral) : Except Refusal State :=
  if numeral.isFraction && state.line.inExponent then .error .unexpected
  else if numeral.denominator = 0 then
    .ok { state with phase := .undefined numeral.numerator }
  else .ok (state.withOperand (.constant (.ofNumeral numeral)))

def stepOperand (state : State) : Token → Except Refusal State
  | .numeral numeral => state.withNumeral numeral
  | .symbol letter => .ok (state.withOperand (.symbol (String.singleton letter)))
  | .callee name => .ok { state with phase := .callee (String.ofList name) }
  | .sign sign => .ok { state with line := state.line.signed sign, phase := .operand }
  | .opening => .ok (state.enclose (.group state.line))
  | .times | .slash | .caret | .closing | .comma => .error .unexpected

/-- The next state behind an operand. A token that starts an operand is a factor written beside
the product so far. -/
def stepOperator (state : State) (operand : Expr) : Token → Except Refusal State
  | .caret => .ok { state with line := state.line.raise operand, phase := .operand }
  | .times => .ok { state with line := state.line.attach operand .times, phase := .operand }
  | .slash => .ok { state with line := state.line.attach operand .dividedBy, phase := .operand }
  | .sign sign => .ok { state with line := state.line.continued operand sign, phase := .operand }
  | .closing =>
      match state.enclosures with
      | [] => .error .unexpected
      | .group outer :: enclosures =>
          .ok ⟨enclosures, outer, .operator (.group (state.line.sum operand))⟩
      | .call name arguments outer :: enclosures =>
          .ok ⟨enclosures, outer,
            .operator (.call name (arguments ++ [state.line.sum operand]))⟩
  | .comma =>
      match state.enclosures with
      | .call name arguments outer :: enclosures =>
          .ok ⟨.call name (arguments ++ [state.line.sum operand]) outer :: enclosures, .start,
            .operand⟩
      | _ => .error .unexpected
  | token =>
      { state with line := state.line.attach operand .beside, phase := .operand }.stepOperand token

def step (state : State) (token : Token) : Except Refusal State :=
  match state.phase with
  | .operand => state.stepOperand token
  | .callee name =>
      match token with
      | .opening => .ok (state.enclose (.call name [] state.line))
      | _ => .error .unexpected
  | .operator operand => state.stepOperator operand token
  | .undefined numerator => .error (.zeroDenominator numerator)

/-- The formula, if it may end here. -/
def finish (state : State) : Except Refusal Expr :=
  match state.phase, state.enclosures with
  | .operator operand, [] => .ok (state.line.sum operand)
  | .undefined numerator, _ => .error (.zeroDenominator numerator)
  | _, _ => .error .unexpected

def run (state : State) : List Token → Except Refusal State
  | [] => .ok state
  | token :: rest => state.step token >>= fun next => next.run rest

end State

end TermGrouping
