import TermGrouping.Lexeme
import TermGrouping.Parse.Error
import TermGrouping.Parse.State

/-! Reading a whole formula. The tokens of the text are read one after the other until the text
ends, a token is refused, or no token can be read. The number of digits of a numeral is no reason
for a refusal, since no limit for it is modelled.
-/

namespace TermGrouping

/-- The error that a refusal at a place of a text amounts to. -/
def Refusal.errorAt (position : Nat) : Refusal → ParseError
  | unexpected => .unreadable position
  | zeroDenominator numerator => .zeroDenominator numerator

/-- The formula that goes on from a state with the given tokens. The position is the start of
the token before them, where an unexpected end is reported. -/
def State.read (state : State) (position : Nat) (stop : Option Nat)
    : List Lexeme → Except ParseError Expr
  | [] =>
      match stop with
      | some stop => .error (.unreadable stop)
      | none => state.finish.mapError (Refusal.errorAt position)
  | lexeme :: rest =>
      match state.step lexeme.token with
      | .error refusal => .error (refusal.errorAt lexeme.start)
      | .ok next => next.read lexeme.start stop rest

/-- The formula that a text writes. -/
def parse (text : String) : Except ParseError Expr :=
  let scan := Scan.ofText text.toList
  State.start.read 0 scan.stop scan.lexemes

end TermGrouping
