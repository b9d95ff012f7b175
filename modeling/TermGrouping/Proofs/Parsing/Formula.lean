import TermGrouping.Parse.Formula
import TermGrouping.Proofs.Parsing.Completeness
import TermGrouping.Proofs.Parsing.Lexing
import TermGrouping.Proofs.Parsing.Soundness

/-! Formulas as the grammar sees them. A text is read as a tree exactly if it consists of tokens
from which the grammar derives the tree, none of them a fraction with the denominator zero.
-/

namespace TermGrouping

/-- Reading lexemes succeeds exactly if the text goes on to its end and its tokens run to a state
in which the formula may end. -/
theorem State.read_eq_ok_iff {state : State} {position : Nat} {stop : Option Nat}
    {lexemes : List Lexeme} {e : Expr}
    : state.read position stop lexemes = .ok e
      ↔ stop = none
        ∧ ∃ last, state.run (lexemes.map Lexeme.token) = .ok last ∧ last.finish = .ok e := by
  induction lexemes generalizing state position with
  | nil =>
      cases stop with
      | some stop => simp [State.read]
      | none =>
          cases hf : state.finish with
          | error refusal =>
              have hread : state.read position none [] = .error (refusal.errorAt position) := by
                rw [State.read, hf]
                rfl
              simp [hread, hf]
          | ok whole =>
              have hread : state.read position none [] = .ok whole := by
                rw [State.read, hf]
                rfl
              simp [hread, hf]
  | cons lexeme lexemes ih =>
      simp only [State.read, List.map_cons, State.run]
      cases hs : state.step lexeme.token with
      | error refusal => simp [bind, Except.bind]
      | ok next => exact ih

/-- A text is read as a tree exactly if its tokens derive the tree and are all defined. -/
theorem parse_eq_ok_iff {text : String} {e : Expr}
    : parse text = .ok e
      ↔ ∃ tokens, Lexes true text.toList tokens ∧ Derives .sum tokens e ∧ AllDefined tokens := by
  have hl (tokens : List Token)
      : Lexes true text.toList tokens
        ↔ (Scan.ofText text.toList).tokens = tokens ∧ (Scan.ofText text.toList).stop = none :=
    Scan.lexes_iff 0
  unfold parse
  rw [State.read_eq_ok_iff]
  constructor
  · rintro ⟨hstop, last, hrun, hfinish⟩
    obtain ⟨hd, hdefined⟩ := State.derives_of_run hrun hfinish
    exact ⟨_, (hl _).mpr ⟨rfl, hstop⟩, hd, hdefined⟩
  · rintro ⟨tokens, hlexes, hd, hdefined⟩
    obtain ⟨rfl, hstop⟩ := (hl tokens).mp hlexes
    exact ⟨hstop, hd.run_finish hdefined⟩

end TermGrouping
