import Mathlib.Algebra.Order.Ring.Abs
import Mathlib.Algebra.Order.Ring.Rat
import TermGrouping.Proofs.Writing.Readable
import TermGrouping.Proofs.Writing.Regrouping

/-! Traces of trees. The numbers, letters and tight operators of a tree leave the same marks in
its tokens, whatever its signs and brackets are, so a text that is read with other marks is not
read as the tree.
-/

namespace TermGrouping

/-- What reading or writing a tree leaves a mark of. -/
inductive Mark where
  /-- The magnitude of a constant other than one and minus one. -/
  | number (magnitude : Rat)
  | letter (name : String)
  | function
  | slash
  /-- A caret, with the magnitude of the constant that ends its base, if one does. -/
  | caret (base : Option Rat)
  deriving DecidableEq

/-- The marks that were left, and the magnitude of the last leaf, if it is a constant. -/
structure Trace where
  marks : List Mark
  last : Option Rat

namespace Trace

/-- The trace behind a constant. Ones are not marked, because a sign can stand for a factor. -/
def number (trace : Trace) (value : Rat) : Trace :=
  ⟨if |value| = 1 then trace.marks else trace.marks ++ [.number |value|], some |value|⟩

def letter (trace : Trace) (name : String) : Trace := ⟨trace.marks ++ [.letter name], none⟩

def mark (trace : Trace) (mark : Mark) : Trace := ⟨trace.marks ++ [mark], trace.last⟩

def step (trace : Trace) : Token → Trace
  | .numeral digits => trace.number digits.value
  | .symbol letter => trace.letter (String.singleton letter)
  | .callee _ => trace.mark .function
  | .slash => trace.mark .slash
  | .caret => trace.mark (.caret trace.last)
  | .sign _ | .times | .opening | .closing | .comma => trace

/-- A constant and its opposite leave the same trace. -/
theorem number_neg (trace : Trace) (value : Rat) : trace.number (-value) = trace.number value := by
  simp [number]

end Trace

namespace Expr

mutual
@[simp]
def trace : Expr → Trace → Trace
  | constant literal, s => s.number literal.value
  | symbol name, s => s.letter name
  | power base exponent, s =>
      let raised := base.trace s
      exponent.trace (raised.mark (.caret raised.last))
  | sum operands, s => traceAll operands s
  | product operands _, s => traceAll operands s
  | group inner, s => inner.trace s
  | call _ arguments, s => traceAll arguments (s.mark .function)
  | quotient numerator denominator, s =>
      denominator.trace ((numerator.trace s).mark .slash)
  | foreign _, s => s

@[simp]
def traceAll : List Expr → Trace → Trace
  | [], s => s
  | e :: es, s => traceAll es (e.trace s)
end

theorem traceAll_append (es fs : List Expr) (s : Trace)
    : traceAll (es ++ fs) s = traceAll fs (traceAll es s) := by
  induction es generalizing s with
  | nil => rfl
  | cons e es ih => exact ih (e.trace s)

-----------------------------------------------------------------------------------------
-- Trees that are the same up to brackets leave the same trace
-----------------------------------------------------------------------------------------

theorem traceAll_map {f : Expr → Expr} {es : List Expr}
    (h : ∀ e ∈ es, ∀ s, (f e).trace s = e.trace s) (s : Trace)
    : traceAll (es.map f) s = traceAll es s := by
  induction es generalizing s with
  | nil => rfl
  | cons e es ih =>
      obtain ⟨he, hes⟩ := List.forall_mem_cons.mp h
      simp only [List.map_cons, traceAll, he, ih hes]

/-- Replacing each tree of a list by trees of the same trace keeps the trace, by induction over the
list. -/
theorem traceAll_flatMap {f : Expr → List Expr} {es : List Expr}
    (h : ∀ e ∈ es, ∀ s, traceAll (f e) s = e.trace s) (s : Trace)
    : traceAll (es.flatMap f) s = traceAll es s := by
  induction es generalizing s with
  | nil => rfl
  | cons e es ih =>
      obtain ⟨he, hes⟩ := List.forall_mem_cons.mp h
      simp only [List.flatMap_cons, traceAll_append, traceAll, he, ih hes]

theorem traceAll_termsOf (e : Expr) (s : Trace) : traceAll (termsOf e) s = e.trace s := by
  cases e <;> simp [termsOf, trace, traceAll]

theorem traceAll_factorsOf (e : Expr) (s : Trace) : traceAll (factorsOf e) s = e.trace s := by
  cases e <;> simp [factorsOf, trace, traceAll]

/-- Groups leave no trace, by induction over the tree. -/
theorem trace_ungrouped (e : Expr) : ∀ s, e.ungrouped.trace s = e.trace s := by
  induction e using Expr.induct with
  | constant | symbol | foreign => exact fun _ => rfl
  | power _ _ ihb ihx => simp [ungrouped, trace, ihb, ihx]
  | quotient _ _ ihn ihd => simp [ungrouped, trace, ihn, ihd]
  | group _ ih => exact ih
  | sum _ ih | product _ _ ih | call _ _ ih =>
      intro s
      simp only [ungrouped, trace, ungroupedAll_eq_map]
      exact traceAll_map ih _

/-- Splicing keeps the trace, because a sum leaves only the traces of its operands. -/
theorem trace_spliced (e : Expr) : ∀ s, e.spliced.trace s = e.trace s := by
  induction e using Expr.induct with
  | constant | symbol | foreign => exact fun _ => rfl
  | power _ _ ihb ihx => simp [spliced, trace, ihb, ihx]
  | quotient _ _ ihn ihd => simp [spliced, trace, ihn, ihd]
  | group _ ih => exact ih
  | sum _ ih =>
      intro s
      simp only [spliced, trace, splicedAll_eq_map]
      rw [traceAll_flatMap fun e _ => traceAll_termsOf e, traceAll_map ih]
  | product _ _ ih =>
      intro s
      simp only [spliced, trace, splicedAll_eq_map]
      rw [traceAll_flatMap fun e _ => traceAll_factorsOf e, traceAll_map ih]
  | call _ _ ih =>
      intro s
      simp only [spliced, trace, splicedAll_eq_map]
      exact traceAll_map ih _

/-- A tree and its shape leave the same trace, by induction over the tree. -/
theorem trace_shape (e : Expr) : ∀ s, e.shape.trace s = e.trace s := by
  induction e using Expr.induct with
  | constant | symbol | foreign => exact fun _ => rfl
  | power _ _ ihb ihx => simp [shape, trace, ihb, ihx]
  | quotient _ _ ihn ihd => simp [shape, trace, ihn, ihd]
  | group _ ih => exact ih
  | sum _ ih | product _ _ ih | call _ _ ih =>
      intro s
      simp only [shape, trace, shapeAll_eq_map]
      exact traceAll_map ih _

/-- Trees that are alike without groups and nested operators leave the same trace. -/
theorem trace_eq_of_alike {a b : Expr} (h : Alike a.ungrouped.spliced b.ungrouped.spliced)
    (s : Trace)
    : a.trace s = b.trace s := by
  have htrace (e : Expr) : e.ungrouped.spliced.shape.trace s = e.trace s := by
    rw [trace_shape, trace_spliced, trace_ungrouped]
  rw [← htrace a, ← htrace b, h]

-----------------------------------------------------------------------------------------
-- Signs leave no trace
-----------------------------------------------------------------------------------------

/-- The trace behind a readable tree does not depend on the leaf before it, because a leaf comes
first in every tree. -/
theorem IsReadable.trace_last {e : Expr} (h : e.IsReadable) (marks : List Mark)
    (a b : Option Rat)
    : e.trace ⟨marks, a⟩ = e.trace ⟨marks, b⟩ := by
  induction h generalizing marks with
  | constant | symbol => rfl
  | power _ _ ihb _ => simp only [trace, ihb marks]
  | quotient _ _ ihn _ => simp only [trace, ihn marks]
  | group _ ih => exact ih marks
  | sum _ _ _ ihh _ | product _ _ _ _ ihh _ => simp only [trace, traceAll, ihh marks]
  | call _ _ _ ihh _ => simp only [trace, traceAll, Trace.mark, ihh]

/-- The factor minus one in front of a tree leaves no trace. -/
theorem IsReadable.trace_minusOne {e : Expr} (h : e.IsReadable) (s : Trace)
    : e.trace (s.number (-1)) = e.trace s := by
  have hone : s.number (-1) = ⟨s.marks, some |(-1 : Rat)|⟩ := by simp [Trace.number]
  rw [hone]
  exact h.trace_last s.marks _ s.last

/-- The opposite of a tree leaves the same trace: it changes a sign, or adds a factor minus one. -/
theorem IsReadable.trace_opposite {e : Expr} (h : e.IsReadable) (s : Trace)
    : e.opposite.trace s = e.trace s := by
  unfold Expr.opposite
  split
  · exact s.number_neg _
  · simp only [trace, traceAll, Literal.opposite, Trace.number_neg]
  · exact h.trace_minusOne s
  · exact h.trace_minusOne s

theorem IsReadable.trace_signed {e : Expr} (h : e.IsReadable) (sign : Sign) (s : Trace)
    : (sign.apply e).trace s = e.trace s := by
  cases sign with
  | plus => rfl
  | minus => exact h.trace_opposite s

end Expr

-----------------------------------------------------------------------------------------
-- Tokens leave the trace of the tree that they write
-----------------------------------------------------------------------------------------

/-- The tokens of a derivation leave the trace of the derived tree. -/
theorem Derives.foldl_step {category : Category} {tokens : List Token} {e : Expr}
    (h : Derives category tokens e) (ht : ∀ token ∈ tokens, token.IsReadable)
    : ∀ s, tokens.foldl Trace.step s = e.trace s := by
  -- Every part starts from the trace of the part in front of it, so the trace stays arbitrary.
  induction h using Derives.induct fun tokens es => (∀ token ∈ tokens, token.IsReadable)
      → ∀ s, tokens.foldl Trace.step s = Expr.traceAll es s with
  | term _ ih | factor _ ih | unsigned _ ih | base _ ih | exponentBase _ ih
    | atomOperand _ ih => exact ih ht
  | terms sign _ hr ihl ihr =>
      obtain ⟨htl, htr⟩ := List.forall_mem_append.mp ht
      have htr := (List.forall_mem_cons.mp htr).2
      intro s
      simp only [List.foldl_append, List.foldl_cons, Trace.step, Expr.trace, Expr.traceAll,
        ihl htl, ihr htr, (hr.readable htr).trace_signed]
  | signed sign h ih | exponentSigned sign h ih =>
      have ht := (List.forall_mem_cons.mp ht).2
      intro s
      rw [(h.readable ht).trace_signed]
      exact ih ht s
  | times _ _ ihl ihr =>
      obtain ⟨htl, htr⟩ := List.forall_mem_append.mp ht
      intro s
      simp only [List.foldl_append, List.foldl_cons, Trace.step, Expr.trace, Expr.traceAll,
        ihl htl, ihr (List.forall_mem_cons.mp htr).2]
  | beside _ _ ihl ihr =>
      obtain ⟨htl, htr⟩ := List.forall_mem_append.mp ht
      intro s
      simp only [List.foldl_append, Expr.trace, Expr.traceAll, ihl htl, ihr htr]
  | dividedBy _ _ ihl ihr | raised _ _ ihl ihr | exponentRaised _ _ ihl ihr =>
      obtain ⟨htl, htr⟩ := List.forall_mem_append.mp ht
      intro s
      simp only [List.foldl_append, List.foldl_cons, Trace.step, Expr.trace, ihl htl,
        ihr (List.forall_mem_cons.mp htr).2]
  | fraction | decimal | symbol => exact fun _ => rfl
  | call _ _ ih =>
      have ht := (List.forall_mem_append.mp (List.forall_mem_cons.mp
        (List.forall_mem_cons.mp ht).2).2).1
      intro s
      simp only [List.cons_append, List.foldl_append, List.foldl_cons, List.foldl_nil, Trace.step,
        Expr.trace, ih ht]
  | group _ ih =>
      have ht := (List.forall_mem_append.mp (List.forall_mem_cons.mp ht).2).1
      intro s
      simp only [List.cons_append, List.foldl_append, List.foldl_cons, List.foldl_nil, Trace.step,
        Expr.trace, ih ht]
  | one _ ih ht s => exact ih ht s
  | more _ _ ihl ihr ht s =>
      obtain ⟨htl, htr⟩ := List.forall_mem_append.mp ht
      simp only [List.foldl_append, List.foldl_cons, Trace.step, Expr.traceAll_append,
        Expr.traceAll, ihl htl, ihr (List.forall_mem_cons.mp htr).2]

namespace Expr

/-- Brackets leave no trace. -/
theorem foldl_step_enclosed (needed : Bool) (tokens : List Token) (s : Trace)
    : (enclosed needed tokens).foldl Trace.step s = tokens.foldl Trace.step s := by
  cases needed <;> simp [enclosed, Trace.step]

/-- The tokens of a list of trees leave the trace of the list if separators leave none, by induction
over the list. -/
theorem foldl_step_tokensBehind {separator : List Token} {needed : Expr → Bool}
    {es : List Expr} (hs : ∀ s, separator.foldl Trace.step s = s)
    (h : ∀ e ∈ es, ∀ s, e.tokens.foldl Trace.step s = e.trace s) (s : Trace)
    : (tokensBehind separator needed es).foldl Trace.step s = traceAll es s := by
  induction es generalizing s with
  | nil => rfl
  | cons e es ih =>
      obtain ⟨he, hes⟩ := List.forall_mem_cons.mp h
      simp only [tokensBehind, List.foldl_append, hs, foldl_step_enclosed, he, ih hes, traceAll]

/-- The tokens that a readable tree is written with leave the trace of the tree. -/
theorem IsReadable.foldl_step {e : Expr} (h : e.IsReadable)
    : ∀ s, e.tokens.foldl Trace.step s = e.trace s := by
  induction h with
  | @constant literal hl =>
      intro s
      simp only [tokens, Literal.tokens, trace, hl.value]
      split <;> simp [Trace.step, Trace.number_neg]
  | symbol => simp [tokens, trace, Trace.step]
  | power _ _ ihb ihx => simp [tokens, trace, foldl_step_enclosed, ihb, ihx, Trace.step]
  | quotient _ _ ihn ihd => simp [tokens, trace, foldl_step_enclosed, ihn, ihd, Trace.step]
  | group _ ih => simpa [tokens, trace, foldl_step_enclosed] using ih
  | sum _ _ _ ihh ihr =>
      intro s
      simp only [tokens, trace, traceAll, List.foldl_append, foldl_step_enclosed, ihh]
      exact foldl_step_tokensBehind (fun _ => rfl) ihr _
  | call _ _ _ ihh ihr =>
      intro s
      simp only [tokens, trace, traceAll, List.foldl_cons, Trace.step, foldl_step_enclosed,
        List.foldl_append, ihh]
      exact foldl_step_tokensBehind (fun _ => rfl) ihr _
  | product _ hne hh hr ihh ihr =>
      intro s
      simp only [tokens, trace]
      split
      · simp only [List.foldl_append]
        rw [foldl_step_tokensBehind (fun _ => rfl) ihr]
        split
        · next hm =>
          obtain ⟨first, later, rfl⟩ := List.exists_cons_of_ne_nil hne
          cases hh with
          | @constant literal =>
              have hv : literal.value = -1 := by simpa [isMinusOne] using hm
              simp only [List.foldl_cons, List.foldl_nil, Trace.step, traceAll, trace, hv,
                (hr first (.head _)).trace_minusOne]
          | _ => simp [isMinusOne] at hm
        · simp only [foldl_step_enclosed, ihh, traceAll]
      · simp only [List.foldl_append, foldl_step_enclosed, ihh, traceAll]
        exact foldl_step_tokensBehind (fun _ => rfl) ihr _

end Expr

end TermGrouping
