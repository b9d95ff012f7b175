import TermGrouping.Expr.Written
import TermGrouping.Token

/-! The tokens of a written form. A tree is readable if every constant, symbol and name in it is
written as tokens are spelled; its written form then is the text of a list of tokens.
-/

namespace TermGrouping

/-- A numeral made of digits, with a denominator other than zero. -/
def Numeral.IsReadable : Numeral → Prop
  | decimal whole places => whole ≠ [] ∧ ∀ c ∈ whole ++ places, Text.isDigit c = true
  | fraction numerator denominator =>
      numerator ≠ [] ∧ denominator ≠ []
      ∧ (∀ c ∈ numerator ++ denominator, Text.isDigit c = true)
      ∧ Text.naturalOf denominator ≠ 0

/-- A token that its own characters spell. -/
def Token.IsReadable : Token → Prop
  | numeral digits => digits.IsReadable
  | symbol letter => Text.isLetter letter = true
  | callee name => 2 ≤ name.length ∧ ∀ c ∈ name, Text.isLetter c = true
  | sign _ | times | slash | caret | opening | closing | comma => True

namespace Literal

def isSigned (literal : Literal) : Bool := literal.written.head? == some '-'

def numeral (literal : Literal) : Numeral :=
  (Token.readNumeral true
    (if literal.isSigned then literal.written.tail else literal.written)).1

def tokens (literal : Literal) : List Token :=
  if literal.isSigned then [.sign .minus, .numeral literal.numeral]
  else [.numeral literal.numeral]

/-- A constant that is written as a numeral of its value, with a sign or without. -/
structure IsReadable (literal : Literal) : Prop where
  numeral : literal.numeral.IsReadable
  written : literal.written
    = if literal.isSigned then '-' :: literal.numeral.spelling else literal.numeral.spelling
  value : literal.value
    = if literal.isSigned then -literal.numeral.value else literal.numeral.value

end Literal

namespace Expr

/-- A tree in which all that is written as a word is a word of the grammar, and no operator or
function lacks its operands. -/
inductive IsReadable : Expr → Prop where
  | constant {literal : Literal} : literal.IsReadable → IsReadable (.constant literal)
  | symbol {letter : Char} : Text.isLetter letter = true
    → IsReadable (.symbol (String.singleton letter))
  | power {base exponent} : IsReadable base → IsReadable exponent
    → IsReadable (.power base exponent)
  | sum {head rest} : rest ≠ [] → IsReadable head → (∀ e ∈ rest, IsReadable e)
    → IsReadable (.sum (head :: rest))
  | product {head rest} (implicit : Bool) : rest ≠ [] → IsReadable head
    → (∀ e ∈ rest, IsReadable e) → IsReadable (.product (head :: rest) implicit)
  | group {inner} : IsReadable inner → IsReadable (.group inner)
  | call {name : String} {head rest} : (Token.callee name.toList).IsReadable → IsReadable head
    → (∀ e ∈ rest, IsReadable e) → IsReadable (.call name (head :: rest))
  | quotient {numerator denominator} : IsReadable numerator → IsReadable denominator
    → IsReadable (.quotient numerator denominator)

-----------------------------------------------------------------------------------------
-- The tokens of a tree
-----------------------------------------------------------------------------------------

def enclosed (needed : Bool) (tokens : List Token) : List Token :=
  if needed then .opening :: tokens ++ [.closing] else tokens

mutual
def tokens : Expr → List Token
  | constant literal => literal.tokens
  | symbol name => name.toList.map .symbol
  | power base exponent =>
      enclosed (!base.basePlain) base.tokens ++ .caret
        :: enclosed exponent.bracketedLater exponent.tokens
  | sum [] => []
  | sum (head :: rest) =>
      enclosed head.isSum head.tokens ++ tokensBehind [.sign .plus] isSum rest
  | product [] _ => []
  | product (head :: rest) implicit =>
      if isJuxtaposed (head :: rest) implicit then
        (if head.isMinusOne then [.sign .minus] else enclosed head.bracketedFirst head.tokens)
          ++ tokensBehind [] bracketedLater rest
      else
        enclosed head.bracketedFirst head.tokens ++ tokensBehind [.times] bracketedLater rest
  | group inner => enclosed true inner.tokens
  | call name [] => .callee name.toList :: enclosed true []
  | call name (head :: rest) =>
      .callee name.toList
        :: enclosed true (head.tokens ++ tokensBehind [.comma] (fun _ => false) rest)
  | quotient numerator denominator =>
      enclosed numerator.isSum numerator.tokens ++ .slash
        :: enclosed denominator.bracketedLater denominator.tokens
  | foreign _ => []

/-- The tokens of a list of trees, each behind a separator and in brackets where a test asks for
them. -/
def tokensBehind (separator : List Token) (needed : Expr → Bool) : List Expr → List Token
  | [] => []
  | e :: es =>
      separator ++ enclosed (needed e) e.tokens ++ tokensBehind separator needed es
end

theorem tokensBehind_eq_flatMap (separator : List Token) (needed : Expr → Bool)
    (es : List Expr)
    : tokensBehind separator needed es
      = es.flatMap fun e => separator ++ enclosed (needed e) e.tokens := by
  induction es with
  | nil => rfl
  | cons e es ih => simp [tokensBehind, ih]

end Expr

-----------------------------------------------------------------------------------------
-- The written form is the text of the tokens
-----------------------------------------------------------------------------------------

/-- The characters of a token and the spaces that a written form puts around it. -/
def Token.printed : Token → List Char
  | sign .plus => [' ', '+', ' ']
  | times => [' ', '*', ' ']
  | slash => [' ', '/', ' ']
  | comma => [',', ' ']
  | token => token.spelling

namespace Expr

theorem printed_enclosed (needed : Bool) (tokens : List Token)
    : (enclosed needed tokens).flatMap Token.printed
      = inBrackets needed (tokens.flatMap Token.printed) := by
  cases needed <;> simp [enclosed, inBrackets, Token.printed, Token.spelling]

theorem joined_cons (separator text : List Char) (texts : List (List Char))
    : joined separator (text :: texts) = text ++ texts.flatMap (separator ++ ·) := by
  induction texts generalizing text with
  | nil => simp [joined]
  | cons next rest ih => simp [joined, ih]

/-- Behind a separator, written forms are the texts of their tokens if the trees' are. -/
theorem printed_tokensBehind {separator : List Token} {needed : Expr → Bool} {es : List Expr}
    (h : ∀ e ∈ es, e.written = e.tokens.flatMap Token.printed)
    : (tokensBehind separator needed es).flatMap Token.printed
      = (writtenAll needed es).flatMap (separator.flatMap Token.printed ++ ·) := by
  induction es with
  | nil => rfl
  | cons e es ih =>
      obtain ⟨he, hes⟩ := List.forall_mem_cons.mp h
      simp only [tokensBehind, writtenAll, List.flatMap_append, List.flatMap_cons,
        printed_enclosed, ← he, ih hes, List.append_assoc]

/-- A readable tree is written as the text of its tokens. -/
theorem IsReadable.written_eq {e : Expr} (h : e.IsReadable)
    : e.written = e.tokens.flatMap Token.printed := by
  induction h with
  | @constant literal h =>
      have hw := h.written
      simp only [written, tokens, Literal.tokens]
      split at hw <;> simp [Token.printed, Token.spelling, *]
  | symbol => simp [written, tokens, Token.printed, Token.spelling]
  | power _ _ ihb ihx =>
      simp [written, tokens, printed_enclosed, ihb, ihx, Token.printed, Token.spelling]
  | sum _ _ _ ihh ihr =>
      simp [written, tokens, writtenAll, joined_cons, printed_enclosed, ihh,
        printed_tokensBehind ihr, Token.printed]
  | @product head rest implicit _ _ _ ihh ihr =>
      have hbeside : (tokensBehind [] bracketedLater rest).flatMap Token.printed
          = (writtenAll bracketedLater rest).flatten := by
        rw [printed_tokensBehind ihr]
        simp [List.flatMap_def]
      simp only [written, tokens]
      split
      · split <;> simp [hbeside, printed_enclosed, ihh, Token.printed, Token.spelling]
      · simp [joined_cons, printed_enclosed, ihh, printed_tokensBehind ihr, Token.printed]
  | group _ ih => simp [written, tokens, printed_enclosed, ih]
  | call _ _ _ ihh ihr =>
      simp [written, tokens, writtenAll, joined_cons, printed_enclosed, ihh, inBrackets,
        printed_tokensBehind ihr, Token.printed, Token.spelling]
  | quotient _ _ ihn ihd =>
      simp [written, tokens, printed_enclosed, ihn, ihd, Token.printed]

/-- Trees without an obstacle to writing them form a list without one. -/
theorem writingFaultAll?_eq_none {es : List Expr} (h : ∀ e ∈ es, e.writingFault? = none)
    : writingFaultAll? es = none := by
  induction es with
  | nil => rfl
  | cons e es ih =>
      obtain ⟨he, hes⟩ := List.forall_mem_cons.mp h
      simp [writingFaultAll?, he, ih hes]

/-- Nothing keeps a readable tree from being written. -/
theorem IsReadable.writingFault?_eq_none {e : Expr} (h : e.IsReadable)
    : e.writingFault? = none := by
  induction h with
  | constant | symbol => rfl
  | power _ _ ihb ihx => simp [writingFault?, ihb, ihx]
  | sum _ _ _ ihh ihr | call _ _ _ ihh ihr =>
      exact writingFaultAll?_eq_none (List.forall_mem_cons.mpr ⟨ihh, ihr⟩)
  | product _ _ _ _ ihh ihr => simp [writingFault?, ihh, writingFaultAll?_eq_none ihr]
  | group _ ih => exact ih
  | quotient _ _ ihn ihd => simp [writingFault?, ihn, ihd]

/-- The text of a readable tree is the text of its tokens. -/
theorem IsReadable.text_eq {e : Expr} (h : e.IsReadable)
    : e.text = .ok (String.ofList (e.tokens.flatMap Token.printed)) := by
  simp [text, h.writingFault?_eq_none, h.written_eq]

theorem readable_enclosed {needed : Bool} {tokens : List Token}
    (h : ∀ token ∈ tokens, token.IsReadable)
    : ∀ token ∈ enclosed needed tokens, token.IsReadable := by
  intro token ht
  cases needed with
  | false => exact h token ht
  | true =>
      simp only [enclosed, if_true, List.cons_append, List.mem_cons, List.mem_append,
        List.not_mem_nil, or_false] at ht
      rcases ht with rfl | ht | rfl
      · trivial
      · exact h token ht
      · trivial

/-- Brackets and separators are readable, so a list of trees is if the trees are. -/
theorem readable_tokensBehind {separator : List Token} {needed : Expr → Bool} {es : List Expr}
    (hs : ∀ token ∈ separator, token.IsReadable)
    (h : ∀ e ∈ es, ∀ token ∈ e.tokens, token.IsReadable)
    : ∀ token ∈ tokensBehind separator needed es, token.IsReadable := by
  intro token ht
  rw [tokensBehind_eq_flatMap] at ht
  obtain ⟨e, he, ht⟩ := List.mem_flatMap.mp ht
  rcases List.mem_append.mp ht with ht | ht
  · exact hs token ht
  · exact readable_enclosed (h e he) token ht

/-- A readable tree is written with readable tokens. -/
theorem IsReadable.tokens_readable {e : Expr} (h : e.IsReadable)
    : ∀ token ∈ e.tokens, token.IsReadable := by
  induction h with
  | @constant literal h =>
      simp only [tokens, Literal.tokens]
      split <;> simpa [Token.IsReadable] using h.numeral
  | symbol h => simpa [tokens, Token.IsReadable] using h
  | power _ _ ihb ihx | quotient _ _ ihb ihx =>
      simp only [tokens, List.forall_mem_append, List.forall_mem_cons]
      exact ⟨readable_enclosed ihb, trivial, readable_enclosed ihx⟩
  | sum _ _ _ ihh ihr =>
      simp only [tokens, List.forall_mem_append]
      exact ⟨readable_enclosed ihh, readable_tokensBehind (by simp [Token.IsReadable]) ihr⟩
  | product _ _ _ _ ihh ihr =>
      simp only [tokens]
      split
      · refine List.forall_mem_append.mpr ⟨?_, readable_tokensBehind (by simp) ihr⟩
        split
        · simp [Token.IsReadable]
        · exact readable_enclosed ihh
      · exact List.forall_mem_append.mpr
          ⟨readable_enclosed ihh, readable_tokensBehind (by simp [Token.IsReadable]) ihr⟩
  | group _ ih => exact readable_enclosed ih
  | call hname _ _ ihh ihr =>
      refine List.forall_mem_cons.mpr ⟨hname, readable_enclosed ?_⟩
      exact List.forall_mem_append.mpr
        ⟨ihh, readable_tokensBehind (by simp [Token.IsReadable]) ihr⟩

end Expr

end TermGrouping
