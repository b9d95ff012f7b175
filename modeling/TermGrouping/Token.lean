import TermGrouping.Numeral
import TermGrouping.Text.Blank

/-! Tokens of a formula, and how one token is read off the front of a text. A letter is a symbol,
unless it starts a longer word that a bracket follows; such a word names a function.
-/

namespace TermGrouping

/-- A sign in front of a term. -/
inductive Sign where
  | plus
  | minus
  deriving DecidableEq

/-- The smallest parts of a formula. -/
inductive Token where
  | numeral (digits : Numeral)
  | symbol (letter : Char)
  | callee (name : List Char)
  | sign (value : Sign)
  | times
  | slash
  | caret
  | opening
  | closing
  | comma
  deriving DecidableEq

namespace Token

def spelling : Token → List Char
  | numeral digits => digits.spelling
  | symbol letter => [letter]
  | callee name => name
  | sign .plus => ['+']
  | sign .minus => ['-']
  | times => ['*']
  | slash => ['/']
  | caret => ['^']
  | opening => ['(']
  | closing => [')']
  | comma => [',']

def punctuation? : Char → Option Token
  | '+' => some (sign .plus)
  | '-' => some (sign .minus)
  | '*' => some times
  | '/' => some slash
  | '^' => some caret
  | '(' => some opening
  | ')' => some closing
  | ',' => some comma
  | _ => none

/-- The numeral at the front of a text that starts with a digit, and the rest. A slash belongs to
the numeral if a fraction may stand here and a digit follows it. -/
def readNumeral (fractionAllowed : Bool) (text : List Char) : Numeral × List Char :=
  let whole := text.takeWhile Text.isDigit
  match text.dropWhile Text.isDigit with
  | '/' :: rest =>
      if fractionAllowed && rest.head?.any Text.isDigit then
        (.fraction whole (rest.takeWhile Text.isDigit), rest.dropWhile Text.isDigit)
      else (.decimal whole [], '/' :: rest)
  | '.' :: rest =>
      if rest.head?.any Text.isDigit then
        (.decimal whole (rest.takeWhile Text.isDigit), rest.dropWhile Text.isDigit)
      else (.decimal whole [], '.' :: rest)
  | rest => (.decimal whole [], rest)

/-- Whether an opening bracket follows, blanks aside. -/
def bracketFollows (text : List Char) : Bool :=
  (text.dropWhile Text.isBlank).head? == some '('

/-- The name of a function at the front of a text, and the rest: at least two letters, all that
there are, before a bracket. -/
def readCallee? (text : List Char) : Option (List Char × List Char) :=
  let name := text.takeWhile Text.isLetter
  let rest := text.dropWhile Text.isLetter
  if 2 ≤ name.length && bracketFollows rest then some (name, rest) else none

def read? (fractionAllowed : Bool) : List Char → Option (Token × List Char)
  | [] => none
  | c :: rest =>
      if Text.isDigit c then
        let (digits, rest) := readNumeral fractionAllowed (c :: rest)
        some (numeral digits, rest)
      else if Text.isLetter c then
        match readCallee? (c :: rest) with
        | some (name, rest) => some (callee name, rest)
        | none => some (symbol c, rest)
      else (punctuation? c).map fun token => (token, rest)

-----------------------------------------------------------------------------------------
-- The characters of a token and the rest are the text it was read from
-----------------------------------------------------------------------------------------

/-- The characters of a numeral and the rest are the text that it was read from. -/
theorem readNumeral_spelling (fractionAllowed : Bool) (text : List Char)
    : (readNumeral fractionAllowed text).1.spelling ++ (readNumeral fractionAllowed text).2
      = text := by
  have ht := List.takeWhile_append_dropWhile (p := Text.isDigit) (l := text)
  have hr (rest : List Char) := List.takeWhile_append_dropWhile (p := Text.isDigit) (l := rest)
  unfold readNumeral
  split
  · next rest hd =>
    split
    · simp [Numeral.spelling, hr, ← hd]
    · simp [Numeral.spelling, ← hd, ht]
  · next rest hd =>
    split
    · next hdigit =>
      cases rest with
      | nil => simp at hdigit
      | cons d rest =>
          have hd' : Text.isDigit d = true := by simpa using hdigit
          have := hr (d :: rest)
          simp only [List.takeWhile_cons, hd', if_true] at this ⊢
          simp only [Numeral.spelling]
          rw [List.append_assoc, List.cons_append, this, ← hd, ht]
    · simp [Numeral.spelling, ← hd, ht]
  · simp [Numeral.spelling, ht]

/-- The characters of a token and the rest are the text that it was read from. -/
theorem read?_spelling {fractionAllowed : Bool} {text rest : List Char} {token : Token}
    (h : read? fractionAllowed text = some (token, rest))
    : token.spelling ++ rest = text := by
  cases text with
  | nil => simp [read?] at h
  | cons c tail =>
      simp only [read?] at h
      split at h
      · obtain ⟨rfl, rfl⟩ := Prod.mk.inj (Option.some.inj h)
        exact readNumeral_spelling fractionAllowed (c :: tail)
      · split at h
        · split at h
          · next name after hcallee =>
            obtain ⟨rfl, rfl⟩ := Prod.mk.inj (Option.some.inj h)
            simp only [readCallee?] at hcallee
            split at hcallee
            · obtain ⟨rfl, rfl⟩ := Prod.mk.inj (Option.some.inj hcallee)
              exact List.takeWhile_append_dropWhile
            · cases hcallee
          · obtain ⟨rfl, rfl⟩ := Prod.mk.inj (Option.some.inj h)
            rfl
        · obtain ⟨found, hfound, heq⟩ := Option.map_eq_some_iff.mp h
          obtain ⟨rfl, rfl⟩ := Prod.mk.inj heq
          unfold punctuation? at hfound
          split at hfound <;> cases hfound <;> rfl

/-- A numeral that starts with a digit has characters. -/
theorem readNumeral_spelling_ne_nil (fractionAllowed : Bool) {c : Char} (tail : List Char)
    (hc : Text.isDigit c = true)
    : (readNumeral fractionAllowed (c :: tail)).1.spelling ≠ [] := by
  have hdecimal (places : List Char)
      : (Numeral.decimal (c :: tail.takeWhile Text.isDigit) places).spelling ≠ [] := by
    cases places <;> simp [Numeral.spelling]
  unfold readNumeral
  simp only [List.takeWhile_cons, hc, if_true]
  split
  · split
    · simp [Numeral.spelling]
    · exact hdecimal []
  · split
    · exact hdecimal _
    · exact hdecimal []
  · exact hdecimal []

/-- A token that was read has characters. -/
theorem read?_spelling_ne_nil {fractionAllowed : Bool} {text rest : List Char} {token : Token}
    (h : read? fractionAllowed text = some (token, rest))
    : token.spelling ≠ [] := by
  cases text with
  | nil => simp [read?] at h
  | cons c tail =>
      simp only [read?] at h
      split at h
      · next hc =>
        obtain ⟨rfl, rfl⟩ := Prod.mk.inj (Option.some.inj h)
        exact readNumeral_spelling_ne_nil fractionAllowed tail hc
      · split at h
        · split at h
          · next name after hcallee =>
            obtain ⟨rfl, rfl⟩ := Prod.mk.inj (Option.some.inj h)
            simp only [readCallee?] at hcallee
            split at hcallee
            · next hname =>
              obtain ⟨rfl, rfl⟩ := Prod.mk.inj (Option.some.inj hcallee)
              simp only [Bool.and_eq_true, decide_eq_true_eq] at hname
              exact List.ne_nil_of_length_pos (Nat.lt_of_lt_of_le Nat.zero_lt_two hname.1)
            · cases hcallee
          · obtain ⟨rfl, rfl⟩ := Prod.mk.inj (Option.some.inj h)
            exact List.cons_ne_nil c []
        · obtain ⟨found, hfound, heq⟩ := Option.map_eq_some_iff.mp h
          obtain ⟨rfl, rfl⟩ := Prod.mk.inj heq
          unfold punctuation? at hfound
          split at hfound <;> cases hfound <;> exact List.cons_ne_nil _ _

/-- Reading a token leaves a shorter text. -/
theorem length_lt_of_read? {fractionAllowed : Bool} {text rest : List Char} {token : Token}
    (h : read? fractionAllowed text = some (token, rest))
    : rest.length < text.length := by
  have hpos := List.length_pos_iff.mpr (read?_spelling_ne_nil h)
  rw [← read?_spelling h, List.length_append]
  omega

end Token

end TermGrouping
