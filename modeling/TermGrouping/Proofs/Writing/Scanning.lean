import TermGrouping.Proofs.Parsing.Lexing
import TermGrouping.Proofs.Writing.Tokens

/-! Reading printed tokens. A list of tokens is read back from its text if no fraction stands in
an exponent, no numeral runs into the next one, and no letters run into a call.
-/

namespace TermGrouping

namespace Text

/-- No digit comes before the digits of ASCII, and none is a letter or blank. -/
theorem range_of_isDigit {c : Char} (h : isDigit c = true)
    : 0x30 ≤ c.toNat ∧ isLetter c = false ∧ isBlank c = false := by
  have hzeros : ∀ base ∈ digitZeros, base = 0x30 ∨ (0x660 ≤ base ∧ base < 0x1670)
      ∨ (0x1700 ≤ base ∧ base < 0x1ff0) ∨ 0x3001 ≤ base := by
    decide
  simp only [isDigit, digitValue?, Option.isSome_map, List.find?_isSome, Bool.and_eq_true,
    decide_eq_true_eq] at h
  obtain ⟨base, hb, hle, hlt⟩ := h
  have hbase := hzeros base hb
  refine ⟨by omega, ?_, ?_⟩
  · simp only [isLetter, Bool.or_eq_false_iff, Bool.and_eq_false_iff, decide_eq_false_iff_not]
    omega
  · simp only [isBlank, Bool.or_eq_false_iff, Bool.and_eq_false_iff, decide_eq_false_iff_not,
      List.contains_eq_mem, List.mem_cons, List.not_mem_nil, or_false]
    omega

/-- A character of a class is none of those outside of it. -/
theorem ne_of_class {p : Char → Bool} {c d : Char} (hc : p c = true) (hd : p d = false)
    : c ≠ d := by
  rintro rfl
  exact Bool.false_ne_true (hd.symm.trans hc)

/-- Classes that exclude each other do so in both directions. -/
theorem eq_false_of_disjoint {first second : Bool} (h : first = true → second = false)
    (hsecond : second = true)
    : first = false :=
  Bool.eq_false_iff.mpr fun hfirst => Bool.false_ne_true ((h hfirst).symm.trans hsecond)

theorem isDigit_of_isLetter {c : Char} (h : isLetter c = true) : isDigit c = false :=
  eq_false_of_disjoint (fun hdigit => (range_of_isDigit hdigit).2.1) h

theorem isLetter_of_isBlank {c : Char} (h : isBlank c = true) : isLetter c = false := by
  simp only [isBlank, Bool.or_eq_true, Bool.and_eq_true, decide_eq_true_eq,
    List.contains_eq_mem, List.mem_cons, List.not_mem_nil, or_false] at h
  simp only [isLetter, Bool.or_eq_false_iff, Bool.and_eq_false_iff, decide_eq_false_iff_not]
  omega

theorem isBlank_of_isLetter {c : Char} (h : isLetter c = true) : isBlank c = false :=
  eq_false_of_disjoint isLetter_of_isBlank h

theorem isSpacing_eq_false {c : Char} (h : 0x20 < c.toNat) : isSpacing c = false := by
  simp only [isSpacing, List.contains_eq_mem, List.mem_cons, List.not_mem_nil, or_false,
    decide_eq_false_iff_not]
  omega

theorem isSpacing_of_isDigit {c : Char} (h : isDigit c = true) : isSpacing c = false :=
  isSpacing_eq_false (Nat.lt_of_lt_of_le (by decide) (range_of_isDigit h).1)

theorem isDigit_of_isSpacing {c : Char} (h : isSpacing c = true) : isDigit c = false :=
  eq_false_of_disjoint isSpacing_of_isDigit h

theorem isSpacing_of_isLetter {c : Char} (h : isLetter c = true) : isSpacing c = false := by
  simp only [isLetter, Bool.or_eq_true, Bool.and_eq_true, decide_eq_true_eq] at h
  exact isSpacing_eq_false (by omega)

/-- Whether a text goes on with a character that could be part of the numeral before it. -/
def continuesNumeral (text : List Char) : Bool :=
  text.head?.any fun c => isDigit c || c == '.' || c == '/'

end Text

/-- A run of a class of characters ends where a character of another class stands. -/
theorem span_run {α : Type} {p : α → Bool} {run rest : List α} (hrun : ∀ a ∈ run, p a = true)
    (hrest : rest.head?.any p = false)
    : (run ++ rest).takeWhile p = run ∧ (run ++ rest).dropWhile p = rest := by
  rw [List.takeWhile_append_of_pos hrun, List.dropWhile_append_of_pos hrun]
  cases rest with
  | nil => simp
  | cons a rest =>
      have ha : p a = false := by simpa using hrest
      simp [ha]

-----------------------------------------------------------------------------------------
-- Reading one token
-----------------------------------------------------------------------------------------

namespace Token

/-- Digits are read as an integer in front of what continues no numeral. -/
theorem readNumeral_integer (fractionAllowed : Bool) {whole text : List Char}
    (hw : ∀ c ∈ whole, Text.isDigit c = true) (ht : Text.continuesNumeral text = false)
    : readNumeral fractionAllowed (whole ++ text) = (.decimal whole [], text) := by
  have hd : text.head?.any Text.isDigit = false := by
    cases text <;> simp_all [Text.continuesNumeral]
  obtain ⟨htake, hdrop⟩ := span_run hw hd
  simp only [readNumeral, htake, hdrop]
  cases text with
  | nil => rfl
  | cons c text =>
      simp only [Text.continuesNumeral, List.head?_cons, Option.any_some,
        Bool.or_eq_false_iff, beq_eq_false_iff_ne, ne_eq] at ht
      split
      · next h => exact absurd (List.cons.inj h).1 ht.2
      · next h => exact absurd (List.cons.inj h).1 ht.1.2
      · rfl

/-- Where no fraction may stand, digits are read as an integer in front of a slash. -/
theorem readNumeral_refused {whole : List Char} (text : List Char)
    (hw : ∀ c ∈ whole, Text.isDigit c = true)
    : readNumeral false (whole ++ '/' :: text) = (.decimal whole [], '/' :: text) := by
  have hslash : ('/' :: text).head?.any Text.isDigit = false := rfl
  obtain ⟨htake, hdrop⟩ := span_run hw hslash
  simp [readNumeral, htake, hdrop]

/-- Decimal places are read up to the last digit. -/
theorem readNumeral_decimal (fractionAllowed : Bool) {whole places text : List Char}
    (hw : ∀ c ∈ whole, Text.isDigit c = true) (hne : places ≠ [])
    (hp : ∀ c ∈ places, Text.isDigit c = true) (ht : text.head?.any Text.isDigit = false)
    : readNumeral fractionAllowed (whole ++ '.' :: (places ++ text))
      = (.decimal whole places, text) := by
  obtain ⟨d, rest, rfl⟩ := List.exists_cons_of_ne_nil hne
  have hpoint : ('.' :: (d :: rest ++ text)).head?.any Text.isDigit = false := rfl
  obtain ⟨htake, hdrop⟩ := span_run hw hpoint
  obtain ⟨htake', hdrop'⟩ := span_run hp ht
  have hdigit : Text.isDigit d = true := hp d List.mem_cons_self
  simp only [readNumeral, List.cons_append] at htake hdrop htake' hdrop' ⊢
  simp [htake, hdrop, htake', hdrop', hdigit]

/-- Where a fraction may stand, its denominator is read up to the last digit. -/
theorem readNumeral_fraction {numerator denominator text : List Char}
    (hn : ∀ c ∈ numerator, Text.isDigit c = true) (hne : denominator ≠ [])
    (hd : ∀ c ∈ denominator, Text.isDigit c = true)
    (ht : text.head?.any Text.isDigit = false)
    : readNumeral true (numerator ++ '/' :: (denominator ++ text))
      = (.fraction numerator denominator, text) := by
  obtain ⟨d, rest, rfl⟩ := List.exists_cons_of_ne_nil hne
  have hslash : ('/' :: (d :: rest ++ text)).head?.any Text.isDigit = false := rfl
  obtain ⟨htake, hdrop⟩ := span_run hn hslash
  obtain ⟨htake', hdrop'⟩ := span_run hd ht
  have hdigit : Text.isDigit d = true := hd d List.mem_cons_self
  simp only [readNumeral, List.cons_append] at htake hdrop htake' hdrop' ⊢
  simp [htake, hdrop, htake', hdrop', hdigit]

/-- A readable numeral is read up to its end, unless the text goes on like a numeral. -/
theorem readNumeral_append {fractionAllowed : Bool} {n : Numeral} (hn : n.IsReadable)
    {text : List Char} (hf : (fractionAllowed || !n.isFraction) = true)
    (ht : Text.continuesNumeral text = false)
    : readNumeral fractionAllowed (n.spelling ++ text) = (n, text) := by
  have hd : text.head?.any Text.isDigit = false := by
    cases text <;> simp_all [Text.continuesNumeral]
  cases n with
  | decimal whole places =>
      obtain ⟨hw, hdigits⟩ := hn
      obtain ⟨hwhole, hplaces⟩ := List.forall_mem_append.mp hdigits
      cases places with
      | nil => exact readNumeral_integer fractionAllowed hwhole ht
      | cons d places =>
          simpa [Numeral.spelling]
            using readNumeral_decimal fractionAllowed hwhole (List.cons_ne_nil d places) hplaces hd
  | fraction numerator denominator =>
      obtain ⟨_, hden, hdigits, _⟩ := hn
      obtain ⟨hnumerator, hdenominator⟩ := List.forall_mem_append.mp hdigits
      have hallowed : fractionAllowed = true := by simpa [Numeral.isFraction] using hf
      rw [hallowed]
      simpa [Numeral.spelling] using readNumeral_fraction hnumerator hden hdenominator hd

/-- The spelling of a readable numeral starts with a digit. -/
theorem spelling_eq_cons {n : Numeral} (hn : n.IsReadable)
    : ∃ c rest, n.spelling = c :: rest ∧ Text.isDigit c = true := by
  cases n with
  | decimal whole places =>
      obtain ⟨hw, hdigits⟩ := hn
      obtain ⟨c, rest, rfl⟩ := List.exists_cons_of_ne_nil hw
      cases places <;> exact ⟨c, _, rfl, hdigits c (by simp)⟩
  | fraction numerator denominator =>
      obtain ⟨hw, _, hdigits, _⟩ := hn
      obtain ⟨c, rest, rfl⟩ := List.exists_cons_of_ne_nil hw
      exact ⟨c, _, rfl, hdigits c (by simp)⟩

end Token

-----------------------------------------------------------------------------------------
-- Tokens that stand apart
-----------------------------------------------------------------------------------------

namespace Token

def isNumeral : Token → Bool
  | numeral _ => true
  | _ => false

def isFraction : Token → Bool
  | numeral digits => digits.isFraction
  | _ => false

def isWord : Token → Bool
  | symbol _ | callee _ => true
  | _ => false

/-- Whether a token is an operator, or closes brackets: no token in front of it is affected. -/
def separates : Token → Bool
  | sign _ | times | slash | caret | closing | comma => true
  | _ => false

/-- Whether letters, of which there may be none, lead up to an opening bracket. -/
def reachesBracket : List Token → Bool
  | symbol _ :: rest | callee _ :: rest => reachesBracket rest
  | opening :: _ => true
  | _ => false

/-- Whether a token is read for itself in front of the given ones: a numeral ends there, and
letters are not taken for the name of a function, unless they are one. -/
def standsApart : Token → List Token → Bool
  | numeral _, rest => !rest.head?.any isNumeral
  | symbol _, rest => !(rest.head?.any isWord && reachesBracket rest)
  | callee _, rest => rest.head? == some opening
  | _, _ => true

/-- Whether each token of a list stands apart from those behind it. -/
def allApart : List Token → Bool
  | [] => true
  | token :: rest => token.standsApart rest && allApart rest

/-- Whether no fraction of a list stands in an exponent. The flag says whether the list itself
may start with a fraction. -/
def fractionsFit (fractionAllowed : Bool) : List Token → Bool
  | [] => true
  | token :: rest =>
      (fractionAllowed || !token.isFraction)
        && fractionsFit (token.fractionAfter fractionAllowed) rest

end Token

-----------------------------------------------------------------------------------------
-- Tokens that stand apart are read back
-----------------------------------------------------------------------------------------

namespace Token

/-- Printed tokens continue no numeral, unless they start with one. -/
theorem not_continuesNumeral {tokens : List Token} (hr : ∀ token ∈ tokens, token.IsReadable)
    (h : tokens.head?.any isNumeral = false)
    : Text.continuesNumeral (tokens.flatMap printed) = false := by
  have hletter {c : Char} (hc : Text.isLetter c = true) (text : List Char)
      : Text.continuesNumeral (c :: text) = false := by
    have hpoint : c ≠ '.' := Text.ne_of_class hc rfl
    have hslash : c ≠ '/' := Text.ne_of_class hc rfl
    simp [Text.continuesNumeral, Text.isDigit_of_isLetter hc, hpoint, hslash]
  cases tokens with
  | nil => rfl
  | cons token rest =>
      have ht := hr token List.mem_cons_self
      cases token with
      | numeral => simp [isNumeral] at h
      | symbol letter => exact hletter ht _
      | callee name =>
          have hlength : 0 < name.length := Nat.lt_of_lt_of_le Nat.zero_lt_two ht.1
          obtain ⟨c, name, rfl⟩ := List.exists_cons_of_length_pos hlength
          exact hletter (ht.2 c List.mem_cons_self) _
      | sign value => cases value <;> rfl
      | times | slash | caret | opening | closing | comma => rfl

/-- Behind the letters at their front, printed tokens go on with a bracket exactly if the letters
lead up to one. -/
theorem bracketFollows_printed {tokens : List Token}
    (hr : ∀ token ∈ tokens, token.IsReadable)
    : bracketFollows ((tokens.flatMap printed).dropWhile Text.isLetter)
      = reachesBracket tokens := by
  induction tokens with
  | nil => rfl
  | cons token rest ih =>
      obtain ⟨ht, hrest⟩ := List.forall_mem_cons.mp hr
      cases token with
      | numeral n =>
          obtain ⟨c, digits, hs, hc⟩ := spelling_eq_cons ht
          obtain ⟨_, hl, hb⟩ := Text.range_of_isDigit hc
          have hne : c ≠ '(' := Text.ne_of_class hc rfl
          simp [printed, spelling, hs, hl, hb, bracketFollows, reachesBracket, hne]
      | symbol letter =>
          simpa [printed, spelling, reachesBracket, show Text.isLetter letter = true from ht]
            using ih hrest
      | callee name =>
          simp only [List.flatMap_cons, printed, spelling, reachesBracket]
          rw [List.dropWhile_append_of_pos ht.2]
          exact ih hrest
      | sign value => cases value <;> rfl
      | times | slash | caret | opening | closing | comma => rfl

/-- A word starts with a letter. -/
theorem spelling_of_isWord {token : Token} (h : token.IsReadable) (hw : token.isWord = true)
    : ∃ c rest, token.spelling = c :: rest ∧ Text.isLetter c = true := by
  cases token with
  | symbol letter => exact ⟨letter, [], rfl, h⟩
  | callee name =>
      obtain ⟨c, rest, rfl⟩ :=
        List.exists_cons_of_length_pos (Nat.lt_of_lt_of_le Nat.zero_lt_two h.1)
      exact ⟨c, rest, rfl, h.2 c List.mem_cons_self⟩
  | _ => simp [isWord] at hw

/-- Printed tokens start with a letter exactly if the first of them is a word. -/
theorem any_isLetter_printed {tokens : List Token} (hr : ∀ token ∈ tokens, token.IsReadable)
    : (tokens.flatMap printed).head?.any Text.isLetter = tokens.head?.any isWord := by
  cases tokens with
  | nil => rfl
  | cons token rest =>
      have ht := hr token List.mem_cons_self
      cases token with
      | numeral n =>
          obtain ⟨c, digits, hs, hc⟩ := spelling_eq_cons ht
          simp [printed, spelling, hs, (Text.range_of_isDigit hc).2.1, isWord]
      | symbol | callee =>
          obtain ⟨c, letters, hs, hc⟩ := spelling_of_isWord ht rfl
          simp [printed, hs, hc, isWord]
      | sign value => cases value <;> rfl
      | times | slash | caret | opening | closing | comma => rfl

/-- A letter is a symbol, unless letters behind it lead up to a bracket. -/
theorem readCallee?_eq_none {letter : Char} {rest : List Token}
    (hr : ∀ token ∈ rest, token.IsReadable) (hl : Text.isLetter letter = true)
    (ha : (rest.head?.any isWord && reachesBracket rest) = false)
    : readCallee? (letter :: rest.flatMap printed) = none := by
  rw [← any_isLetter_printed hr, ← bracketFollows_printed hr, Bool.and_eq_false_iff] at ha
  simp only [readCallee?, List.takeWhile_cons, List.dropWhile_cons, hl, if_true,
    ite_eq_right_iff, Bool.and_eq_true, decide_eq_true_eq, reduceCtorEq, imp_false, not_and,
    Bool.not_eq_true]
  intro hlength
  refine ha.resolve_left fun hhead => ?_
  cases htext : rest.flatMap printed with
  | nil => simp [htext] at hlength
  | cons c text => simp_all

/-- A name that a bracket follows is the name of a function. -/
theorem readCallee?_eq_some {name : List Char} (h : (callee name).IsReadable)
    (text : List Char)
    : readCallee? (name ++ '(' :: text) = some (name, '(' :: text) := by
  obtain ⟨hlength, hletters⟩ := h
  have hend : ('(' :: text).head?.any Text.isLetter = false := rfl
  obtain ⟨htake, hdrop⟩ := span_run hletters hend
  have hbracket : bracketFollows ('(' :: text) = true := rfl
  simp [readCallee?, htake, hdrop, hlength, hbracket]

/-- A token that stands apart is read in front of the others. -/
theorem read?_printed {fractionAllowed : Bool} {token : Token} {rest : List Token}
    (ht : token.IsReadable) (hr : ∀ token ∈ rest, token.IsReadable)
    (hf : (fractionAllowed || !token.isFraction) = true) (ha : token.standsApart rest = true)
    : read? fractionAllowed (token.spelling ++ rest.flatMap printed)
      = some (token, rest.flatMap printed) := by
  cases token with
  | numeral n =>
      obtain ⟨c, digits, hs, hc⟩ := spelling_eq_cons ht
      have hn : Text.continuesNumeral (rest.flatMap printed) = false :=
        not_continuesNumeral hr (Bool.not_eq_true' _ ▸ ha)
      have hread := readNumeral_append ht hf hn
      rw [hs, List.cons_append] at hread
      simp [spelling, hs, read?, hc, hread]
  | symbol letter =>
      have hl : Text.isLetter letter = true := ht
      have hcallee := readCallee?_eq_none hr hl (Bool.not_eq_true' _ ▸ ha)
      simp [spelling, read?, Text.isDigit_of_isLetter hl, hl, hcallee]
  | callee name =>
      obtain ⟨c, tail, hs, hc⟩ := spelling_of_isWord ht rfl
      obtain ⟨rest, rfl⟩ : ∃ behind, rest = .opening :: behind := by
        cases rest <;> simp_all [standsApart]
      have hcallee := readCallee?_eq_some ht (rest.flatMap printed)
      simp only [spelling] at hs
      simp only [hs, List.cons_append] at hcallee
      simp [spelling, hs, read?, Text.isDigit_of_isLetter hc, hc, printed, hcallee]
  | sign value => cases value <;> rfl
  | times | slash | caret | opening | closing | comma => rfl

/-- A readable token starts with a character that is no spacing. -/
theorem spelling_not_spacing {token : Token} (h : token.IsReadable)
    : ∃ c rest, token.spelling = c :: rest ∧ Text.isSpacing c = false := by
  cases token with
  | numeral n =>
      obtain ⟨c, digits, hs, hc⟩ := spelling_eq_cons h
      exact ⟨c, digits, hs, Text.isSpacing_of_isDigit hc⟩
  | symbol | callee =>
      obtain ⟨c, letters, hs, hc⟩ := spelling_of_isWord h rfl
      exact ⟨c, letters, hs, Text.isSpacing_of_isLetter hc⟩
  | sign value => cases value <;> exact ⟨_, _, rfl, rfl⟩
  | times | slash | caret | opening | closing | comma => exact ⟨_, _, rfl, rfl⟩

end Token

/-- A text that starts with a readable token consists of it and of the tokens behind it. -/
theorem Lexes.spelling {fractionAllowed : Bool} {token : Token} {text : List Char}
    {tokens : List Token} (ht : token.IsReadable)
    (hread : Token.read? fractionAllowed (token.spelling ++ text) = some (token, text))
    (h : Lexes (token.fractionAfter fractionAllowed) text tokens)
    : Lexes fractionAllowed (token.spelling ++ text) (token :: tokens) := by
  obtain ⟨c, rest, hs, hc⟩ := Token.spelling_not_spacing ht
  rw [hs, List.cons_append] at hread ⊢
  exact .token hc hread h

/-- Readable tokens that stand apart are read back from their text. -/
theorem lexes_printed {fractionAllowed : Bool} {tokens : List Token}
    (hr : ∀ token ∈ tokens, token.IsReadable)
    (hf : Token.fractionsFit fractionAllowed tokens = true)
    (ha : Token.allApart tokens = true)
    : Lexes fractionAllowed (tokens.flatMap Token.printed) tokens := by
  induction tokens generalizing fractionAllowed with
  | nil => exact .nil fractionAllowed
  | cons token rest ih =>
      obtain ⟨ht, hrest⟩ := List.forall_mem_cons.mp hr
      simp only [Token.fractionsFit, Token.allApart, Bool.and_eq_true] at hf ha
      have hlexes := ih hrest hf.2 ha.2
      have hword := Lexes.spelling ht (Token.read?_printed ht hrest hf.1 ha.1) hlexes
      -- The spaces that a text holds around an operator separate tokens.
      cases token with
      | numeral | symbol | callee | caret | opening | closing => exact hword
      | sign value =>
          cases value with
          | plus => exact .spacing rfl (.token rfl rfl (.spacing rfl hlexes))
          | minus => exact hword
      | times | slash => exact .spacing rfl (.token rfl rfl (.spacing rfl hlexes))
      | comma => exact .token rfl rfl (.spacing rfl hlexes)

end TermGrouping
