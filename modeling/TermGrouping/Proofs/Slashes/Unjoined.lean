import TermGrouping.Proofs.Parsing.Replacement
import TermGrouping.Tightening

/-! Reading a text without fractions. If no slash is ever joined to the digits around it, a slash
cuts the text in two that are read for themselves, so spacing beside it plays no part; and the
tokens are those that are read otherwise, with all fractions taken to pieces.
-/

namespace TermGrouping

/-- The tokens of a text, if it can be read to its end, where no slash is part of a numeral. -/
inductive LexesUnjoined : List Char → List Token → Prop where
  | nil : LexesUnjoined [] []
  | spacing {c rest tokens}
    : Text.isSpacing c = true → LexesUnjoined rest tokens → LexesUnjoined (c :: rest) tokens
  | token {c rest token remaining tokens}
    : Text.isSpacing c = false
      → Token.read? false (c :: rest) = some (token, remaining)
      → LexesUnjoined remaining tokens
      → LexesUnjoined (c :: rest) (token :: tokens)

/-- A text has at most one reading without joined slashes, by induction over the reading. -/
theorem LexesUnjoined.unique {text : List Char} {tokens others : List Token}
    (h : LexesUnjoined text tokens) (h' : LexesUnjoined text others)
    : tokens = others := by
  induction h generalizing others with
  | nil => cases h'; rfl
  | spacing hc _ ih =>
      cases h' with
      | spacing _ h' => exact ih h'
      | token hc' => exact absurd (hc.symm.trans hc') Bool.false_ne_true.symm
  | token hc hread _ ih =>
      cases h' with
      | spacing hc' => exact absurd (hc'.symm.trans hc) Bool.false_ne_true.symm
      | token _ hread' h' =>
          obtain ⟨rfl, rfl⟩ := Prod.mk.inj (Option.some.inj (hread.symm.trans hread'))
          rw [ih h']

-----------------------------------------------------------------------------------------
-- A token is read in front of what it cannot go on with
-----------------------------------------------------------------------------------------

/-- A text that no token in front of it can reach into: it starts with no digit, letter or point,
and no bracket follows behind blanks. -/
structure Text.EndsTokens (text : List Char) : Prop where
  digit : text.head?.any Text.isDigit = false
  letter : text.head?.any Text.isLetter = false
  point : text.head? ≠ some '.'
  bracket : Token.bracketFollows text = false

/-- Spacing in front of a slash, if there is any, ends a token as the slash does. -/
theorem Text.endsTokens_slash {spacing : List Char} (h : ∀ c ∈ spacing, Text.isSpacing c = true)
    (back : List Char)
    : Text.EndsTokens (spacing ++ '/' :: back) := by
  have hbracket : Token.bracketFollows (spacing ++ '/' :: back) = false :=
    Token.bracketFollows_spacing h _
  cases spacing with
  | nil => exact ⟨rfl, rfl, by simp, hbracket⟩
  | cons c spacing =>
      have hc : Text.isSpacing c = true := h c List.mem_cons_self
      refine ⟨?_, ?_, ?_, hbracket⟩
      · simpa using Text.isDigit_of_isSpacing hc
      · simpa using Text.isLetter_of_isBlank (Text.isBlank_of_isSpacing hc)
      · simpa using Text.ne_of_class hc rfl

section

variable {α : Type} {p : α → Bool} {tail : List α}

/-- The characters of a class at the front of a text end where another text starts with none. -/
theorem takeWhile_append_tail (front : List α) (h : tail.head?.any p = false)
    : (front ++ tail).takeWhile p = front.takeWhile p := by
  induction front with
  | nil => exact (@span_run α p [] tail (by simp) h).1
  | cons a front ih => simp [List.takeWhile_cons, ih]

/-- A tail that no run can reach into stays behind what is left of the front, by induction over the
front. -/
theorem dropWhile_append_tail (front : List α) (h : tail.head?.any p = false)
    : (front ++ tail).dropWhile p = front.dropWhile p ++ tail := by
  induction front with
  | nil => exact (@span_run α p [] tail (by simp) h).2
  | cons a front ih => cases ha : p a <;> simp [ha, ih]

theorem any_head?_append_tail (front : List α) (h : tail.head?.any p = false)
    : (front ++ tail).head?.any p = front.head?.any p := by
  cases front with
  | nil => simpa using h
  | cons a front => rfl

end

namespace Token

variable {tail : List Char} (h : Text.EndsTokens tail)
include h

/-- A numeral that takes no slash is read in front of what ends it. -/
theorem readNumeral_append_tail (front : List Char)
    : readNumeral false (front ++ tail)
      = ((readNumeral false front).1, (readNumeral false front).2 ++ tail) := by
  have hpoint (places : List Char) : tail ≠ '.' :: places :=
    fun heq => h.point (heq ▸ List.head?_cons)
  simp only [readNumeral, takeWhile_append_tail front h.digit, dropWhile_append_tail front h.digit]
  rcases front.dropWhile Text.isDigit with _ | ⟨c, rest⟩
  · -- The numeral ends where the other text starts.
    rw [List.nil_append]
    split
    · rfl
    · exact absurd rfl (hpoint _)
    · rfl
  · rw [List.cons_append]
    split
    · next heq =>
      obtain ⟨rfl, rfl⟩ := List.cons.inj heq
      rfl
    · next heq =>
      obtain ⟨rfl, rfl⟩ := List.cons.inj heq
      simp only [any_head?_append_tail rest h.digit, takeWhile_append_tail rest h.digit,
        dropWhile_append_tail rest h.digit]
      split <;> rfl
    · next hslash hpoint =>
      split
      · next heq => exact absurd (List.cons.inj heq).1 fun hc => hslash _ (by rw [hc])
      · next heq => exact absurd (List.cons.inj heq).1 fun hc => hpoint _ (by rw [hc])
      · rfl

theorem bracketFollows_append_tail (front : List Char)
    : bracketFollows (front ++ tail) = bracketFollows front := by
  have htail : bracketFollows tail = bracketFollows [] := h.bracket
  simpa using bracketFollows_append front htail

theorem readCallee?_append_tail (front : List Char)
    : readCallee? (front ++ tail)
      = (readCallee? front).map fun (name, rest) => (name, rest ++ tail) := by
  simp only [readCallee?, takeWhile_append_tail front h.letter,
    dropWhile_append_tail front h.letter, bracketFollows_append_tail h]
  split <;> rfl

/-- A token is read in front of what ends it. -/
theorem read?_append_tail (c : Char) (front : List Char)
    : read? false (c :: (front ++ tail))
      = (read? false (c :: front)).map fun (token, rest) => (token, rest ++ tail) := by
  have hnumeral := readNumeral_append_tail h (c :: front)
  have hcallee := readCallee?_append_tail h (c :: front)
  rw [List.cons_append] at hnumeral hcallee
  simp only [read?, hnumeral, hcallee]
  split
  · rfl
  · split
    · cases readCallee? (c :: front) <;> rfl
    · cases punctuation? c <;> rfl

end Token

-----------------------------------------------------------------------------------------
-- Spacing beside a slash plays no part
-----------------------------------------------------------------------------------------

/-- What ends a token may be replaced by what ends it, too, and has the same tokens. -/
theorem LexesUnjoined.replace_tail {tail other : List Char} {tokens : List Token}
    (ht : Text.EndsTokens tail) (ho : Text.EndsTokens other)
    (hlexes : ∀ tokens, LexesUnjoined tail tokens → LexesUnjoined other tokens)
    (front : List Char) (h : LexesUnjoined (front ++ tail) tokens)
    : LexesUnjoined (front ++ other) tokens := by
  match front with
  | [] => exact hlexes tokens h
  | c :: front =>
      rw [List.cons_append] at h
      cases h with
      | spacing hc h => exact .spacing hc (replace_tail ht ho hlexes front h)
      | token hc hread h =>
          have hread' := Token.read?_append_tail ht c front
          rw [hread] at hread'
          obtain ⟨⟨token, rest⟩, hfront, heq⟩ := Option.map_eq_some_iff.mp hread'.symm
          obtain ⟨rfl, rfl⟩ := Prod.mk.inj heq
          have hshorter : rest.length < (c :: front).length := Token.length_lt_of_read? hfront
          have hother := Token.read?_append_tail ho c front
          rw [hfront] at hother
          exact .token hc hother (replace_tail ht ho hlexes rest h)
termination_by front.length
decreasing_by
  · exact Nat.lt_succ_self _
  · exact hshorter

theorem LexesUnjoined.of_spacing {spacing text : List Char} {tokens : List Token}
    (hs : ∀ c ∈ spacing, Text.isSpacing c = true) (h : LexesUnjoined (spacing ++ text) tokens)
    : LexesUnjoined text tokens := by
  induction spacing with
  | nil => exact h
  | cons c spacing ih =>
      obtain ⟨hc, hs⟩ := List.forall_mem_cons.mp hs
      cases h with
      | spacing _ h => exact ih hs h
      | token hc' => exact absurd (hc.symm.trans hc') Bool.false_ne_true.symm

/-- A slash is a token of its own. -/
theorem LexesUnjoined.behind_slash {text : List Char} {tokens : List Token}
    (h : LexesUnjoined ('/' :: text) tokens)
    : ∃ rest, tokens = .slash :: rest ∧ LexesUnjoined text rest := by
  cases h with
  | spacing hc => cases hc
  | token _ hread h =>
      obtain ⟨rfl, rfl⟩ : Token.slash = _ ∧ text = _ := Prod.mk.inj (Option.some.inj hread)
      exact ⟨_, rfl, h⟩

/-- Without joining slashes, a text keeps its tokens when spacing beside slashes is left out. -/
theorem LexesUnjoined.tightened {text tight : List Char} {tokens : List Token}
    (ht : Tightened text tight) (h : LexesUnjoined text tokens)
    : LexesUnjoined tight tokens := by
  have hends (back : List Char) : Text.EndsTokens ('/' :: back) :=
    @Text.endsTokens_slash [] (by simp) back
  induction ht with
  | refl => exact h
  | before front spacing back hs =>
      rw [List.append_assoc] at h
      have hspacing := Text.endsTokens_slash hs back
      exact replace_tail hspacing (hends back) (fun _ => of_spacing hs) front h
  | behind front spacing back hs =>
      refine replace_tail (hends _) (hends back) (fun tokens h => ?_) front h
      obtain ⟨rest, rfl, hrest⟩ := h.behind_slash
      exact .token rfl rfl (of_spacing hs hrest)
  | trans _ _ ih ih' => exact ih' (ih h)

-----------------------------------------------------------------------------------------
-- The tokens without joining are the parts of those with joining
-----------------------------------------------------------------------------------------

namespace Token

/-- What is read as a numeral is read without joining, too, or is an integer with a slash and the
denominator behind it. -/
theorem readNumeral_unjoined (fractionAllowed : Bool) (text : List Char)
    : readNumeral false text = readNumeral fractionAllowed text
      ∨ ∃ numerator denominator rest,
          readNumeral fractionAllowed text = (.fraction numerator denominator, rest)
          ∧ readNumeral false text = (.decimal numerator [], '/' :: (denominator ++ rest))
          ∧ rest.head?.any Text.isDigit = false := by
  simp only [readNumeral, Bool.false_and, Bool.false_eq_true, if_false]
  split
  · next rest _ =>
    split
    · exact .inr ⟨_, _, _, rfl, by rw [List.takeWhile_append_dropWhile], head?_dropWhile rest⟩
    · exact .inl rfl
  · exact .inl rfl
  · exact .inl rfl

/-- What is read as a token is read without joining, too, or is an integer with a slash and the
denominator behind it. -/
theorem read?_unjoined {fractionAllowed : Bool} {text rest : List Char} {token : Token}
    (h : read? fractionAllowed text = some (token, rest))
    : token.parts = [token] ∧ read? false text = some (token, rest)
      ∨ ∃ numerator denominator,
          token = numeral (.fraction numerator denominator)
          ∧ read? false text
            = some (numeral (.decimal numerator []), '/' :: (denominator ++ rest))
          ∧ rest.head?.any Text.isDigit = false := by
  cases text with
  | nil => cases h
  | cons c text =>
      simp only [read?] at h ⊢
      split at h
      · next hc =>
        obtain ⟨rfl, rfl⟩ := Prod.mk.inj (Option.some.inj h)
        simp only [hc, if_true]
        rcases readNumeral_unjoined fractionAllowed (c :: text) with
          hsame | ⟨numerator, denominator, rest, hread, hunjoined, hrest⟩
        · rw [← hsame]
          have hdecimal := readNumeral_cases false (c :: text)
          simp only [Bool.false_eq_true, false_and, false_or] at hdecimal
          obtain ⟨places, hplaces⟩ := hdecimal
          exact .inl ⟨by rw [hplaces]; rfl, rfl⟩
        · refine .inr ⟨numerator, denominator, by rw [hread], ?_, by rwa [hread]⟩
          rw [hunjoined, hread]
      · next hc =>
        rw [if_neg hc]
        refine .inl ⟨?_, h⟩
        split at h
        · split at h <;> cases h <;> rfl
        · obtain ⟨found, hfound, heq⟩ := Option.map_eq_some_iff.mp h
          obtain ⟨rfl, rfl⟩ := Prod.mk.inj heq
          unfold punctuation? at hfound
          split at hfound <;> cases hfound <;> rfl

end Token

/-- No token starts with a point. -/
theorem Lexes.head?_ne_point {fractionAllowed : Bool} {text : List Char} {tokens : List Token}
    (h : Lexes fractionAllowed text tokens)
    : text.head? ≠ some '.' := by
  cases h with
  | nil => simp
  | spacing hc => simpa using Text.ne_of_class hc rfl
  | token _ hread =>
      rintro hpoint
      cases hpoint
      cases hread

/-- Digits are an integer in front of what goes on neither with a digit nor with a point. -/
theorem LexesUnjoined.integer {digits rest : List Char} {tokens : List Token}
    (hne : digits ≠ []) (hd : ∀ c ∈ digits, Text.isDigit c = true)
    (hdigit : rest.head?.any Text.isDigit = false) (hpoint : rest.head? ≠ some '.')
    (h : LexesUnjoined rest tokens)
    : LexesUnjoined (digits ++ rest) (.numeral (.decimal digits []) :: tokens) := by
  have hread : Token.readNumeral false (digits ++ rest) = (.decimal digits [], rest) := by
    cases rest with
    | nil => exact Token.readNumeral_integer false hd rfl
    | cons c rest =>
        by_cases hc : c = '/'
        · rw [hc]
          exact Token.readNumeral_refused rest hd
        · exact Token.readNumeral_integer false hd (by simp_all [Text.continuesNumeral])
  obtain ⟨d, digits, rfl⟩ := List.exists_cons_of_ne_nil hne
  have hdigit : Text.isDigit d = true := hd d List.mem_cons_self
  have htoken := @Token.read?_of_isDigit false (d :: digits ++ rest) (by simpa using hdigit)
  rw [hread] at htoken
  exact .token (Text.isSpacing_of_isDigit hdigit) htoken h

/-- A text that consists of tokens consists of their parts, if no slash is joined. -/
theorem Lexes.unjoined {fractionAllowed : Bool} {text : List Char} {tokens : List Token}
    (h : Lexes fractionAllowed text tokens)
    : LexesUnjoined text (tokens.flatMap Token.parts) := by
  induction h with
  | nil => exact .nil
  | spacing hc _ ih => exact .spacing hc ih
  | token hc hread hrest ih =>
      rw [List.flatMap_cons]
      rcases Token.read?_unjoined hread with
        ⟨hparts, hread⟩ | ⟨numerator, denominator, rfl, hread', hdigit⟩
      · rw [hparts]
        exact .token hc hread ih
      · obtain ⟨_, hne, hdigits⟩ := (Token.fits_of_read? hread).1
        have hd := (List.forall_mem_append.mp hdigits).2
        exact .token hc hread' (.token rfl rfl (.integer hne hd hdigit hrest.head?_ne_point ih))

/-- Two texts that consist of tokens consist of the same parts, if one lacks spacing beside slashes
that the other has. -/
theorem Lexes.parts_eq_of_tightened {text tight : List Char} {tokens others : List Token}
    (ht : Tightened text tight) (h : Lexes true text tokens) (h' : Lexes true tight others)
    : others.flatMap Token.parts = tokens.flatMap Token.parts :=
  h'.unjoined.unique (h.unjoined.tightened ht)

end TermGrouping
