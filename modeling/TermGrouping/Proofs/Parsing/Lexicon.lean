import Mathlib.Data.List.TakeWhile
import TermGrouping.Lexicon
import TermGrouping.Proofs.Writing.Scanning

/-! The reader of tokens against the matches of terminals. What is read matches its terminal, and a
token that matches in the same place is either what is read or gives way to it.
-/

namespace TermGrouping

namespace Token

-----------------------------------------------------------------------------------------
-- What is read is a candidate
-----------------------------------------------------------------------------------------

theorem takeWhile_ne_nil {p : Char → Bool} {text : List Char} (h : text.head?.any p = true)
    : text.takeWhile p ≠ [] := by
  cases text with
  | nil => simp at h
  | cons c text =>
      have hc : p c = true := by simpa using h
      simp [hc]

/-- A numeral that starts with a digit is made of digits. -/
theorem readNumeral_fits {fractionAllowed : Bool} {text : List Char} (rest : List Char)
    (h : text.head?.any Text.isDigit = true)
    : (numeral (readNumeral fractionAllowed text).1).Fits rest := by
  have hwhole := takeWhile_ne_nil h
  have hdigits : ∀ c ∈ text.takeWhile Text.isDigit, Text.isDigit c = true :=
    fun _ => List.mem_takeWhile_imp
  have hinteger : (numeral (.decimal (text.takeWhile Text.isDigit) [])).Fits rest :=
    ⟨hwhole, by simpa using hdigits⟩
  unfold readNumeral
  split
  · next behind _ =>
    split
    · next hf =>
      simp only [Bool.and_eq_true] at hf
      exact ⟨hwhole, takeWhile_ne_nil hf.2,
        List.forall_mem_append.mpr ⟨hdigits, fun _ => List.mem_takeWhile_imp⟩⟩
    · exact hinteger
  · next behind _ =>
    split
    · exact ⟨hwhole, List.forall_mem_append.mpr ⟨hdigits, fun _ => List.mem_takeWhile_imp⟩⟩
    · exact hinteger
  · exact hinteger

/-- A numeral is a fraction, where that is allowed, or takes all digits at the front of the text as
its whole part. -/
theorem readNumeral_cases (fractionAllowed : Bool) (text : List Char)
    : (fractionAllowed = true
        ∧ ∃ numerator denominator,
            (readNumeral fractionAllowed text).1 = .fraction numerator denominator)
      ∨ ∃ places,
          (readNumeral fractionAllowed text).1 = .decimal (text.takeWhile Text.isDigit) places := by
  unfold readNumeral
  split
  · split
    · next hf => exact .inl ⟨(Bool.and_eq_true_iff.mp hf).1, _, _, rfl⟩
    · exact .inr ⟨_, rfl⟩
  · split <;> exact .inr ⟨_, rfl⟩
  · exact .inr ⟨_, rfl⟩

/-- A text in which a bracket follows consists of blanks, the bracket and a rest. -/
theorem eq_of_bracketFollows {rest : List Char} (h : bracketFollows rest = true)
    : ∃ blanks tail, (∀ c ∈ blanks, Text.isBlank c = true) ∧ rest = blanks ++ '(' :: tail := by
  simp only [bracketFollows, beq_iff_eq] at h
  obtain ⟨tail, htail⟩ := List.head?_eq_some_iff.mp h
  refine ⟨rest.takeWhile Text.isBlank, tail, fun _ => List.mem_takeWhile_imp, ?_⟩
  rw [← htail, List.takeWhile_append_dropWhile]

/-- A token that is read matches its terminal, and is a fraction only where one is allowed. -/
theorem fits_of_read? {fractionAllowed : Bool} {text rest : List Char} {token : Token}
    (h : read? fractionAllowed text = some (token, rest))
    : token.Fits rest
      ∧ (fractionAllowed = false
          → ∀ digits, token = numeral digits → digits.isFraction = false) := by
  cases text with
  | nil => simp [read?] at h
  | cons c tail =>
      simp only [read?] at h
      split at h
      · next hc =>
        obtain ⟨rfl, rfl⟩ := Prod.mk.inj (Option.some.inj h)
        refine ⟨readNumeral_fits _ (by simpa using hc), fun hf digits hd => ?_⟩
        rcases readNumeral_cases fractionAllowed (c :: tail) with ⟨hallowed, _⟩ | ⟨places, hp⟩
        · exact absurd (hf.symm.trans hallowed) Bool.false_ne_true
        · rw [← numeral.inj hd, hp]
          rfl
      · split at h
        · next hl =>
          split at h
          · next name after hcallee =>
            obtain ⟨rfl, rfl⟩ := Prod.mk.inj (Option.some.inj h)
            simp only [readCallee?, Option.ite_none_right_eq_some, Bool.and_eq_true,
              decide_eq_true_eq] at hcallee
            obtain ⟨⟨hlength, hbracket⟩, heq⟩ := hcallee
            obtain ⟨rfl, rfl⟩ := Prod.mk.inj (Option.some.inj heq)
            exact ⟨⟨hlength, fun _ => List.mem_takeWhile_imp, eq_of_bracketFollows hbracket⟩,
              fun _ _ hd => Token.noConfusion hd⟩
          · obtain ⟨rfl, rfl⟩ := Prod.mk.inj (Option.some.inj h)
            exact ⟨hl, fun _ _ hd => Token.noConfusion hd⟩
        · obtain ⟨found, hfound, heq⟩ := Option.map_eq_some_iff.mp h
          obtain ⟨rfl, rfl⟩ := Prod.mk.inj heq
          unfold punctuation? at hfound
          split at hfound <;> cases hfound <;> exact ⟨trivial, fun _ _ hd => Token.noConfusion hd⟩

-----------------------------------------------------------------------------------------
-- What is read is preferred to all candidates
-----------------------------------------------------------------------------------------

theorem head?_dropWhile {p : Char → Bool} (text : List Char)
    : (text.dropWhile p).head?.any p = false := by
  have h := List.head?_dropWhile_not p text
  cases hd : (text.dropWhile p).head? with
  | none => rfl
  | some c => rw [hd] at h; simpa using h

/-- A fraction is read with all digits that follow. -/
theorem fraction_or_yieldsTo {numerator denominator rest : List Char}
    (hfits : (numeral (.fraction numerator denominator)).Fits rest)
    : let found :=
        (readNumeral true ((Numeral.fraction numerator denominator).spelling ++ rest)).1
      .fraction numerator denominator = found
        ∨ (numeral (.fraction numerator denominator)).YieldsTo (numeral found) := by
  obtain ⟨_, hne, hdigits⟩ := hfits
  obtain ⟨hnumerator, hdenominator⟩ := List.forall_mem_append.mp hdigits
  have hread := readNumeral_fraction hnumerator
    (List.append_ne_nil_of_left_ne_nil hne (rest.takeWhile Text.isDigit))
    (List.forall_mem_append.mpr ⟨hdenominator, fun _ => List.mem_takeWhile_imp⟩)
    (head?_dropWhile rest)
  rw [List.append_assoc, List.takeWhile_append_dropWhile] at hread
  simp only [Numeral.spelling, List.append_assoc, List.cons_append, hread]
  cases rest.takeWhile Text.isDigit with
  | nil => exact .inl (by simp)
  | cons c more =>
      refine .inr (.inr ⟨rfl, ?_⟩)
      simp [spelling, Numeral.spelling]

/-- A numeral is read with all digits that follow, or as the start of a longer one. -/
theorem decimal_or_yieldsTo (fractionAllowed : Bool) {whole places rest : List Char}
    (hfits : (numeral (.decimal whole places)).Fits rest)
    : let found :=
        (readNumeral fractionAllowed ((Numeral.decimal whole places).spelling ++ rest)).1
      .decimal whole places = found
        ∨ (numeral (.decimal whole places)).YieldsTo (numeral found) := by
  obtain ⟨_, hdigits⟩ := hfits
  obtain ⟨hwhole, hplaces⟩ := List.forall_mem_append.mp hdigits
  cases places with
  | nil =>
      -- Digits alone can be the start of a fraction or of a decimal.
      intro found
      have hfound : found = (readNumeral fractionAllowed (whole ++ rest)).1 := rfl
      rcases readNumeral_cases fractionAllowed (whole ++ rest) with ⟨_, n, d, hf⟩ | ⟨places, hf⟩
      · exact .inr (.inl (by rw [hfound, hf]; exact Nat.lt_succ_of_lt Nat.one_lt_two))
      · rw [hfound, hf, List.takeWhile_append_of_pos hwhole]
        cases hmore : rest.takeWhile Text.isDigit ++ places with
        | nil =>
            obtain ⟨hnone, rfl⟩ := List.append_eq_nil_iff.mp hmore
            exact .inl (by rw [hnone, List.append_nil])
        | cons c more =>
            have hlength : 0 < (rest.takeWhile Text.isDigit ++ places).length := by simp [hmore]
            rw [List.length_append] at hlength
            refine .inr (.inr ⟨rfl, ?_⟩)
            cases places with
            | nil => simpa [spelling, Numeral.spelling] using hlength
            | cons =>
                simp only [spelling, Numeral.spelling, List.length_append, List.length_cons]
                omega
  | cons d places =>
      have hread := readNumeral_decimal fractionAllowed hwhole
        (List.append_ne_nil_of_left_ne_nil (List.cons_ne_nil d places)
          (rest.takeWhile Text.isDigit))
        (List.forall_mem_append.mpr ⟨hplaces, fun _ => List.mem_takeWhile_imp⟩)
        (head?_dropWhile rest)
      rw [List.append_assoc, List.takeWhile_append_dropWhile] at hread
      simp only [Numeral.spelling, List.append_assoc, List.cons_append] at hread ⊢
      rw [hread]
      cases rest.takeWhile Text.isDigit with
      | nil => exact .inl (by simp)
      | cons c more =>
          refine .inr (.inr ⟨rfl, ?_⟩)
          simp [spelling, Numeral.spelling]

/-- The spelling of a numeral starts with a digit. -/
theorem head?_spelling {digits : Numeral} {rest : List Char} (h : (numeral digits).Fits rest)
    (text : List Char)
    : (digits.spelling ++ text).head?.any Text.isDigit = true := by
  cases digits with
  | decimal whole places =>
      obtain ⟨hne, hdigits⟩ := h
      obtain ⟨c, whole, rfl⟩ := List.exists_cons_of_ne_nil hne
      cases places <;> simp [Numeral.spelling, hdigits c]
  | fraction numerator denominator =>
      obtain ⟨hne, _, hdigits⟩ := h
      obtain ⟨c, numerator, rfl⟩ := List.exists_cons_of_ne_nil hne
      simp [Numeral.spelling, hdigits c]

/-- Where a digit stands, the token is a numeral. -/
theorem read?_of_isDigit {fractionAllowed : Bool} {text : List Char}
    (h : text.head?.any Text.isDigit = true)
    : read? fractionAllowed text
      = some (numeral (readNumeral fractionAllowed text).1,
          (readNumeral fractionAllowed text).2) := by
  cases text with
  | nil => simp at h
  | cons c text =>
      have hc : Text.isDigit c = true := by simpa using h
      simp [read?, hc]

/-- The name of a function is read where it matches. -/
theorem read?_callee (fractionAllowed : Bool) {name rest : List Char} (h : (callee name).Fits rest)
    : read? fractionAllowed (name ++ rest) = some (callee name, rest) := by
  obtain ⟨hlength, hletters, blanks, tail, hblanks, rfl⟩ := h
  obtain ⟨c, letters, rfl⟩ :=
    List.exists_cons_of_length_pos (Nat.lt_of_lt_of_le Nat.zero_lt_two hlength)
  have hc : Text.isLetter c = true := hletters c List.mem_cons_self
  have hrest : (blanks ++ '(' :: tail).head?.any Text.isLetter = false := by
    cases blanks with
    | nil => rfl
    | cons b blanks => simpa using Text.isLetter_of_isBlank (hblanks b List.mem_cons_self)
  obtain ⟨htake, hdrop⟩ := span_run hletters hrest
  have hblank : (blanks ++ '(' :: tail).dropWhile Text.isBlank = '(' :: tail :=
    (span_run hblanks rfl).2
  have hbracket : bracketFollows (blanks ++ '(' :: tail) = true := by
    rw [bracketFollows, hblank]
    rfl
  have hcallee : readCallee? (c :: letters ++ (blanks ++ '(' :: tail))
      = some (c :: letters, blanks ++ '(' :: tail) := by
    simp only [readCallee?, htake, hdrop, hbracket, Bool.and_true, decide_eq_true hlength, if_true]
  rw [List.cons_append] at hcallee ⊢
  simp [read?, Text.isDigit_of_isLetter hc, hc, hcallee]

/-- Of two tokens at most one yields to the other, because priorities and lengths are ordered. -/
theorem YieldsTo.asymm {token other : Token} (h : token.YieldsTo other)
    : ¬ other.YieldsTo token := by
  unfold YieldsTo at *
  omega

/-- What is read instead of a token that matches its terminal is preferred to it. -/
theorem exists_read?_of_fits {fractionAllowed : Bool} {token : Token} {rest : List Char}
    (hfits : token.Fits rest)
    (hallowed : fractionAllowed = false
      → ∀ digits, token = numeral digits → digits.isFraction = false)
    : ∃ found tail, read? fractionAllowed (token.spelling ++ rest) = some (found, tail)
        ∧ (token = found ∨ token.YieldsTo found) := by
  cases token with
  | numeral digits =>
      refine ⟨_, _, read?_of_isDigit (head?_spelling hfits rest), ?_⟩
      rw [numeral.injEq]
      cases digits with
      | decimal => exact decimal_or_yieldsTo fractionAllowed hfits
      | fraction =>
          cases fractionAllowed with
          | true => exact fraction_or_yieldsTo hfits
          | false => cases hallowed rfl _ rfl
  | callee name => exact ⟨_, _, read?_callee fractionAllowed hfits, .inl rfl⟩
  | symbol letter =>
      -- The letter may be the first one of the name of a function.
      have hletter : Text.isLetter letter = true := hfits
      simp only [spelling, List.singleton_append, read?, Text.isDigit_of_isLetter hletter,
        Bool.false_eq_true, if_false, hletter, if_true]
      cases readCallee? (letter :: rest) with
      | none => exact ⟨_, _, rfl, .inl rfl⟩
      | some found => exact ⟨_, _, rfl, .inr (.inl Nat.one_lt_two)⟩
  | sign value => cases value <;> exact ⟨_, _, rfl, .inl rfl⟩
  | times | slash | caret | opening | closing | comma => exact ⟨_, _, rfl, .inl rfl⟩

end Token

end TermGrouping
