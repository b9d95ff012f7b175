import Mathlib.Algebra.Order.Ring.Rat
import Mathlib.Data.List.Induction
import Mathlib.Tactic.Ring
import TermGrouping.Proofs.Writing.Rereading

/-! Numerals that run into each other. A numeral behind another one is read as more digits of it;
what is read cannot have the value of the second numeral while the first is one.
-/

namespace TermGrouping

namespace Text

/-- Digits behind others move those to the left. -/
theorem naturalOf_append (left right : List Char)
    : naturalOf (left ++ right) = naturalOf left * 10 ^ right.length + naturalOf right := by
  have hshift : ∀ (digits : List Char) (start : Nat),
      digits.foldl (fun n c => 10 * n + (digitValue? c).getD 0) start
        = start * 10 ^ digits.length + naturalOf digits := by
    intro digits
    induction digits with
    | nil => intro start; simp [naturalOf]
    | cons c digits ih =>
        intro start
        rw [naturalOf, List.foldl_cons, List.foldl_cons, ih, ih (10 * 0 + _), List.length_cons,
          Nat.pow_succ]
        ring
  rw [naturalOf, List.foldl_append, hshift]
  rfl

/-- A run of digits writes less than the power of ten with as many zeros. -/
theorem naturalOf_lt (digits : List Char) : naturalOf digits < 10 ^ digits.length := by
  induction digits using List.reverseRecOn with
  | nil => simp [naturalOf]
  | append_singleton digits c ih =>
      have hc : naturalOf [c] < 10 := by
        simp only [naturalOf, List.foldl_cons, List.foldl_nil]
        cases h : digitValue? c with
        | none => simp
        | some d => simpa using digitValue?_lt h
      rw [naturalOf_append, List.length_append, List.length_singleton, Nat.pow_succ]
      omega

end Text

namespace Numeral

/-- Two numerals have the same value if their cross products agree. -/
theorem value_eq_value_iff {m n : Numeral} (hm : m.denominator ≠ 0) (hn : n.denominator ≠ 0)
    : m.value = n.value ↔ m.numerator * n.denominator = n.numerator * m.denominator := by
  rw [value, value, Rat.mkRat_eq_iff hm hn]
  norm_cast

theorem value_eq_one_iff {n : Numeral} (hn : n.denominator ≠ 0)
    : n.value = 1 ↔ n.numerator = n.denominator := by
  have hone : (1 : Rat) = mkRat 1 1 := rfl
  rw [value, hone, Rat.mkRat_eq_iff hn one_ne_zero]
  norm_cast
  rw [mul_one, one_mul]

theorem value_nonneg (n : Numeral) : 0 ≤ n.value :=
  Rat.mkRat_nonneg (Int.natCast_nonneg _) _

end Numeral

-----------------------------------------------------------------------------------------
-- Reading one numeral in front of another
-----------------------------------------------------------------------------------------

/-- What can be read where two numerals stand side by side. -/
inductive Merged (first second : Numeral) (text : List Char) : Numeral × List Char → Prop where
  /-- One numeral; if the first one is one, its value is not that of the second. -/
  | whole (n : Numeral) : (first.value = 1 → n.value ≠ second.value)
    → Merged first second text (n, text)
  /-- The second numeral is a fraction, and its slash is left over. -/
  | slash (n : Numeral) (denominator : List Char) : denominator ≠ []
    → (∀ c ∈ denominator, Text.isDigit c = true)
    → Merged first second text (n, '/' :: (denominator ++ text))
  /-- Both numerals have decimal places, and the second point is left over. -/
  | point (n : Numeral) (rest : List Char) : Merged first second text (n, '.' :: rest)

/-- More digits in front of the numerator make a greater numeral. -/
theorem value_ne_of_integer {whole : List Char} {m n : Numeral} (digits : Nat)
    (hd : n.denominator ≠ 0) (hden : m.denominator = n.denominator)
    (hnum : m.numerator = Text.naturalOf whole * 10 ^ digits + n.numerator)
    (hone : (Numeral.decimal whole []).value = 1)
    : m.value ≠ n.value := by
  have hw : Text.naturalOf whole = 1 := by
    simpa [Numeral.value_eq_one_iff, Numeral.numerator, Numeral.denominator] using hone
  rw [Ne, Numeral.value_eq_value_iff (hden ▸ hd) hd, hden, hnum, hw]
  have hpos : 0 < 10 ^ digits * n.denominator :=
    Nat.mul_pos (Nat.pow_pos (by decide)) (Nat.pos_of_ne_zero hd)
  rw [one_mul, Nat.add_mul]
  omega

/-- More digits behind the point of a one make no integer that is written with them. -/
theorem value_ne_of_decimal {whole places : List Char} (digits : List Char)
    (hone : (Numeral.decimal whole places).value = 1)
    : (Numeral.decimal whole (places ++ digits)).value ≠ (Numeral.decimal digits []).value := by
  have hden (places : List Char) : (Numeral.decimal whole places).denominator ≠ 0 :=
    Nat.pos_iff_ne_zero.mp (Nat.pow_pos (by decide))
  have hw : Text.naturalOf (whole ++ places) = 10 ^ places.length :=
    (Numeral.value_eq_one_iff (hden places)).mp hone
  have hlt := Text.naturalOf_lt digits
  have hpos : 0 < 10 ^ places.length := Nat.pow_pos (by decide)
  rw [Ne, Numeral.value_eq_value_iff (hden _) (by simp [Numeral.denominator])]
  simp only [Numeral.numerator, Numeral.denominator, Nat.pow_eq, ← List.append_assoc,
    Text.naturalOf_append (whole ++ places), hw, List.length_append, Nat.pow_add,
    List.append_nil, List.length_nil, Nat.pow_zero, Nat.mul_one]
  -- One and a part of one that the digits write is less than two, and no integer.
  have hle : 10 ^ digits.length ≤ 10 ^ places.length * 10 ^ digits.length :=
    Nat.le_mul_of_pos_left _ hpos
  generalize 10 ^ places.length * 10 ^ digits.length = unit at hle ⊢
  intro h
  rcases Nat.lt_or_ge (Text.naturalOf digits) 2 with hd | hd
  · have : Text.naturalOf digits * unit ≤ 1 * unit := Nat.mul_le_mul_right unit (by omega)
    rcases Nat.eq_zero_or_pos (Text.naturalOf digits) with hz | hz
    · rw [hz] at h
      omega
    · omega
  · have : 2 * unit ≤ Text.naturalOf digits * unit := Nat.mul_le_mul_right unit hd
    omega

/-- More digits in the denominator of a one make no integer that is written with them. -/
theorem value_ne_of_fraction {numerator denominator digits : List Char} (hne : digits ≠ [])
    (hd : Text.naturalOf denominator ≠ 0)
    (hone : (Numeral.fraction numerator denominator).value = 1)
    : (Numeral.fraction numerator (denominator ++ digits)).value
      ≠ (Numeral.decimal digits []).value := by
  have hd' : (Numeral.fraction numerator denominator).denominator ≠ 0 := hd
  have hw : Text.naturalOf numerator = Text.naturalOf denominator :=
    (Numeral.value_eq_one_iff hd').mp hone
  have hten : 10 ≤ 10 ^ digits.length :=
    Nat.le_self_pow (Nat.pos_iff_ne_zero.mp (List.length_pos_iff.mpr hne)) 10
  have hscaled := Nat.mul_le_mul_left (Text.naturalOf denominator) hten
  have hden : (Numeral.fraction numerator (denominator ++ digits)).denominator ≠ 0 := by
    rw [Numeral.denominator, Text.naturalOf_append]
    omega
  rw [Ne, Numeral.value_eq_value_iff hden (by simp [Numeral.denominator])]
  simp only [Numeral.numerator, Numeral.denominator, Nat.pow_eq,
    Text.naturalOf_append denominator, hw, List.append_nil, List.length_nil, Nat.pow_zero,
    Nat.mul_one]
  generalize Text.naturalOf denominator * 10 ^ digits.length = scaled at hscaled ⊢
  intro h
  rcases Nat.eq_zero_or_pos (Text.naturalOf digits) with hz | hz
  · rw [hz] at h
    omega
  · have := Nat.le_mul_of_pos_left (scaled + Text.naturalOf digits) hz
    omega

/-- An integer takes the digits of the next numeral, and goes on like it. -/
theorem merged_integer {fractionAllowed : Bool} {whole : List Char} {second : Numeral}
    (hne : whole ≠ []) (hw : ∀ c ∈ whole, Text.isDigit c = true) (hsecond : second.IsReadable)
    {text : List Char} (ht : Text.continuesNumeral text = false)
    : Merged (.decimal whole []) second text
        (Token.readNumeral fractionAllowed (whole ++ (second.spelling ++ text))) := by
  have hsecondDenominator := hsecond.denominator_ne_zero
  cases second with
  | decimal digits places =>
      have hreadable : (Numeral.decimal (whole ++ digits) places).IsReadable := by
        refine ⟨by simp [hne], ?_⟩
        rw [List.append_assoc]
        exact List.forall_mem_append.mpr ⟨hw, hsecond.2⟩
      have hread := Token.readNumeral_append hreadable
        (by simp [Numeral.isFraction] : (fractionAllowed || !_) = true) ht
      have hspelling : (Numeral.decimal (whole ++ digits) places).spelling
          = whole ++ (Numeral.decimal digits places).spelling := by
        cases places <;> simp [Numeral.spelling]
      rw [hspelling, List.append_assoc] at hread
      rw [hread]
      refine .whole _ fun hone => value_ne_of_integer (digits ++ places).length
        hsecondDenominator rfl ?_ hone
      simp only [Numeral.numerator, List.append_assoc, Text.naturalOf_append whole]
  | fraction numerator denominator =>
      obtain ⟨hn, hden, hdigits, hnz⟩ := hsecond
      obtain ⟨hnumerator, hdenominator⟩ := List.forall_mem_append.mp hdigits
      have hwn : ∀ c ∈ whole ++ numerator, Text.isDigit c = true :=
        List.forall_mem_append.mpr ⟨hw, hnumerator⟩
      have hspelling : whole ++ ((Numeral.fraction numerator denominator).spelling ++ text)
          = (whole ++ numerator) ++ '/' :: (denominator ++ text) := by
        simp [Numeral.spelling]
      have hd : text.head?.any Text.isDigit = false := by
        cases text <;> simp_all [Text.continuesNumeral]
      rw [hspelling]
      cases fractionAllowed with
      | false =>
          rw [Token.readNumeral_refused _ hwn]
          exact .slash _ _ hden hdenominator
      | true =>
          rw [Token.readNumeral_fraction hwn hden hdenominator hd]
          refine .whole _ fun hone =>
            value_ne_of_integer numerator.length hsecondDenominator rfl ?_ hone
          exact Text.naturalOf_append whole numerator

/-- A numeral with a point or a slash takes the digits of the next one, and ends there. -/
theorem merged_of_growing {fractionAllowed : Bool} {first second : Numeral}
    (grown : List Char → Numeral) (hsecond : second.IsReadable) {text : List Char}
    (hd : text.head?.any Text.isDigit = false)
    (hread : ∀ digits rest, (∀ c ∈ digits, Text.isDigit c = true)
      → rest.head?.any Text.isDigit = false
      → Token.readNumeral fractionAllowed (first.spelling ++ (digits ++ rest))
        = (grown digits, rest))
    (hvalue : ∀ digits, digits ≠ [] → first.value = 1
      → (grown digits).value ≠ (Numeral.decimal digits []).value)
    : Merged first second text
        (Token.readNumeral fractionAllowed (first.spelling ++ (second.spelling ++ text))) := by
  cases second with
  | decimal digits places =>
      obtain ⟨hne, hdigits⟩ := hsecond
      obtain ⟨hw, _⟩ := List.forall_mem_append.mp hdigits
      cases places with
      | nil =>
          rw [Numeral.spelling, hread digits text hw hd]
          exact .whole _ (hvalue digits hne)
      | cons d places =>
          have hpoint : ('.' :: (d :: places ++ text)).head?.any Text.isDigit = false := rfl
          have hspelling : (Numeral.decimal digits (d :: places)).spelling ++ text
              = digits ++ '.' :: (d :: places ++ text) := by
            simp [Numeral.spelling]
          rw [hspelling, hread digits _ hw hpoint]
          exact .point _ _
  | fraction numerator denominator =>
      obtain ⟨_, hne, hdigits, _⟩ := hsecond
      obtain ⟨hn, hden⟩ := List.forall_mem_append.mp hdigits
      have hslash : ('/' :: (denominator ++ text)).head?.any Text.isDigit = false := rfl
      have hspelling : (Numeral.fraction numerator denominator).spelling ++ text
          = numerator ++ '/' :: (denominator ++ text) := by
        simp [Numeral.spelling]
      rw [hspelling, hread numerator _ hn hslash]
      exact .slash _ _ hne hden

/-- Two numerals side by side are read as one, or a slash or a point is left over. -/
theorem merged_readNumeral {fractionAllowed : Bool} {first second : Numeral}
    (hfirst : first.IsReadable) (hsecond : second.IsReadable)
    (hf : (fractionAllowed || !first.isFraction) = true) {text : List Char}
    (ht : Text.continuesNumeral text = false)
    : Merged first second text
        (Token.readNumeral fractionAllowed (first.spelling ++ (second.spelling ++ text))) := by
  have hd : text.head?.any Text.isDigit = false := by
    cases text <;> simp_all [Text.continuesNumeral]
  cases first with
  | decimal whole places =>
      obtain ⟨hw, hp⟩ := List.forall_mem_append.mp hfirst.2
      cases places with
      | nil => exact merged_integer hfirst.1 hw hsecond ht
      | cons d places =>
          refine merged_of_growing (fun digits => .decimal whole (d :: places ++ digits)) hsecond
            hd (fun digits rest hdigits hrest => ?_)
            fun digits _ hone => value_ne_of_decimal digits hone
          simpa [Numeral.spelling] using Token.readNumeral_decimal fractionAllowed hw
            (List.cons_ne_nil d (places ++ digits))
            (List.forall_mem_append.mpr ⟨hp, hdigits⟩) hrest
  | fraction numerator denominator =>
      obtain ⟨_, hne, hdigits, hnz⟩ := hfirst
      obtain ⟨hn, hden⟩ := List.forall_mem_append.mp hdigits
      have hallowed : fractionAllowed = true := by simpa [Numeral.isFraction] using hf
      rw [hallowed]
      refine merged_of_growing (fun digits => .fraction numerator (denominator ++ digits))
        hsecond hd (fun digits rest hdigits hrest => ?_)
        fun digits hdigits hone => value_ne_of_fraction hdigits hnz hone
      simpa [Numeral.spelling] using Token.readNumeral_fraction hn
        (List.append_ne_nil_of_left_ne_nil hne digits)
        (List.forall_mem_append.mpr ⟨hden, hdigits⟩) hrest

end TermGrouping
