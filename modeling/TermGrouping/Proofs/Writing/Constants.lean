import Mathlib.Algebra.Order.Ring.Unbundled.Rat
import TermGrouping.Proofs.Writing.Scanning

/-! Constants that are written as numerals. A constant without a text is written by its value, in
lowest terms and in base ten, and what is written has that value again.
-/

namespace TermGrouping

namespace Text

/-- The digits of ASCII are digits, and zero is the first of them. -/
theorem digitValue?_of_isDigit {c : Char} (h : c.isDigit = true)
    : digitValue? c = some (c.toNat - '0'.toNat) := by
  have hrange : 48 ≤ c.toNat ∧ c.toNat ≤ 57 := by
    simpa [Char.isDigit, UInt32.le_iff_toNat_le] using h
  have hfirst : (decide (0x30 ≤ c.toNat) && decide (c.toNat < 0x30 + 10)) = true := by
    simp only [Bool.and_eq_true, decide_eq_true_eq]
    omega
  simp only [digitValue?, digitZeros, List.find?_cons, hfirst]
  rfl

theorem isDigit_toDigits (n : Nat) : ∀ c ∈ Nat.toDigits 10 n, isDigit c = true := by
  intro c hc
  have h := Nat.isDigit_of_mem_toDigits (by decide) (by decide) hc
  simp [isDigit, digitValue?_of_isDigit h]

/-- A number is the one that its digits write. -/
theorem naturalOf_toDigits (n : Nat) : naturalOf (Nat.toDigits 10 n) = n := by
  have hdigits : ∀ (digits : List Char) (start : Nat), (∀ c ∈ digits, c.isDigit = true)
      → digits.foldl (fun n c => 10 * n + (digitValue? c).getD 0) start
        = Nat.ofDigitChars 10 digits start := by
    intro digits
    induction digits with
    | nil => intro start _; simp
    | cons c digits ih =>
        intro start h
        obtain ⟨hc, hrest⟩ := List.forall_mem_cons.mp h
        simp [digitValue?_of_isDigit hc, ih _ hrest, Nat.ofDigitChars_cons]
  rw [naturalOf, hdigits _ 0 fun c hc => Nat.isDigit_of_mem_toDigits (by decide) (by decide) hc]
  exact Nat.ofDigitChars_ten_toDigits

end Text

namespace Numeral

def ofRat (q : Rat) : Numeral :=
  if q.den = 1 then .decimal (Nat.toDigits 10 q.num.natAbs) []
  else .fraction (Nat.toDigits 10 q.num.natAbs) (Nat.toDigits 10 q.den)

theorem ofRat_readable (q : Rat) : (ofRat q).IsReadable := by
  unfold ofRat
  split
  · exact ⟨Nat.toDigits_ne_nil, by simpa using Text.isDigit_toDigits _⟩
  · refine ⟨Nat.toDigits_ne_nil, Nat.toDigits_ne_nil, ?_, ?_⟩
    · exact List.forall_mem_append.mpr ⟨Text.isDigit_toDigits _, Text.isDigit_toDigits _⟩
    · rw [Text.naturalOf_toDigits]
      exact q.den_nz

/-- The numeral of a rational has its absolute value, by cases on the sign. -/
theorem ofRat_value (q : Rat) : q = if q < 0 then -(ofRat q).value else (ofRat q).value := by
  have hvalue : (ofRat q).value = mkRat q.num.natAbs q.den := by
    unfold ofRat
    split
    · next h =>
      simp [value, numerator, denominator, Text.naturalOf_toDigits, h]
    · simp [value, numerator, denominator, Text.naturalOf_toDigits]
  rw [hvalue]
  split
  · next h =>
    have hn : (q.num.natAbs : Int) = -q.num := Int.ofNat_natAbs_of_nonpos (Rat.num_neg.mpr h).le
    rw [hn, ← Rat.neg_mkRat, Rat.mkRat_self, neg_neg]
  · next h =>
    have hn : (q.num.natAbs : Int) = q.num :=
      Int.natAbs_of_nonneg (Rat.num_nonneg.mpr (not_lt.mp h))
    rw [hn, Rat.mkRat_self]

/-- A rational is written as the numeral of its absolute value, with a minus sign if it is
negative. -/
theorem ratSpelling_eq (q : Rat)
    : Literal.ratSpelling q
      = if q < 0 then '-' :: (ofRat q).spelling else (ofRat q).spelling := by
  have hsign : q.num < 0 ↔ q < 0 := Rat.num_neg
  unfold Literal.ratSpelling Literal.integerSpelling ofRat
  split <;> simp only [hsign] <;> split <;> simp [spelling]

end Numeral

-----------------------------------------------------------------------------------------
-- Constants that are written as a numeral
-----------------------------------------------------------------------------------------

/-- A constant is readable if it is written as some readable numeral of its value. -/
theorem Literal.isReadable_of_written {literal : Literal} {n : Numeral} (negative : Bool)
    (hn : n.IsReadable)
    (hw : literal.written = if negative then '-' :: n.spelling else n.spelling)
    (hv : literal.value = if negative then -n.value else n.value)
    : literal.IsReadable ∧ literal.isSigned = negative ∧ literal.numeral = n := by
  obtain ⟨c, digits, hs, hc⟩ := Token.spelling_eq_cons hn
  have hne : c ≠ '-' := Text.ne_of_class hc rfl
  have hsigned : literal.isSigned = negative := by
    cases negative <;> simp [Literal.isSigned, hw, hs, hne]
  have hread : (Token.readNumeral true n.spelling).1 = n := by
    have hread : Token.readNumeral true (n.spelling ++ []) = (n, []) :=
      Token.readNumeral_append hn rfl rfl
    rw [List.append_nil] at hread
    rw [hread]
  have hnumeral : literal.numeral = n := by
    rw [Literal.numeral, hsigned, hw]
    cases negative <;> exact hread
  refine ⟨⟨?_, ?_, ?_⟩, hsigned, hnumeral⟩
  · rw [hnumeral]
    exact hn
  · rw [hsigned, hnumeral]
    exact hw
  · rw [hsigned, hnumeral]
    exact hv

/-- A constant without a text is readable, with a sign exactly if it is negative. -/
theorem Literal.isReadable_of_text_eq_none {literal : Literal} (h : literal.text = none)
    : literal.IsReadable ∧ literal.isSigned = decide (literal.value < 0)
      ∧ literal.numeral = .ofRat literal.value := by
  have hw : literal.written = Literal.ratSpelling literal.value := by
    simp [Literal.written, h]
  exact isReadable_of_written (decide (literal.value < 0))
    (Numeral.ofRat_readable literal.value)
    (by simpa using hw.trans (Numeral.ratSpelling_eq literal.value))
    (by simpa using Numeral.ofRat_value literal.value)

-----------------------------------------------------------------------------------------
-- Signs of numerals
-----------------------------------------------------------------------------------------

/-- A numeral has no sign, so changing its sign puts one in front. -/
theorem Literal.toggleSign_spelling {n : Numeral} (h : n.IsReadable)
    : toggleSign n.spelling = '-' :: n.spelling := by
  obtain ⟨c, rest, hs, hc⟩ := Token.spelling_eq_cons h
  have hne : c ≠ '-' := Text.ne_of_class hc rfl
  rw [hs]
  unfold toggleSign
  split
  · next h => exact absurd (List.cons.inj h).1 hne
  · rfl

/-- Changing the sign of a numeral twice leaves it as it was. -/
theorem Literal.opposite_opposite_ofNumeral {n : Numeral} (h : n.IsReadable)
    : (Literal.ofNumeral n).opposite.opposite = .ofNumeral n := by
  have htwice : toggleSign ('-' :: n.spelling) = n.spelling := rfl
  simp [ofNumeral, opposite, toggleSign_spelling h, htwice]

end TermGrouping
