import TermGrouping.Proofs.Slashes.Loosened
import TermGrouping.Proofs.Slashes.Outlines
import TermGrouping.Proofs.Slashes.Unjoined

/-! What spacing around slashes decides. A formula stays one without it, if only it can still be cut
into tokens; and it keeps its value if the slashes that join digits are not those where the fraction
is divided by or raised as a whole.
-/

namespace TermGrouping

/-- No fraction is read where none is allowed. -/
theorem Lexes.fractionsFit {fractionAllowed : Bool} {text : List Char} {tokens : List Token}
    (h : Lexes fractionAllowed text tokens)
    : Token.fractionsFit fractionAllowed tokens = true := by
  induction h with
  | nil => rfl
  | spacing _ _ ih => exact ih
  | @token fractionAllowed _ _ token _ _ _ hread _ ih =>
      have hallowed : (fractionAllowed || !token.isFraction) = true := by
        cases fractionAllowed with
        | true => rfl
        | false =>
            have hfits := (Token.fits_of_read? hread).2 rfl
            cases token with
            | numeral digits => simpa [Token.isFraction] using hfits digits rfl
            | _ => rfl
      simp [Token.fractionsFit, hallowed, ih]

/-- The interpretation that divides also by zero. -/
def Interpretation.dividing (I : Interpretation) : Interpretation :=
  { I with quotient := (· / ·) }

/-- Where no denominator means zero, reading quotients as divisions leaves nothing open. -/
theorem Expr.meaning_dividing {I : Interpretation} (hI : I.Divides) {e : Expr}
    (h : e.HasNonzeroDenominators I)
    : e.meaning I.dividing = e.meaning I := by
  induction e using Expr.induct_children with
  | step e ih =>
      obtain ⟨hroot, hchildren⟩ := Expr.forall_subtrees.mp h
      have hmeaning : ∀ child ∈ e.children, child.meaning I.dividing = child.meaning I :=
        fun child hc => ih child hc (hchildren child hc)
      have hmap : e.children.map (meaning I.dividing) = e.children.map (meaning I) :=
        List.map_congr_left hmeaning
      cases e with
      | constant | symbol | foreign => rfl
      | sum operands => rw [meaning_sum, meaning_sum]; exact congrArg List.sum hmap
      | product operands implicit =>
          rw [meaning_product, meaning_product]
          exact congrArg List.prod hmap
      | group inner => exact hmeaning inner List.mem_cons_self
      | call name arguments =>
          simp only [meaning, meanings_eq_map]
          exact congrArg (I.call name) hmap
      | power base exponent =>
          have hbase := hmeaning base (by simp [children])
          have hexponent := hmeaning exponent (by simp [children])
          simp only [meaning, hbase, hexponent]
          rfl
      | quotient numerator denominator =>
          have hnumerator := hmeaning numerator (by simp [children])
          have hdenominator := hmeaning denominator (by simp [children])
          simp only [meaning, hnumerator, hdenominator]
          exact (hI _ _ (hroot numerator denominator rfl)).symm

/-- Without spacing beside slashes, a formula is accepted still if only its tokens can be read,
because their parts are those of the tokens that were accepted. -/
theorem exists_parse_tightened {text tight : String} {e : Expr} (h : parse text = .ok e)
    (ht : Tightened text.toList tight.toList)
    : (∃ f, parse tight = .ok f)
      ↔ (Scan.ofText tight.toList).isComplete = true
        ∧ AllDefined (Scan.ofText tight.toList).tokens := by
  obtain ⟨tokens, hlexes, he, hdefined⟩ := parse_eq_ok_iff.mp h
  constructor
  · rintro ⟨f, hf⟩
    obtain ⟨others, hlexes', _, hdefined'⟩ := parse_eq_ok_iff.mp hf
    obtain ⟨rfl, hstop⟩ := (Scan.lexes_iff 0).mp hlexes'
    exact ⟨Option.isNone_iff_eq_none.mpr hstop, hdefined'⟩
  · rintro ⟨hcomplete, hdefined'⟩
    have hlexes' := (Scan.lexes_iff 0).mpr ⟨rfl, Option.isNone_iff_eq_none.mp hcomplete⟩
    have hparts := hlexes.parts_eq_of_tightened ht hlexes'
    obtain ⟨f, hf⟩ : ∃ f, Derives .sum _ f := by
      rw [derives_parts_iff hlexes'.fractionsFit hdefined', hparts,
        ← derives_parts_iff hlexes.fractionsFit hdefined]
      exact ⟨e, he⟩
    exact ⟨f, parse_eq_ok_iff.mpr ⟨_, hlexes', hf, hdefined'⟩⟩

/-- A number with a decimal part loses its point to the fraction in front of it. -/
example : (Scan.ofText "2 / 3.5".toList).isComplete = true
    ∧ (Scan.ofText "2/3.5".toList).isComplete = false := by
  cbv

/-- Without spacing beside slashes, a formula is one still exactly if it can be cut into tokens that
are all defined; and it keeps its value wherever it keeps its tokens up to the fractions that may be
taken to pieces. -/
theorem parse_tightened {text tight : String} {e : Expr} (h : parse text = .ok e)
    (ht : Tightened text.toList tight.toList)
    : ((∃ f, parse tight = .ok f)
        ↔ (Scan.ofText tight.toList).isComplete = true
          ∧ AllDefined (Scan.ofText tight.toList).tokens)
      ∧ ∀ f,
          parse tight = .ok f
          → Token.loosened false (Scan.ofText tight.toList).tokens
            = Token.loosened false (Scan.ofText text.toList).tokens
          → ∀ I : Interpretation,
              I.Divides
              → e.HasNonzeroDenominators I
              → f.HasNonzeroDenominators I
              → f.meaning I = e.meaning I := by
  refine ⟨exists_parse_tightened h ht, fun f hf hloosened I hI he' hf' => ?_⟩
  obtain ⟨tokens, hlexes, he, _⟩ := parse_eq_ok_iff.mp h
  obtain ⟨others, hlexes', hf, _⟩ := parse_eq_ok_iff.mp hf
  obtain ⟨rfl, _⟩ := (Scan.lexes_iff 0).mp hlexes
  obtain ⟨rfl, _⟩ := (Scan.lexes_iff 0).mp hlexes'
  rw [← Expr.meaning_dividing hI he', ← Expr.meaning_dividing hI hf']
  exact he.meaning_eq_of_loosened (fun _ _ => rfl) hf hloosened

/-- In front of a factor, and in a sum, digits are divided by digits, joined or not; and a letter
joins nothing. -/
theorem parse_tightened_factors
    : let e := Expr.sum [
        .product [
          .quotient (.constant ⟨-1, false, some "-1"⟩) (.constant ⟨2, false, some "2"⟩),
          .symbol "x"] true,
        .quotient (.constant ⟨3, false, some "3"⟩) (.symbol "y")]
      let f := Expr.sum [
        .product [.constant ⟨-1 / 2, true, some "-1/2"⟩, .symbol "x"] true,
        .quotient (.constant ⟨3, false, some "3"⟩) (.symbol "y")]
      parse "-1 / 2 x + 3 /y" = .ok e
      ∧ parse "-1/2 x + 3/y" = .ok f
      ∧ ∀ I : Interpretation, I.Divides → I.symbol "y" ≠ 0 → f.meaning I = e.meaning I := by
  intro e f
  have he : parse "-1 / 2 x + 3 /y" = .ok e := by
    unfold e
    cbv
  have hf : parse "-1/2 x + 3/y" = .ok f := by
    unfold f
    cbv
  have hblank : ∀ c ∈ [' '], Text.isSpacing c = true := List.forall_mem_singleton.mpr rfl
  have ht : Tightened "-1 / 2 x + 3 /y".toList "-1/2 x + 3/y".toList :=
    (Tightened.before "-1".toList [' '] " 2 x + 3 /y".toList hblank).trans
      ((Tightened.behind "-1".toList [' '] "2 x + 3 /y".toList hblank).trans
        (.before "-1/2 x + 3".toList [' '] "y".toList hblank))
  have hloosened : Token.loosened false (Scan.ofText "-1/2 x + 3/y".toList).tokens
      = Token.loosened false (Scan.ofText "-1 / 2 x + 3 /y".toList).tokens := by
    cbv
  refine ⟨he, hf, fun I hI hy => (parse_tightened he ht).2 f hf hloosened I hI ?_ ?_⟩
  · simp [e, Expr.HasNonzeroDenominators, Expr.subtrees, Expr.subtreesAll, Expr.meaning, hy]
  · simp [f, Expr.HasNonzeroDenominators, Expr.subtrees, Expr.subtreesAll, Expr.meaning, hy]

/-- Without spacing, a quotient is no longer divided by the last number, but the first one by the
quotient of the others, which has another value. -/
theorem not_parse_tightened_divisors
    : let x := Expr.symbol "x"
      let e := Expr.quotient (.quotient x (.constant ⟨2, false, some "2"⟩))
        (.constant ⟨3, false, some "3"⟩)
      let f := Expr.quotient x (.constant ⟨2 / 3, true, some "2/3"⟩)
      let I : Interpretation := ⟨fun _ => 6, fun _ _ => 0, fun _ _ => 0, (· / ·)⟩
      parse "x / 2 / 3" = .ok e
      ∧ Tightened "x / 2 / 3".toList "x/2/3".toList
      ∧ parse "x/2/3" = .ok f
      ∧ I.Divides
      ∧ e.HasNonzeroDenominators I
      ∧ f.HasNonzeroDenominators I
      ∧ e.meaning I = 1
      ∧ f.meaning I = 9 := by
  intro x e f I
  have hblank : ∀ c ∈ [' '], Text.isSpacing c = true := List.forall_mem_singleton.mpr rfl
  have ht : Tightened "x / 2 / 3".toList "x/2/3".toList :=
    (Tightened.before "x".toList [' '] " 2 / 3".toList hblank).trans
      ((Tightened.behind "x".toList [' '] "2 / 3".toList hblank).trans
        ((Tightened.before "x/2".toList [' '] " 3".toList hblank).trans
          (.behind "x/2".toList [' '] "3".toList hblank)))
  refine ⟨?_, ht, ?_, fun _ _ _ => rfl, ?_, ?_, ?_, ?_⟩
  · unfold e x
    cbv
  · unfold f x
    cbv
  · simp [e, x, Expr.HasNonzeroDenominators, Expr.subtrees, Expr.meaning]
  · simp [f, x, Expr.HasNonzeroDenominators, Expr.subtrees, Expr.meaning]
  · norm_num [e, x, I, Expr.meaning]
  · norm_num [f, x, I, Expr.meaning]

end TermGrouping
