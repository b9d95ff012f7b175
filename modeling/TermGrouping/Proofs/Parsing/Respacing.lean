import TermGrouping.Proofs.Parsing.Grammar
import TermGrouping.Proofs.Parsing.Replacement

/-! Spacing between tokens. The tokens of a text are read again where spacing between them is put
in, lengthened or exchanged, as long as none of it is dropped altogether; so a formula stays the
same formula.
-/

namespace TermGrouping

/-- Spacing that may stand in the place of other spacing: any where there was none, and some where
there was some. -/
structure Text.Respaces (wide gap : List Char) : Prop where
  spacing_gap : ∀ c ∈ gap, Text.isSpacing c = true
  spacing_wide : ∀ c ∈ wide, Text.isSpacing c = true
  kept : gap ≠ [] → wide ≠ []

/-- Texts of the same tokens with spacing before, between and behind them; that of the first text is
respaced in the second one. -/
inductive Respaced : List Token → List Char → List Char → Prop where
  | nil {gap wide} : Text.Respaces wide gap → Respaced [] gap wide
  | cons {gap wide token tokens rest other}
    : Text.Respaces wide gap → Respaced tokens rest other
      → Respaced (token :: tokens) (gap ++ (token.spelling ++ rest))
          (wide ++ (token.spelling ++ other))

-----------------------------------------------------------------------------------------
-- Tokens of a text
-----------------------------------------------------------------------------------------

/-- Every token of a text matches its terminal in front of some rest. -/
theorem Tokenised.forall_fits {before tokens : List Token} {text : List Char}
    (h : Tokenised before text tokens)
    : ∀ token ∈ tokens, ∃ rest, token.Fits rest := by
  induction h with
  | nil => exact List.forall_mem_nil _
  | spacing _ _ ih => exact ih
  | token hnext _ ih => exact List.forall_mem_cons.mpr ⟨⟨_, hnext.fits⟩, ih⟩

/-- Spacing in front of a text does not change its tokens, by induction over the spacing. -/
theorem tokenised_spacing_append {before tokens : List Token} {spacing text : List Char}
    (hs : ∀ c ∈ spacing, Text.isSpacing c = true)
    : Tokenised before (spacing ++ text) tokens ↔ Tokenised before text tokens := by
  induction spacing with
  | nil => rfl
  | cons c spacing ih =>
      obtain ⟨hc, hspacing⟩ := List.forall_mem_cons.mp hs
      rw [← ih hspacing]
      refine ⟨fun h => ?_, .spacing hc⟩
      cases h with
      | spacing _ h => exact h
      | token hnext => cases hc.symm.trans hnext.isSpacing_eq_false

/-- Behind its first token a text consists of the others. -/
theorem Tokenised.of_spelling {before tokens : List Token} {rest : List Char} {token : Token}
    (h : Tokenised before (token.spelling ++ rest) (token :: tokens))
    : Token.IsNext before (token.spelling ++ rest) token rest
      ∧ Tokenised (token :: before) rest tokens := by
  obtain ⟨_, hfits⟩ := h.forall_fits token List.mem_cons_self
  obtain ⟨c, tail, hs, hblank⟩ := hfits.spelling_eq_cons
  generalize htext : token.spelling ++ rest = text at h
  cases h with
  | spacing hc =>
      rw [hs] at htext
      cases htext
      cases hblank.symm.trans (Text.isBlank_of_isSpacing hc)
  | token hnext h =>
      obtain rfl := List.append_cancel_left (htext.trans hnext.split.symm)
      exact ⟨htext ▸ hnext, h⟩

-----------------------------------------------------------------------------------------
-- Respaced texts have the same tokens
-----------------------------------------------------------------------------------------

/-- What comes first behind spacing is a bracket or none, whatever stands behind it. -/
theorem Token.Fits.bracketFollows_eq {token : Token} {tail : List Char} (h : token.Fits tail)
    (rest other : List Char)
    : bracketFollows (token.spelling ++ other) = bracketFollows (token.spelling ++ rest) := by
  obtain ⟨c, letters, hs, hblank⟩ := h.spelling_eq_cons
  rw [hs, List.cons_append, List.cons_append, bracketFollows_cons hblank,
    bracketFollows_cons hblank]

/-- New spacing can replace the old behind a token, because it keeps the next character apart and
hides no bracket. -/
theorem Text.Respaces.canReplace {gap wide rest other : List Char} (h : Text.Respaces wide gap)
    (hwide : wide ≠ []) (hbracket : Token.bracketFollows other = Token.bracketFollows rest)
    : Text.CanReplace (wide ++ other) (gap ++ rest) where
  apart := by
    obtain ⟨c, spacing, rfl⟩ := List.exists_cons_of_ne_nil hwide
    simpa using Text.continuesToken_of_isSpacing (h.spacing_wide c List.mem_cons_self)
  bracket := by
    rw [Token.bracketFollows_spacing h.spacing_wide, Token.bracketFollows_spacing h.spacing_gap,
      hbracket]

/-- A respaced text is the text up to a place from where on it can replace it behind a token: the
first place where there is spacing in it. -/
theorem Respaced.exists_canReplace {tokens : List Token} {text wider : List Char}
    (h : Respaced tokens text wider) (hfits : ∀ token ∈ tokens, ∃ rest, token.Fits rest)
    : ∃ front rest other,
        text = front ++ rest ∧ wider = front ++ other ∧ Text.CanReplace other rest := by
  induction h with
  | @nil gap wide hgap =>
      refine ⟨[], gap, wide, rfl, rfl, ?_⟩
      by_cases hwide : wide = []
      · have hnone : gap = [] := by_contra fun hne => hgap.kept hne hwide
        subst hwide hnone
        exact ⟨rfl, rfl⟩
      · have hreplace : Text.CanReplace (wide ++ []) (gap ++ []) := hgap.canReplace hwide rfl
        rwa [List.append_nil, List.append_nil] at hreplace
  | @cons gap wide token tokens rest other hgap _ ih =>
      obtain ⟨⟨_, htoken⟩, hfits⟩ := List.forall_mem_cons.mp hfits
      by_cases hwide : wide = []
      · have hnone : gap = [] := by_contra fun hne => hgap.kept hne hwide
        subst hwide hnone
        obtain ⟨front, rest, other, rfl, rfl, hreplace⟩ := ih hfits
        exact ⟨token.spelling ++ front, rest, other, by simp, by simp, hreplace⟩
      · exact ⟨[], _, _, rfl, rfl, hgap.canReplace hwide (htoken.bracketFollows_eq rest other)⟩

/-- A respaced text consists of the tokens of the text, because each of them is read up to the same
character. -/
theorem Tokenised.respaced {before tokens : List Token} {text wider : List Char}
    (hr : Respaced tokens text wider) (h : Tokenised before text tokens)
    : Tokenised before wider tokens := by
  induction hr generalizing before with
  | @nil gap wide hgap =>
      have hwide : Tokenised before (wide ++ []) [] :=
        (tokenised_spacing_append hgap.spacing_wide).mpr (.nil before)
      rwa [List.append_nil] at hwide
  | cons hgap hr ih =>
      obtain ⟨hnext, hrest⟩ := ((tokenised_spacing_append hgap.spacing_gap).mp h).of_spelling
      obtain ⟨front, rest, other, rfl, rfl, hreplace⟩ := hr.exists_canReplace hrest.forall_fits
      have hreread := Tokenised.token (hnext.replaced hreplace) (ih hrest)
      exact (tokenised_spacing_append hgap.spacing_wide).mpr hreread

theorem Text.respaces_self {gap : List Char} (h : ∀ c ∈ gap, Text.isSpacing c = true)
    : Text.Respaces gap gap :=
  ⟨h, h, id⟩

theorem Respaced.spacing {tokens : List Token} {text wider : List Char} {c : Char}
    (hc : Text.isSpacing c = true) (h : Respaced tokens text wider)
    : Respaced tokens (c :: text) (c :: wider) := by
  have hgap {gap wide : List Char} (h : Text.Respaces wide gap)
      : Text.Respaces (c :: wide) (c :: gap) :=
    ⟨List.forall_mem_cons.mpr ⟨hc, h.spacing_gap⟩, List.forall_mem_cons.mpr ⟨hc, h.spacing_wide⟩,
      fun _ => List.cons_ne_nil c _⟩
  cases h with
  | nil h => exact .nil (hgap h)
  | cons h hrest => exact .cons (hgap h) hrest

/-- A text that consists of tokens is one of them with spacing between them, as it stands. -/
theorem Tokenised.respaced_self {before tokens : List Token} {text : List Char}
    (h : Tokenised before text tokens)
    : Respaced tokens text text := by
  have hnone := Text.respaces_self (List.forall_mem_nil fun c => Text.isSpacing c = true)
  induction h with
  | nil => exact .nil hnone
  | spacing hc _ ih => exact .spacing hc ih
  | token hnext _ ih =>
      rw [← hnext.split]
      exact .cons hnone ih

/-- The text of a formula consists of tokens with spacing between them. Whatever spacing is put in,
lengthened or exchanged there, the formula stays the same in every attribute. -/
theorem parse_respaced {text : String} {e : Expr} (h : parse text = .ok e)
    : Respaced (Scan.ofText text.toList).tokens text.toList text.toList
      ∧ ∀ wider : String,
          Respaced (Scan.ofText text.toList).tokens text.toList wider.toList
          → parse wider = .ok e := by
  obtain ⟨tokens, hlexes, hd, hdefined⟩ := parse_eq_ok_iff.mp h
  obtain ⟨rfl, -⟩ := (Scan.lexes_iff 0).mp hlexes
  have hwords : Tokenised [] text.toList (Scan.ofText text.toList).tokens :=
    lexes_iff_tokenised.mp hlexes
  refine ⟨hwords.respaced_self, fun wider hr => ?_⟩
  exact parse_eq_ok_iff.mpr ⟨_, lexes_iff_tokenised.mpr (hwords.respaced hr), hd, hdefined⟩

/-- Spacing of all kinds inside an exponent and around the slash behind it: neither does it make a
fraction of the slash, nor does the sign leave the exponent. -/
theorem parse_respaced_exponent
    : let e := Expr.product [
        .quotient
          (.power (.constant ⟨2, false, some "2"⟩) (.constant ⟨-1, false, some "-1"⟩))
          (.constant ⟨3, false, some "3"⟩),
        .symbol "y"] true
      parse "2^-1/3 y" = .ok e
      ∧ Respaced (Scan.ofText "2^-1/3 y".toList).tokens "2^-1/3 y".toList
          "2^ -\t1\n/3\r\n y ".toList
      ∧ parse "2^ -\t1\n/3\r\n y " = .ok e := by
  intro e
  have h : parse "2^-1/3 y" = .ok e := by
    unfold e
    cbv
  have htokens : (Scan.ofText "2^-1/3 y".toList).tokens
      = [.numeral (.decimal ['2'] []), .caret, .sign .minus, .numeral (.decimal ['1'] []), .slash,
          .numeral (.decimal ['3'] []), .symbol 'y'] := by
    cbv
  have hgap {gap wide : List Char} (hspacing : (gap ++ wide).all Text.isSpacing = true)
      (hkept : gap ≠ [] → wide ≠ [])
      : Text.Respaces wide gap := by
    obtain ⟨hold, hnew⟩ := List.forall_mem_append.mp (List.all_eq_true.mp hspacing)
    exact ⟨hold, hnew, hkept⟩
  have hnone : Text.Respaces [] [] := hgap rfl id
  have hr : Respaced (Scan.ofText "2^-1/3 y".toList).tokens "2^-1/3 y".toList
      "2^ -\t1\n/3\r\n y ".toList := by
    rw [htokens]
    refine .cons hnone (.cons hnone ?_)
    refine @Respaced.cons [] [' '] _ _ _ _ (hgap rfl (by simp)) ?_
    refine @Respaced.cons [] ['\t'] _ _ _ _ (hgap rfl (by simp)) ?_
    refine @Respaced.cons [] ['\n'] _ _ _ _ (hgap rfl (by simp)) ?_
    refine .cons hnone ?_
    refine @Respaced.cons [' '] ['\r', '\n', ' '] _ _ _ _ (hgap rfl (by simp)) ?_
    exact @Respaced.nil [] [' '] (hgap rfl (by simp))
  exact ⟨h, hr, (parse_respaced h).2 _ hr⟩

end TermGrouping
