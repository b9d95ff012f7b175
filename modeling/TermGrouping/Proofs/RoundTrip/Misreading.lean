import TermGrouping.Proofs.RoundTrip.Merging
import TermGrouping.Proofs.RoundTrip.Spacing
import TermGrouping.Proofs.RoundTrip.Trace

/-! Texts that are misread leave another trace. Where tokens of a written form do not stand apart,
the first token that is read wrongly leaves a mark that the tree has not, or leaves a slash behind
that is counted once more.
-/

namespace TermGrouping

namespace Lexes

variable {fractionAllowed : Bool} {tokens : List Token}

theorem of_spacing {c : Char} {text : List Char} (hc : Text.isSpacing c = true)
    (h : Lexes fractionAllowed (c :: text) tokens)
    : Lexes fractionAllowed text tokens := by
  cases h with
  | spacing _ h => exact h
  | token hc' _ _ => simp [hc] at hc'

/-- A text is read from its first token on: what is left is a reading of the rest. -/
theorem of_token {c : Char} {text rest : List Char} {token : Token}
    (hc : Text.isSpacing c = false)
    (hread : Token.read? fractionAllowed (c :: text) = some (token, rest))
    (h : Lexes fractionAllowed (c :: text) tokens)
    : ∃ others, tokens = token :: others
      ∧ Lexes (token.fractionAfter fractionAllowed) rest others := by
  cases h with
  | spacing hc' _ => simp [hc] at hc'
  | token _ hread' h =>
      obtain ⟨rfl, rfl⟩ := Prod.mk.inj (Option.some.inj (hread.symm.trans hread'))
      exact ⟨_, rfl, h⟩

/-- A text that starts with no token has no reading. -/
theorem not_of_unreadable {c : Char} {text : List Char} (hc : Text.isSpacing c = false)
    (hread : Token.read? fractionAllowed (c :: text) = none)
    : ¬ Lexes fractionAllowed (c :: text) tokens := by
  intro h
  cases h with
  | spacing hc' _ => simp [hc] at hc'
  | token _ hread' _ => simp [hread] at hread'

/-- The spelling of a token, if it is read as such, is the first token of every reading. -/
theorem of_spelling {text : List Char} {token : Token} (ht : token.IsReadable)
    (hread : Token.read? fractionAllowed (token.spelling ++ text) = some (token, text))
    (h : Lexes fractionAllowed (token.spelling ++ text) tokens)
    : ∃ others, tokens = token :: others
      ∧ Lexes (token.fractionAfter fractionAllowed) text others := by
  obtain ⟨c, rest, hs, hc⟩ := Token.spelling_not_spacing ht
  rw [hs, List.cons_append] at hread h
  exact h.of_token hc hread

/-- The numeral in front of a text is the first token of every reading. -/
theorem of_numeral {text rest : List Char} {n : Numeral}
    (hd : text.head?.any Text.isDigit = true)
    (hread : Token.readNumeral fractionAllowed text = (n, rest))
    (h : Lexes fractionAllowed text tokens)
    : ∃ others, tokens = .numeral n :: others ∧ Lexes true rest others := by
  cases text with
  | nil => simp at hd
  | cons c text =>
      have hc : Text.isDigit c = true := by simpa using hd
      exact h.of_token (Text.isSpacing_of_isDigit hc) (by simp [Token.read?, hc, hread])

/-- A token that stands apart comes first among the tokens of its text. -/
theorem of_printed {token : Token} {rest : List Token} (ht : token.IsReadable)
    (hr : ∀ token ∈ rest, token.IsReadable)
    (hf : (fractionAllowed || !token.isFraction) = true) (ha : token.standsApart rest = true)
    (h : Lexes fractionAllowed ((token :: rest).flatMap Token.printed) tokens)
    : ∃ others, tokens = token :: others
      ∧ Lexes (token.fractionAfter fractionAllowed) (rest.flatMap Token.printed) others := by
  have hword : Lexes fractionAllowed (token.spelling ++ rest.flatMap Token.printed) tokens
      → ∃ others, tokens = token :: others
        ∧ Lexes (token.fractionAfter fractionAllowed) (rest.flatMap Token.printed) others :=
    fun h => h.of_spelling ht (Token.read?_printed ht hr hf ha)
  have hspaced {c : Char} (hc : Text.isSpacing c = false)
      (hread : ∀ text, Token.read? fractionAllowed (c :: text) = some (token, text))
      (h : Lexes fractionAllowed (c :: ' ' :: rest.flatMap Token.printed) tokens)
      : ∃ others, tokens = token :: others
        ∧ Lexes (token.fractionAfter fractionAllowed) (rest.flatMap Token.printed) others := by
    obtain ⟨others, htokens, h⟩ := h.of_token hc (hread _)
    exact ⟨others, htokens, h.of_spacing rfl⟩
  cases token with
  | numeral | symbol | callee | caret | opening | closing => exact hword h
  | sign value =>
      cases value with
      | plus => exact hspaced rfl (fun _ => rfl) (h.of_spacing rfl)
      | minus => exact hword h
  | times | slash => exact hspaced rfl (fun _ => rfl) (h.of_spacing rfl)
  | comma => exact hspaced rfl (fun _ => rfl) h

end Lexes

-----------------------------------------------------------------------------------------
-- Slashes that belong to no fraction
-----------------------------------------------------------------------------------------

namespace Text

/-- The number of slashes that follow a space. The flag says whether a space comes before the
text. -/
def looseSlashes : Bool → List Char → Nat
  | _, [] => 0
  | spaced, c :: rest =>
      (if spaced && c == '/' then 1 else 0) + looseSlashes (c == ' ') rest

theorem looseSlashes_le (spaced : Bool) (text : List Char)
    : looseSlashes spaced text ≤ looseSlashes true text := by
  cases text with
  | nil => exact Nat.le_refl 0
  | cons c rest => cases spaced <;> simp [looseSlashes]

/-- A word in front of a text hides a space before it. -/
theorem looseSlashes_append {word : List Char} (text : List Char)
    (h : ∀ c ∈ word, c ≠ ' ')
    : looseSlashes false (word ++ text) = looseSlashes false text := by
  induction word with
  | nil => rfl
  | cons c word ih =>
      obtain ⟨hc, hword⟩ := List.forall_mem_cons.mp h
      simp [looseSlashes, beq_false_of_ne hc, ih hword]

end Text

namespace Token

/-- No token is spelled with a space, by cases on the token. -/
theorem spelling_no_space {token : Token} (h : token.IsReadable)
    : ∀ c ∈ token.spelling, c ≠ ' ' := by
  have hdigit {c : Char} (hc : Text.isDigit c = true) : c ≠ ' ' := Text.ne_of_class hc rfl
  have hletter {c : Char} (hc : Text.isLetter c = true) : c ≠ ' ' := Text.ne_of_class hc rfl
  cases token with
  | numeral n =>
      cases n with
      | decimal whole places =>
          obtain ⟨hw, hp⟩ := List.forall_mem_append.mp h.2
          cases places with
          | nil => exact fun c hc => hdigit (hw c hc)
          | cons d places =>
              exact List.forall_mem_append.mpr ⟨fun c hc => hdigit (hw c hc),
                List.forall_mem_cons.mpr ⟨by decide, fun c hc => hdigit (hp c hc)⟩⟩
      | fraction numerator denominator =>
          obtain ⟨hn, hd⟩ := List.forall_mem_append.mp h.2.2.1
          exact List.forall_mem_append.mpr ⟨fun c hc => hdigit (hn c hc),
            List.forall_mem_cons.mpr ⟨by decide, fun c hc => hdigit (hd c hc)⟩⟩
  | symbol letter => exact List.forall_mem_singleton.mpr (hletter h)
  | callee name => exact fun c hc => hletter (h.2 c hc)
  | sign value => cases value <;> simp [spelling]
  | times | slash | caret | opening | closing | comma => simp [spelling]

/-- Only the token of a slash starts with one. -/
theorem looseSlashes_spelling {token : Token} (h : token.IsReadable) (hs : token ≠ slash)
    (spaced : Bool) (text : List Char)
    : Text.looseSlashes spaced (token.spelling ++ text) = Text.looseSlashes false text := by
  obtain ⟨c, rest, hspelling, hc⟩ : ∃ c rest, token.spelling = c :: rest ∧ c ≠ '/' := by
    cases token with
    | numeral n =>
        obtain ⟨c, rest, hspelling, hc⟩ := spelling_eq_cons h
        exact ⟨c, rest, hspelling, Text.ne_of_class hc rfl⟩
    | symbol | callee =>
        obtain ⟨c, rest, hspelling, hc⟩ := spelling_of_isWord h rfl
        exact ⟨c, rest, hspelling, Text.ne_of_class hc rfl⟩
    | slash => exact absurd rfl hs
    | sign value => cases value <;> exact ⟨_, _, rfl, by decide⟩
    | times | caret | opening | closing | comma => exact ⟨_, _, rfl, by decide⟩
  have hspaces := spelling_no_space h
  rw [hspelling] at hspaces ⊢
  obtain ⟨hspace, hrest⟩ := List.forall_mem_cons.mp hspaces
  simp [Text.looseSlashes, hc, beq_false_of_ne hspace, Text.looseSlashes_append text hrest]

/-- Printed tokens hold a loose slash for each token of a slash. -/
theorem count_slash_le {tokens : List Token} (h : ∀ token ∈ tokens, token.IsReadable)
    (spaced : Bool)
    : tokens.count slash ≤ Text.looseSlashes spaced (tokens.flatMap printed) := by
  induction tokens generalizing spaced with
  | nil => exact Nat.zero_le _
  | cons token rest ih =>
      obtain ⟨ht, hrest⟩ := List.forall_mem_cons.mp h
      have hword (hs : token ≠ slash)
          : (token :: rest).count slash
            ≤ Text.looseSlashes spaced (token.spelling ++ rest.flatMap printed) := by
        rw [looseSlashes_spelling ht hs, List.count_cons_of_ne hs]
        exact ih hrest false
      cases token with
      | numeral | symbol | callee | caret | opening | closing => exact hword (by rintro ⟨⟩)
      | sign value =>
          cases value with
          | plus => simpa [printed, Text.looseSlashes] using ih hrest true
          | minus => exact hword (by rintro ⟨⟩)
      | times | comma => simpa [printed, Text.looseSlashes] using ih hrest true
      | slash =>
          have := ih hrest true
          simp [printed, Text.looseSlashes]
          omega

end Token

/-- In the tokens of a text, each loose slash is a token of its own. -/
theorem Lexes.looseSlashes_le {fractionAllowed : Bool} {text : List Char}
    {tokens : List Token} (h : Lexes fractionAllowed text tokens)
    (ht : ∀ token ∈ tokens, token.IsReadable)
    : Text.looseSlashes true text ≤ tokens.count .slash := by
  induction h with
  | nil => exact Nat.le_refl 0
  | @spacing _ c rest _ hc _ ih =>
      have hne : c ≠ '/' := Text.ne_of_class hc rfl
      have hrest := Text.looseSlashes_le (c == ' ') rest
      simpa [Text.looseSlashes, hne] using hrest.trans (ih ht)
  | @token _ c rest token remaining _ _ hread _ ih =>
      obtain ⟨htoken, htokens⟩ := List.forall_mem_cons.mp ht
      have hremaining := (Text.looseSlashes_le false remaining).trans (ih htokens)
      rw [← Token.read?_spelling hread]
      by_cases hs : token = .slash
      · subst hs
        simp [Token.spelling, Text.looseSlashes]
        omega
      · rw [Token.looseSlashes_spelling htoken hs, List.count_cons_of_ne hs]
        exact hremaining

-----------------------------------------------------------------------------------------
-- Marks of a run
-----------------------------------------------------------------------------------------

namespace Trace

/-- A token leaves all marks before it in place. -/
theorem prefix_step (s : Trace) (token : Token) : s.marks <+: (s.step token).marks := by
  cases token with
  | numeral n =>
      simp only [step, number]
      split
      · exact List.prefix_refl _
      · exact List.prefix_append _ _
  | symbol | callee | slash | caret => exact List.prefix_append _ _
  | sign | times | opening | closing | comma => exact List.prefix_refl _

/-- Marks are never taken back. -/
theorem prefix_foldl_step (s : Trace) (tokens : List Token)
    : s.marks <+: (tokens.foldl step s).marks := by
  induction tokens generalizing s with
  | nil => exact List.prefix_refl _
  | cons token rest ih => exact (prefix_step s token).trans (ih (s.step token))

/-- Every slash leaves its mark. -/
theorem count_slash (s : Trace) (tokens : List Token)
    : (tokens.foldl step s).marks.count .slash = s.marks.count .slash + tokens.count .slash := by
  induction tokens generalizing s with
  | nil => rfl
  | cons token rest ih =>
      rw [List.foldl_cons, ih]
      cases token with
      | numeral n =>
          simp only [step, number]
          split <;> simp [List.count_append]
      | symbol | callee | caret => simp [step, letter, mark, List.count_append]
      | slash =>
          simp [step, mark, List.count_append]
          omega
      | sign | times | opening | closing | comma => simp [step]

theorem number_marks (s : Trace) (value : Rat)
    : (s.number value).marks
      = s.marks ++ if |value| = 1 then [] else [.number |value|] := by
  rw [number]
  split <;> simp

/-- If one constant under a caret leaves the marks of two, the first of the two is a one. -/
theorem eq_one_of_prefix {s : Trace} {first second merged : Rat} {marks : List Mark}
    (hmerged : ((s.number merged).mark (.caret (some |merged|))).marks <+: marks)
    (htwo : (((s.number first).number second).mark (.caret (some |second|))).marks <+: marks)
    : |first| = 1 ∧ |merged| = |second| := by
  have hcomparable := List.prefix_or_prefix_of_prefix hmerged htwo
  simp only [mark, number_marks, List.append_assoc, List.prefix_append_right_inj] at hcomparable
  rcases hcomparable with h | h <;> by_cases hf : |first| = 1 <;>
    by_cases hs : |second| = 1 <;> by_cases hm : |merged| = 1 <;> simp_all

end Trace

-----------------------------------------------------------------------------------------
-- Ways to misread a token
-----------------------------------------------------------------------------------------

theorem count_slash_numeral (n : Numeral) (rest : List Token)
    : (Token.numeral n :: rest).count .slash = rest.count .slash := by
  simp

section Misread

variable {written others : List Token} {s : Trace}

/-- A slash that a numeral leaves behind is one more than the written tokens have. -/
theorem not_slash_left {n : Numeral} {rest : List Token} {digits : List Char}
    (hne : digits ≠ []) (hd : ∀ c ∈ digits, Text.isDigit c = true)
    (hr : ∀ token ∈ rest, token.IsReadable) (ho : ∀ token ∈ others, token.IsReadable)
    (h : Lexes true ('/' :: (digits ++ rest.flatMap Token.printed)) others)
    (hcount : written.count .slash = rest.count .slash)
    : (.numeral n :: others).foldl Trace.step s ≠ written.foldl Trace.step s := by
  obtain ⟨behind, rfl, hbehind⟩ := h.of_token rfl rfl
  have hinteger : (Token.numeral (.decimal digits [])).IsReadable := ⟨hne, by simpa using hd⟩
  have hloose : Text.looseSlashes true (digits ++ rest.flatMap Token.printed)
      = Text.looseSlashes false (rest.flatMap Token.printed) :=
    Token.looseSlashes_spelling hinteger nofun true _
  have hle := (Token.count_slash_le hr false).trans
    (hloose ▸ hbehind.looseSlashes_le (List.forall_mem_cons.mp ho).2)
  intro heq
  have hmarks := congrArg (fun s : Trace => s.marks.count .slash) heq
  simp only [Trace.count_slash, hcount, List.count_cons_self, count_slash_numeral] at hmarks
  omega

/-- A fraction where none may stand is read as an integer in front of a slash. -/
theorem not_refused {n : Numeral} {rest : List Token} (hn : n.IsReadable)
    (hf : n.isFraction = true) (hr : ∀ token ∈ rest, token.IsReadable)
    (ho : ∀ token ∈ others, token.IsReadable)
    (h : Lexes false ((.numeral n :: rest).flatMap Token.printed) others)
    : others.foldl Trace.step s ≠ (.numeral n :: rest).foldl Trace.step s := by
  cases n with
  | decimal => simp [Numeral.isFraction] at hf
  | fraction numerator denominator =>
      obtain ⟨hne, hne', hdigits, _⟩ := hn
      obtain ⟨hnumerator, hdenominator⟩ := List.forall_mem_append.mp hdigits
      have hread := Token.readNumeral_refused
        (denominator ++ rest.flatMap Token.printed) hnumerator
      have hprinted
          : (Token.numeral (.fraction numerator denominator) :: rest).flatMap Token.printed
            = numerator ++ '/' :: (denominator ++ rest.flatMap Token.printed) := by
        simp [Token.printed, Token.spelling, Numeral.spelling]
      rw [hprinted] at h
      have hhead : (numerator ++ '/' :: (denominator ++ rest.flatMap Token.printed)).head?.any
          Text.isDigit = true := by
        obtain ⟨c, digits, rfl⟩ := List.exists_cons_of_ne_nil hne
        simpa using hnumerator c (.head _)
      obtain ⟨behind, rfl, hbehind⟩ := h.of_numeral hhead hread
      exact not_slash_left hne' hdenominator hr (List.forall_mem_cons.mp ho).2 hbehind
        (count_slash_numeral _ _)

/-- Letters that are taken for a function leave no mark of a letter. -/
theorem not_function {letter : Char} {rest : List Token} (hl : Text.isLetter letter = true)
    (hr : ∀ token ∈ rest, token.IsReadable)
    (ha : (rest.head?.any Token.isWord && Token.reachesBracket rest) = true)
    {fractionAllowed : Bool}
    (h : Lexes fractionAllowed ((.symbol letter :: rest).flatMap Token.printed) others)
    : others.foldl Trace.step s ≠ (.symbol letter :: rest).foldl Trace.step s := by
  obtain ⟨name, behind, hread⟩ : ∃ name behind,
      Token.readCallee? (letter :: rest.flatMap Token.printed) = some (name, behind) := by
    rw [← Token.any_isLetter_printed hr, ← Token.bracketFollows_printed hr,
      Bool.and_eq_true] at ha
    obtain ⟨hhead, hbracket⟩ := ha
    have hlength : 1 ≤ ((rest.flatMap Token.printed).takeWhile Text.isLetter).length :=
      List.length_pos_iff.mpr (Token.takeWhile_ne_nil hhead)
    refine ⟨letter :: (rest.flatMap Token.printed).takeWhile Text.isLetter,
      (rest.flatMap Token.printed).dropWhile Text.isLetter, ?_⟩
    simp only [Token.readCallee?, List.takeWhile_cons, List.dropWhile_cons, hl, if_true,
      List.length_cons]
    rw [if_pos (by simp [hlength, hbracket])]
  have hfirst : Token.read? fractionAllowed (letter :: rest.flatMap Token.printed)
      = some (.callee name, behind) := by
    simp [Token.read?, Text.isDigit_of_isLetter hl, hl, hread]
  obtain ⟨tail, rfl, _⟩ := h.of_token (Text.isSpacing_of_isLetter hl) hfirst
  -- Marks are never taken back, so both first marks would stand at one place of one trace.
  intro heq
  have hfunction := Trace.prefix_foldl_step (s.mark .function) tail
  have hletter := Trace.prefix_foldl_step (s.letter (String.singleton letter)) rest
  simp only [List.foldl_cons, Trace.step] at heq
  rw [← heq] at hletter
  have hmarks := (List.prefix_of_prefix_length_le hfunction hletter
    (by simp [Trace.mark, Trace.letter])).eq_of_length (by simp [Trace.mark, Trace.letter])
  simp [Trace.mark, Trace.letter] at hmarks

/-- Numerals side by side are read as one, whose value shows at the caret behind it. -/
theorem not_merged {fractionAllowed : Bool} {first second : Numeral} {rest : List Token}
    (hfirst : first.IsReadable) (hsecond : second.IsReadable)
    (hf : (fractionAllowed || !first.isFraction) = true)
    (hr : ∀ token ∈ rest, token.IsReadable) (ho : ∀ token ∈ others, token.IsReadable)
    (h : Lexes fractionAllowed
      ((.numeral first :: .numeral second :: .caret :: rest).flatMap Token.printed) others)
    : others.foldl Trace.step s
      ≠ (.numeral first :: .numeral second :: .caret :: rest).foldl Trace.step s := by
  have hcaret : Text.continuesNumeral ('^' :: rest.flatMap Token.printed) = false := rfl
  have hmerged := merged_readNumeral hfirst hsecond hf hcaret
  have hprinted : (Token.numeral first :: .numeral second :: .caret :: rest).flatMap Token.printed
      = first.spelling ++ (second.spelling ++ '^' :: rest.flatMap Token.printed) := by
    simp [Token.printed, Token.spelling]
  have hhead : (first.spelling ++ (second.spelling ++ '^' :: rest.flatMap Token.printed)).head?.any
      Text.isDigit = true := by
    obtain ⟨c, digits, hs, hc⟩ := Token.spelling_eq_cons hfirst
    simp [hs, hc]
  rw [hprinted] at h
  generalize hread : Token.readNumeral fractionAllowed
    (first.spelling ++ (second.spelling ++ '^' :: rest.flatMap Token.printed)) = result at hmerged
  obtain ⟨tail, rfl, htail⟩ := h.of_numeral hhead hread
  cases hmerged with
  | whole n hvalue =>
      obtain ⟨behind, rfl, _⟩ := htail.of_token rfl rfl
      intro heq
      have heq : behind.foldl Trace.step ((s.number n.value).mark (.caret (some |n.value|)))
          = rest.foldl Trace.step
              (((s.number first.value).number second.value).mark (.caret (some |second.value|))) :=
        heq
      have htwo := Trace.prefix_foldl_step
        (((s.number first.value).number second.value).mark (.caret (some |second.value|))) rest
      rw [← heq] at htwo
      obtain ⟨hfirst', hsame⟩ :=
        Trace.eq_one_of_prefix (Trace.prefix_foldl_step _ behind) htwo
      rw [abs_of_nonneg first.value_nonneg] at hfirst'
      rw [abs_of_nonneg n.value_nonneg, abs_of_nonneg second.value_nonneg] at hsame
      exact hvalue hfirst' hsame
  | slash n digits hne hd =>
      have hcaret : ∀ token ∈ Token.caret :: rest, token.IsReadable :=
        List.forall_mem_cons.mpr ⟨trivial, hr⟩
      exact not_slash_left hne hd hcaret (List.forall_mem_cons.mp ho).2 htail (by simp)
  | point n rest => exact absurd htail (Lexes.not_of_unreadable rfl rfl)

end Misread

/-- Well-spaced tokens stand apart, if the tokens that their text is read as leave the same
trace. -/
theorem apart_of_foldl_step {fractionAllowed : Bool} {written others : List Token} {s : Trace}
    (hr : ∀ token ∈ written, token.IsReadable) (hw : Token.wellSpaced written = true)
    (ho : ∀ token ∈ others, token.IsReadable)
    (h : Lexes fractionAllowed (written.flatMap Token.printed) others)
    (htrace : others.foldl Trace.step s = written.foldl Trace.step s)
    : Token.fractionsFit fractionAllowed written = true ∧ Token.allApart written = true := by
  induction written generalizing fractionAllowed others s with
  | nil => exact ⟨rfl, rfl⟩
  | cons token rest ih =>
      obtain ⟨ht, hrest⟩ := List.forall_mem_cons.mp hr
      simp only [Token.wellSpaced, Bool.and_eq_true] at hw
      -- A first token that is misread would leave a mark that the written tokens do not leave.
      have hapart : (fractionAllowed || !token.isFraction) = true
          ∧ token.standsApart rest = true := by
        by_contra hmisread
        cases token with
        | numeral n =>
            by_cases hf : (fractionAllowed || !n.isFraction) = true
            · obtain ⟨second, rest, rfl⟩ : ∃ second behind, rest = .numeral second :: behind := by
                cases rest with
                | nil => exact absurd ⟨hf, rfl⟩ hmisread
                | cons next behind =>
                    cases next with
                    | numeral second => exact ⟨second, behind, rfl⟩
                    | _ => exact absurd ⟨hf, rfl⟩ hmisread
              obtain ⟨behind, rfl⟩ : ∃ behind, rest = .caret :: behind := by
                cases rest <;> simp_all [Token.canPrecede, Token.startsWithBase]
              obtain ⟨hsecond, hrest⟩ := List.forall_mem_cons.mp hrest
              exact not_merged ht hsecond hf (List.forall_mem_cons.mp hrest).2 ho h htrace
            · simp only [Bool.or_eq_true, Bool.not_eq_true', not_or, Bool.not_eq_true,
                Bool.not_eq_false] at hf
              rw [hf.1] at h
              exact not_refused ht hf.2 hrest ho h htrace
        | symbol letter =>
            have ha : (rest.head?.any Token.isWord && Token.reachesBracket rest) = true := by
              simpa [Token.standsApart, Token.isFraction] using hmisread
            exact not_function ht hrest ha h htrace
        | callee name => exact hmisread ⟨by simp [Token.isFraction], hw.1⟩
        | sign | times | slash | caret | opening | closing | comma =>
            exact hmisread ⟨by simp [Token.isFraction], rfl⟩
      obtain ⟨behind, rfl, hbehind⟩ := h.of_printed ht hrest hapart.1 hapart.2
      obtain ⟨hfit, hall⟩ := ih hrest hw.2 (List.forall_mem_cons.mp ho).2 hbehind htrace
      simp only [Token.fractionsFit, Token.allApart, hapart, hfit, hall, Bool.and_self,
        and_self]

end TermGrouping
