import TermGrouping.Proofs.Meaning.Coefficients
import TermGrouping.Proofs.Parsing.Completeness
import TermGrouping.Tightening

/-! Fractions that are taken to pieces. Where nothing divides by a fraction and nothing raises it, a
product can go on with the division instead, and means the same; so a derivation of a list of tokens
gives one of the loosened list.
-/

namespace TermGrouping

namespace Token

theorem loosened_nil (tied : Bool) : loosened tied [] = [] := rfl

theorem loosened_cons (tied : Bool) (token : Token) (rest : List Token)
    : loosened tied (token :: rest)
      = (if tied || rest.head? == some caret then [token] else token.parts)
        ++ loosened (token.tiesNext tied) rest :=
  rfl

theorem loosened_of_parts (tied : Bool) {token : Token} (h : token.parts = [token])
    (rest : List Token)
    : loosened tied (token :: rest) = token :: loosened (token.tiesNext tied) rest := by
  simp [loosened_cons, h]

/-- The pieces of two lists are the pieces of both together, unless a caret in the second one takes
a fraction at the end of the first one as its base. -/
theorem loosened_append (tied : Bool) {left right : List Token}
    (h : right.head? = some caret → ∀ token ∈ left.getLast?, token.parts = [token])
    : loosened tied (left ++ right)
      = loosened tied left ++ loosened (left.foldl tiesNext tied) right := by
  induction left generalizing tied with
  | nil => rfl
  | cons token left ih =>
      cases left with
      | nil =>
          simp only [List.singleton_append, loosened_cons, loosened_nil, List.foldl_cons,
            List.foldl_nil, List.append_nil, List.append_cancel_right_eq]
          by_cases hc : right.head? = some caret
          · simp [h hc token rfl]
          · simp [hc]
      | cons next left =>
          have ih' := ih (token.tiesNext tied) (by simpa using h)
          simp only [List.cons_append, List.foldl_cons] at ih' ⊢
          rw [loosened_cons, ih', loosened_cons tied token (next :: left), List.append_assoc]
          rfl

/-- Brackets take what is between them out of its surroundings. -/
theorem loosened_enclosed (tied : Bool) (tokens : List Token)
    : loosened tied (opening :: tokens ++ [closing])
      = opening :: loosened false tokens ++ [closing] := by
  rw [List.cons_append, loosened_of_parts tied rfl, loosened_append _ (by simp),
    loosened_of_parts _ rfl]
  rfl

def endsOperand : Token → Bool
  | numeral _ | symbol _ | closing => true
  | _ => false

end Token

/-- A part of a formula ends with an operand, which is no fraction if the part is an operand
itself. -/
theorem Derives.getLast?_endsOperand {category : Category} {tokens : List Token} {e : Expr}
    (h : Derives category tokens e)
    : ∃ token, tokens.getLast? = some token ∧ token.endsOperand = true
        ∧ (category = .operand → token.parts = [token]) := by
  induction h using Derives.induct fun _ _ => True with
  | term _ ih | factor _ ih | unsigned _ ih | base _ ih | exponentBase _ ih | atomOperand _ ih =>
      obtain ⟨token, hlast, hends, _⟩ := ih
      exact ⟨token, hlast, hends, nofun⟩
  | terms _ _ _ _ ih | times _ _ _ ih | dividedBy _ _ _ ih | beside _ _ _ ih | raised _ _ _ ih
    | exponentRaised _ _ _ ih | signed _ _ ih | exponentSigned _ _ ih =>
      obtain ⟨token, hlast, hends, _⟩ := ih
      refine ⟨token, ?_, hends, nofun⟩
      simp [List.getLast?_append, List.getLast?_cons, hlast]
  | fraction => exact ⟨_, rfl, rfl, nofun⟩
  | decimal | symbol => exact ⟨_, rfl, rfl, fun _ => rfl⟩
  | call | group =>
      exact ⟨.closing, List.getLast?_eq_some_iff.mpr ⟨_, rfl⟩, rfl, fun _ => rfl⟩
  | one | more => trivial

/-- Behind a part of a formula nothing is tied. -/
theorem Derives.loosened_append {category : Category} {left right : List Token} {e : Expr}
    (h : Derives category left e) (hr : right.head? = some .caret → category = .operand)
    (tied : Bool)
    : Token.loosened tied (left ++ right)
      = Token.loosened tied left ++ Token.loosened false right := by
  obtain ⟨token, hlast, hends, hoperand⟩ := h.getLast?_endsOperand
  have hfree : left.foldl Token.tiesNext tied = false := by
    obtain ⟨init, rfl⟩ := List.getLast?_eq_some_iff.mp hlast
    cases token with
    | numeral | symbol | closing => simp [Token.tiesNext]
    | callee | sign | times | slash | caret | opening | comma => cases hends
  rw [Token.loosened_append tied, hfree]
  intro hc last hmem
  cases hlast.symm.trans hmem
  exact hoperand (hr hc)

/-- An operator behind a part of a formula is a piece of its own. -/
theorem Derives.loosened_operator {category : Category} {left : List Token} {e : Expr}
    (h : Derives category left e) (token : Token) (ht : token.parts = [token])
    (hc : token = .caret → category = .operand) (right : List Token) (tied : Bool)
    : Token.loosened tied (left ++ token :: right)
      = Token.loosened tied left ++ token :: Token.loosened (token.tiesNext false) right := by
  rw [h.loosened_append (by simpa using hc), Token.loosened_of_parts _ ht]

/-- A factor that is written beside another one does not start with a caret. -/
theorem Derives.head?_ne_caret {tokens : List Token} {e : Expr} (h : Derives .power tokens e)
    : tokens.head? ≠ some .caret := by
  obtain ⟨token, rest, rfl, ht⟩ := h.starts_operand (.inr (.inr rfl))
  rintro hc
  cases hc
  cases ht

-----------------------------------------------------------------------------------------
-- Tokens that mean a value
-----------------------------------------------------------------------------------------

def Sign.unit : Sign → Rat
  | plus => 1
  | minus => -1

/-- A term under its sign means the unit of the sign times the term. -/
theorem meaning_apply (I : Interpretation) (sign : Sign) (e : Expr)
    : (sign.apply e).meaning I = sign.unit * e.meaning I := by
  cases sign with
  | plus => exact (one_mul _).symm
  | minus =>
      rw [Sign.apply, Expr.meaning_opposite, Sign.unit, neg_one_mul]

/-- Whether tokens can be derived in a category, as a tree that means the given value. -/
def Means (I : Interpretation) (category : Category) (tokens : List Token) (value : Rat) : Prop :=
  ∃ e, Derives category tokens e ∧ e.meaning I = value

namespace Means

variable {I : Interpretation} {left right : List Token} {a b : Rat}

theorem terms (sign : Sign) (hl : Means I .sum left a) (hr : Means I .product right b)
    : Means I .sum (left ++ .sign sign :: right) (a + sign.unit * b) := by
  obtain ⟨e, he, rfl⟩ := hl
  obtain ⟨f, hf, rfl⟩ := hr
  exact ⟨_, .terms sign he hf, by simp [Expr.meaning_sum, meaning_apply]⟩

theorem times (hl : Means I .product left a) (hr : Means I .unary right b)
    : Means I .product (left ++ .times :: right) (a * b) := by
  obtain ⟨e, he, rfl⟩ := hl
  obtain ⟨f, hf, rfl⟩ := hr
  exact ⟨_, .times he hf, by simp [Expr.meaning_product]⟩

theorem dividedBy (hl : Means I .product left a) (hr : Means I .unary right b)
    : Means I .product (left ++ .slash :: right) (I.quotient a b) := by
  obtain ⟨e, he, rfl⟩ := hl
  obtain ⟨f, hf, rfl⟩ := hr
  exact ⟨_, .dividedBy he hf, rfl⟩

theorem beside (hl : Means I .product left a) (hr : Means I .power right b)
    : Means I .product (left ++ right) (a * b) := by
  obtain ⟨e, he, rfl⟩ := hl
  obtain ⟨f, hf, rfl⟩ := hr
  exact ⟨_, .beside he hf, by simp [Expr.meaning_product]⟩

theorem factor (h : Means I .unary left a) : Means I .product left a := by
  obtain ⟨e, he, rfl⟩ := h
  exact ⟨e, .factor he, rfl⟩

theorem unsigned (h : Means I .power left a) : Means I .unary left a := by
  obtain ⟨e, he, rfl⟩ := h
  exact ⟨e, .unsigned he, rfl⟩

theorem signed (sign : Sign) (h : Means I .unary left a)
    : Means I .unary (.sign sign :: left) (sign.unit * a) := by
  obtain ⟨e, he, rfl⟩ := h
  exact ⟨_, .signed sign he, meaning_apply I sign e⟩

end Means

/-- Whether tokens mean a value as a power or as a factor with signs. Where they are not tied, they
may also be such a part with a divisor behind it. -/
def MeansDivided (I : Interpretation) (category : Category) (tied : Bool) (tokens : List Token)
    (value : Rat)
    : Prop :=
  Means I category tokens value
  ∨ tied = false
    ∧ ∃ left right a b,
        tokens = left ++ .slash :: right
        ∧ Means I category left a
        ∧ Means I .unary right b
        ∧ value = a / b

namespace MeansDivided

variable {I : Interpretation} {left tokens : List Token} {a b : Rat} {tied : Bool}

theorem of_tied (h : MeansDivided I category true tokens a) : Means I category tokens a :=
  h.resolve_right fun h => Bool.false_ne_true h.1.symm

theorem unsigned (h : MeansDivided I .power tied tokens a)
    : MeansDivided I .unary tied tokens a := by
  rcases h with h | ⟨ht, left, right, a, b, rfl, hl, hr, rfl⟩
  · exact .inl h.unsigned
  · exact .inr ⟨ht, left, right, a, b, rfl, hl.unsigned, hr, rfl⟩

theorem signed (sign : Sign) (h : MeansDivided I .unary tied tokens a)
    : MeansDivided I .unary tied (.sign sign :: tokens) (sign.unit * a) := by
  rcases h with h | ⟨ht, left, right, a, b, rfl, hl, hr, rfl⟩
  · exact .inl (h.signed sign)
  · exact .inr ⟨ht, _, right, _, b, rfl, hl.signed sign, hr, (mul_div_assoc _ a b).symm⟩

/-- A divisor behind a factor is a divisor of the product up to that factor. -/
theorem attached (hI : ∀ a b, I.quotient a b = a / b)
    (hattach : ∀ {right b}, Means I category right b → Means I .product (left ++ right) (a * b))
    (h : MeansDivided I category tied tokens b)
    : Means I .product (left ++ tokens) (a * b) := by
  rcases h with h | ⟨_, inner, divisor, b, c, rfl, hinner, hdivisor, rfl⟩
  · exact hattach h
  · have hdivided := (hattach hinner).dividedBy hdivisor
    rwa [hI, mul_div_assoc, List.append_assoc] at hdivided

end MeansDivided

-----------------------------------------------------------------------------------------
-- Every derivation is loosened
-----------------------------------------------------------------------------------------

/-- Whether a part of a formula keeps its category and its meaning when it is loosened. -/
def Category.LoosensTo (I : Interpretation) (category : Category) (tokens : List Token) (e : Expr)
    : Prop :=
  match category with
  | .sum | .product => Means I category (Token.loosened false tokens) (e.meaning I)
  | .unary | .power =>
      ∀ tied, MeansDivided I category tied (Token.loosened tied tokens) (e.meaning I)
  | .exponent => Means I .exponent (Token.loosened true tokens) (e.meaning I)
  | .operand => ∀ tied, Means I .operand (Token.loosened tied tokens) (e.meaning I)
  | .atom =>
      (∃ numerator denominator,
        tokens = [.numeral (.fraction numerator denominator)]
        ∧ e = .constant (.ofNumeral (.fraction numerator denominator)))
      ∨ Derives .operand tokens e
        ∧ ∀ tied, Means I .operand (Token.loosened tied tokens) (e.meaning I)

/-- Whether arguments keep their meanings when they are loosened. -/
def ArgumentsLoosenTo (I : Interpretation) (tokens : List Token) (arguments : List Expr) : Prop :=
  ∃ es, DerivesArguments (Token.loosened false tokens) es
    ∧ es.map (·.meaning I) = arguments.map (·.meaning I)

/-- The value of a fraction is the quotient of the values of its parts. -/
theorem value_fraction (numerator denominator : List Char)
    : (Numeral.fraction numerator denominator).value
      = (Numeral.decimal numerator []).value / (Numeral.decimal denominator []).value := by
  simp [Numeral.value, Numeral.numerator, Numeral.denominator, Rat.mkRat_eq_div]

/-- The integers that a fraction is taken to pieces into mean their own values. -/
theorem means_decimal (I : Interpretation) (digits : List Char)
    : Means I .power [.numeral (.decimal digits [])] (Numeral.decimal digits []).value :=
  ⟨_, .base (.atomOperand (.decimal digits [])), rfl⟩

/-- A fraction with nothing behind it becomes a division, unless it is tied to what is before it. -/
theorem fraction_loosensTo (I : Interpretation) (numerator denominator : List Char)
    : Category.LoosensTo I .power [.numeral (.fraction numerator denominator)]
        (.constant (.ofNumeral (.fraction numerator denominator))) := by
  intro tied
  cases tied with
  | true => exact .inl ⟨_, .base (.fraction numerator denominator), rfl⟩
  | false =>
      exact .inr ⟨rfl, [_], [_], _, _, rfl, means_decimal I numerator,
        (means_decimal I denominator).unsigned, value_fraction numerator denominator⟩

variable {I : Interpretation}

theorem terms_loosensTo {left right : List Token} {a b : Expr} (sign : Sign)
    (hd : Derives .sum left a) (hl : Category.LoosensTo I .sum left a)
    (hr : Category.LoosensTo I .product right b)
    : Category.LoosensTo I .sum (left ++ .sign sign :: right) (.sum [a, sign.apply b]) := by
  have hterms := Means.terms sign hl hr
  simp only [Category.LoosensTo, hd.loosened_operator (.sign sign) rfl nofun]
  simpa [Expr.meaning_sum, meaning_apply, Token.tiesNext] using hterms

/-- A product with a star keeps its meaning; the right factor may bring a divisor of its own. -/
theorem times_loosensTo {left right : List Token} {a b : Expr} (hI : ∀ a b, I.quotient a b = a / b)
    (hd : Derives .product left a) (hl : Category.LoosensTo I .product left a)
    (hr : Category.LoosensTo I .unary right b)
    : Category.LoosensTo I .product (left ++ .times :: right) (.product [a, b] false) := by
  have hattach {right : List Token} {value : Rat} (h : Means I .unary right value)
      : Means I .product (Token.loosened false left ++ [.times] ++ right)
          (a.meaning I * value) := by
    simpa using Means.times hl h
  have htimes := MeansDivided.attached hI hattach (hr false)
  simp only [Category.LoosensTo, hd.loosened_operator .times rfl nofun]
  simpa [Expr.meaning_product, Token.tiesNext] using htimes

/-- A quotient keeps its meaning, because its divisor stays in one piece. -/
theorem dividedBy_loosensTo {left right : List Token} {a b : Expr}
    (hd : Derives .product left a) (hl : Category.LoosensTo I .product left a)
    (hr : Category.LoosensTo I .unary right b)
    : Category.LoosensTo I .product (left ++ .slash :: right) (.quotient a b) := by
  -- The divisor is tied by the slash, so it is not taken to pieces itself.
  have hdivided := Means.dividedBy hl (hr true).of_tied
  simp only [Category.LoosensTo, hd.loosened_operator .slash rfl nofun]
  exact hdivided

theorem beside_loosensTo {left right : List Token} {a b : Expr} (hI : ∀ a b, I.quotient a b = a / b)
    (hd : Derives .product left a) (hd' : Derives .power right b)
    (hl : Category.LoosensTo I .product left a) (hr : Category.LoosensTo I .power right b)
    : Category.LoosensTo I .product (left ++ right) (.product [a, b] true) := by
  have hbeside := MeansDivided.attached hI (Means.beside hl) (hr false)
  simp only [Category.LoosensTo, hd.loosened_append fun hc => absurd hc hd'.head?_ne_caret]
  simpa [Expr.meaning_product] using hbeside

/-- A power keeps its meaning, by cases on its base: the caret ties a fraction, and another base is
loosened by itself. -/
theorem raised_loosensTo {left right : List Token} {a b : Expr}
    (hl : Category.LoosensTo I .atom left a) (hr : Category.LoosensTo I .exponent right b)
    : Category.LoosensTo I .power (left ++ .caret :: right) (.power a b) := by
  obtain ⟨f, hf, hmeaning⟩ := hr
  intro tied
  refine .inl ?_
  rcases hl with ⟨numerator, denominator, rfl, rfl⟩ | ⟨hd, hl⟩
  · -- The caret ties a fraction in front of it.
    have hbase : Token.loosened tied
        ([.numeral (.fraction numerator denominator)] ++ .caret :: right)
        = [.numeral (.fraction numerator denominator)] ++ .caret :: Token.loosened true right := by
      simp [Token.loosened_cons, Token.parts, Token.tiesNext]
    rw [hbase]
    exact ⟨_, .raised (.fraction numerator denominator) hf, by simp [Expr.meaning, hmeaning]⟩
  · obtain ⟨g, hg, hmeaning'⟩ := hl tied
    rw [hd.loosened_operator .caret rfl fun _ => rfl]
    exact ⟨_, .raised (.atomOperand hg) hf, by simp [Expr.meaning, hmeaning, hmeaning']⟩

theorem exponentRaised_loosensTo {left right : List Token} {a b : Expr}
    (hd : Derives .operand left a) (hl : Category.LoosensTo I .operand left a)
    (hr : Category.LoosensTo I .exponent right b)
    : Category.LoosensTo I .exponent (left ++ .caret :: right) (.power a b) := by
  obtain ⟨f, hf, hmeaning⟩ := hr
  obtain ⟨g, hg, hmeaning'⟩ := hl true
  simp only [Category.LoosensTo, hd.loosened_operator .caret rfl fun _ => rfl]
  exact ⟨_, .exponentRaised hg hf, by simp [Expr.meaning, hmeaning, hmeaning']⟩

theorem call_loosensTo {tokens : List Token} {arguments : List Expr} (name : List Char)
    (h : ArgumentsLoosenTo I tokens arguments)
    : Category.LoosensTo I .operand (.callee name :: .opening :: tokens ++ [.closing])
        (.call (String.ofList name) arguments) := by
  obtain ⟨es, hes, hmeanings⟩ := h
  intro tied
  have hcall := Token.loosened_enclosed (Token.tiesNext tied (.callee name)) tokens
  rw [List.cons_append, Token.loosened_of_parts tied rfl, hcall]
  exact ⟨_, .call name hes, by simp [Expr.meaning, Expr.meanings_eq_map, hmeanings]⟩

theorem group_loosensTo {tokens : List Token} {e : Expr} (h : Category.LoosensTo I .sum tokens e)
    : Category.LoosensTo I .operand (.opening :: tokens ++ [.closing]) (.group e) := by
  obtain ⟨f, hf, hmeaning⟩ := h
  intro tied
  rw [Token.loosened_enclosed]
  exact ⟨_, .group hf, hmeaning⟩

/-- A comma ends the loosened argument before it, so arguments are loosened one by one. -/
theorem more_loosensTo {left right : List Token} {arguments : List Expr} {e : Expr}
    (hl : ArgumentsLoosenTo I left arguments) (hr : Category.LoosensTo I .sum right e)
    : ArgumentsLoosenTo I (left ++ .comma :: right) (arguments ++ [e]) := by
  obtain ⟨es, hes, hmeanings⟩ := hl
  obtain ⟨f, hf, hmeaning⟩ := hr
  refine ⟨es ++ [f], ?_, by simp [hmeanings, hmeaning]⟩
  rw [Token.loosened_append false (by simp), Token.loosened_of_parts _ rfl]
  exact .more hes hf

/-- A part of a formula keeps its category and its meaning when it is loosened, if quotients are
read as divisions. -/
theorem Derives.loosensTo (hI : ∀ a b, I.quotient a b = a / b) {category : Category}
    {tokens : List Token} {e : Expr} (h : Derives category tokens e)
    : category.LoosensTo I tokens e := by
  -- A fraction may end up as a product, so a factor is followed up to the product that takes it.
  induction h using Derives.induct (ArgumentsLoosenTo I) with
  | term _ ih =>
      obtain ⟨f, hf, hmeaning⟩ := ih
      exact ⟨f, .term hf, hmeaning⟩
  | terms sign hl _ ihl ihr => exact terms_loosensTo sign hl ihl ihr
  | factor _ ih =>
      have hattach {right : List Token} {value : Rat} (h : Means I .unary right value)
          : Means I .product ([] ++ right) (1 * value) := by
        simpa using h.factor
      simpa [Category.LoosensTo] using MeansDivided.attached hI hattach (ih false)
  | times hl _ ihl ihr => exact times_loosensTo hI hl ihl ihr
  | dividedBy hl _ ihl ihr => exact dividedBy_loosensTo hl ihl ihr
  | beside hl hr ihl ihr => exact beside_loosensTo hI hl hr ihl ihr
  | unsigned _ ih => exact fun tied => (ih tied).unsigned
  | signed sign _ ih =>
      intro tied
      rw [Token.loosened_of_parts tied rfl, meaning_apply]
      exact (ih tied).signed sign
  | base _ ih =>
      rcases ih with ⟨numerator, denominator, rfl, rfl⟩ | ⟨_, ih⟩
      · exact fraction_loosensTo I numerator denominator
      · intro tied
        obtain ⟨f, hf, hmeaning⟩ := ih tied
        exact .inl ⟨f, .base (.atomOperand hf), hmeaning⟩
  | raised _ _ ihl ihr => exact raised_loosensTo ihl ihr
  | exponentBase _ ih =>
      obtain ⟨f, hf, hmeaning⟩ := ih true
      exact ⟨f, .exponentBase hf, hmeaning⟩
  | exponentRaised hl _ ihl ihr => exact exponentRaised_loosensTo hl ihl ihr
  | exponentSigned sign _ ih =>
      obtain ⟨f, hf, hmeaning⟩ := ih
      exact ⟨_, .exponentSigned sign hf, by simp [meaning_apply, hmeaning]⟩
  | fraction numerator denominator => exact .inl ⟨_, _, rfl, rfl⟩
  | atomOperand h ih => exact .inr ⟨h, ih⟩
  | decimal whole places =>
      intro tied
      rw [Token.loosened_of_parts tied rfl]
      exact ⟨_, .decimal whole places, rfl⟩
  | symbol letter =>
      intro tied
      rw [Token.loosened_of_parts tied rfl]
      exact ⟨_, .symbol letter, rfl⟩
  | call name _ ih => exact call_loosensTo name ih
  | group _ ih => exact group_loosensTo ih
  | one _ ih =>
      obtain ⟨f, hf, hmeaning⟩ := ih
      exact ⟨[f], .one hf, by simp [hmeaning]⟩
  | more _ _ ihl ihr => exact more_loosensTo ihl ihr

/-- Formulas with the same loosened tokens mean the same, if quotients are read as divisions. -/
theorem Derives.meaning_eq_of_loosened (hI : ∀ a b, I.quotient a b = a / b)
    {tokens others : List Token} {e f : Expr} (he : Derives .sum tokens e)
    (hf : Derives .sum others f) (h : Token.loosened false others = Token.loosened false tokens)
    : f.meaning I = e.meaning I := by
  obtain ⟨e', he', hmeaning⟩ := he.loosensTo hI
  obtain ⟨f', hf', hmeaning'⟩ := hf.loosensTo hI
  rw [h] at hf'
  rw [← hmeaning, ← hmeaning', hf'.unique he']

end TermGrouping
