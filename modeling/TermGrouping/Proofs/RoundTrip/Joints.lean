import TermGrouping.Proofs.RoundTrip.Measure

/-! Signs between terms. Every sign behind an operand joins two terms of the tree that is read, so
the tokens of a written form are not read as its tree where the sign of a power joins what were
factors.
-/

namespace TermGrouping

/-- How many signs have joined two terms so far, and whether an operand comes last. -/
structure Joints where
  count : Int
  behindOperand : Bool

namespace Joints

def step (joints : Joints) : Token → Joints
  | .numeral _ | .symbol _ | .closing => ⟨joints.count, true⟩
  | .sign _ => ⟨if joints.behindOperand then joints.count + 1 else joints.count, false⟩
  | .callee _ | .times | .slash | .caret | .opening | .comma => ⟨joints.count, false⟩

/-- A joint of a sum counts one, and nothing else counts. -/
def weights : Weights where
  constant _ := 0
  sum := 1
  product := 0

@[simp]
theorem weights_constant (value : Rat) : weights.constant value = 0 := rfl

@[simp]
theorem weights_sum : weights.sum = 1 := rfl

@[simp]
theorem weights_product : weights.product = 0 := rfl

end Joints

namespace Expr

def joints (e : Expr) : Int := e.measure Joints.weights

/-- Taking the opposite makes products and no joints of a sum. -/
theorem joints_opposite (e : Expr) : e.opposite.joints = e.joints := by
  unfold Expr.opposite joints
  split <;> simp

theorem joints_signed (sign : Sign) (e : Expr) : (sign.apply e).joints = e.joints := by
  cases sign with
  | plus => rfl
  | minus => exact joints_opposite e

end Expr

-----------------------------------------------------------------------------------------
-- Joints of a derivation
-----------------------------------------------------------------------------------------

/-- It makes no difference to an operand that starts with no sign whether one comes before. -/
theorem Joints.step_startsOperand {token : Token} (h : token.startsOperand = true) (n : Int)
    : step ⟨n, true⟩ token = step ⟨n, false⟩ token := by
  cases token <;> first | rfl | cases h

/-- A derivation passes as many joints as the derived tree has. -/
theorem Derives.foldl_joints {category : Category} {tokens : List Token} {e : Expr}
    (h : Derives category tokens e)
    : ∀ n, tokens.foldl Joints.step ⟨n, false⟩ = ⟨n + e.joints, true⟩ := by
  -- A part starts behind no operand, except for the right one of factors side by side.
  induction h using Derives.induct fun tokens es => ∀ n,
      tokens.foldl Joints.step ⟨n, false⟩ = ⟨n + Expr.measureAll Joints.weights 0 es, true⟩ with
  | term _ ih | factor _ ih | unsigned _ ih | base _ ih | exponentBase _ ih
    | atomOperand _ ih => exact ih
  | @terms _ _ a b sign _ _ ihl ihr =>
      intro n
      have hb := Expr.joints_signed sign b
      simp only [Expr.joints] at ihl ihr hb ⊢
      simp only [List.foldl_append, List.foldl_cons, ihl, Joints.step, if_true, ihr,
        Expr.measure_sum, Expr.measureAll_cons, Expr.measureAll_nil, hb, Joints.weights_sum]
      congr 1
      ring
  | signed sign _ ih | exponentSigned sign _ ih =>
      intro n
      rw [Expr.joints_signed, ← ih n]
      rfl
  | times _ _ ihl ihr | dividedBy _ _ ihl ihr | raised _ _ ihl ihr
    | exponentRaised _ _ ihl ihr =>
      intro n
      simp only [Expr.joints] at ihl ihr ⊢
      simp [ihl, ihr, Joints.step, add_assoc]
  | beside _ hr ihl ihr =>
      intro n
      obtain ⟨token, rest, rfl, htoken⟩ := hr.starts_operand (.inr (.inr rfl))
      simp only [Expr.joints, List.foldl_cons] at ihl ihr ⊢
      simp [ihl, Joints.step_startsOperand htoken, ihr, add_assoc]
  | fraction | decimal | symbol => simp [Expr.joints, Joints.step]
  | call _ _ ih | group _ ih =>
      intro n
      simp only [Expr.joints] at ih ⊢
      simp [Joints.step, ih]
  | one _ ih n => simpa [Expr.joints] using ih n
  | more _ _ ihl ihr n =>
      simp only [Expr.joints] at ihr
      simp [ihl, ihr, Joints.step, Expr.measureAll, add_assoc]

namespace Expr

-----------------------------------------------------------------------------------------
-- Joints of a written form
-----------------------------------------------------------------------------------------

/-- How many signs of a product of factors side by side are read as joints: the signs of powers
behind another factor. -/
def hiddenSigns : Expr → Nat
  | product (head :: rest) implicit =>
      if isJuxtaposed (head :: rest) implicit then
        (if head.isMinusOne then rest.tail else rest).countP hasSignedBase
      else 0
  | _ => 0

/-- A product without hidden signs hides none. -/
theorem hidesSign_of_hiddenSigns {e : Expr} (h : e.hiddenSigns = 0) : e.hidesSign = false := by
  unfold hidesSign
  split
  · next head rest implicit =>
    cases hj : isJuxtaposed (head :: rest) implicit with
    | false => rfl
    | true =>
        simp only [hiddenSigns, hj, if_true, List.countP_eq_zero] at h
        simpa [List.any_eq_false] using h
  · rfl

/-- The joints of a node and those that its signs are read as. -/
def readJoints (e : Expr) : Int := Joints.weights.node e + e.hiddenSigns

/-- What tokens add to the joints before them. -/
def Adds (tokens : List Token) (count : Int) : Prop :=
  ∀ n, tokens.foldl Joints.step ⟨n, false⟩ = ⟨n + count, true⟩

/-- Brackets add no joints. -/
theorem Adds.enclosed {tokens : List Token} {count : Int} (h : Adds tokens count)
    (needed : Bool)
    : Adds (enclosed needed tokens) count := by
  cases needed with
  | false => exact h
  | true =>
      intro n
      simp [Expr.enclosed, Joints.step, h n]

/-- Operands are joined by a token that stands between them. -/
theorem Adds.separated {left right : List Token} {token : Token} {a b : Int}
    (hs : ∀ n, Joints.step ⟨n, true⟩ token = ⟨n, false⟩) (hl : Adds left a)
    (hr : Adds right b)
    : Adds (left ++ token :: right) (a + b) := by
  intro n
  rw [List.foldl_append, hl, List.foldl_cons, hs, hr, add_assoc]

/-- What trees behind one another add is the sum of what each of them adds. -/
theorem Adds.tokensBehind {separator : List Token} {needed : Expr → Bool} {es : List Expr}
    {count : Expr → Int} {left : List Token} {a : Int} (hl : Adds left a)
    (h : ∀ e ∈ es, ∀ n, (separator ++ Expr.enclosed (needed e) e.tokens).foldl Joints.step
      ⟨n, true⟩ = ⟨n + count e, true⟩)
    : Adds (left ++ Expr.tokensBehind separator needed es) (a + (es.map count).sum) := by
  induction es generalizing left a with
  | nil => simpa [Expr.tokensBehind] using hl
  | cons e es ih =>
      obtain ⟨he, hes⟩ := List.forall_mem_cons.mp h
      have hnext : Adds (left ++ (separator ++ Expr.enclosed (needed e) e.tokens))
          (a + count e) := by
        intro n
        rw [List.foldl_append, hl, he, add_assoc]
      simpa [Expr.tokensBehind, add_assoc] using ih hnext hes

/-- A base starts with an operand, unless it is a constant with a sign of its own. -/
theorem starts_of_base {base : Expr} (h : base.IsReadable) (exponent : Expr)
    : ∃ token rest, enclosed (!base.basePlain) base.tokens = token :: rest
      ∧ if hasSignedBase (power base exponent) then token = .sign .minus
        else token.startsOperand = true := by
  cases hplain : base.basePlain with
  | false =>
      have hsigned : hasSignedBase (power base exponent) = false := by
        cases base <;> simp_all [hasSignedBase]
      refine ⟨.opening, _, rfl, ?_⟩
      rw [if_neg (Bool.eq_false_iff.mp hsigned)]
      rfl
  | true =>
      cases h with
      | @constant literal =>
          simp only [tokens, Literal.tokens, hasSignedBase, hplain, Bool.true_and]
          split <;> exact ⟨_, _, rfl, rfl⟩
      | @symbol letter => exact ⟨.symbol letter, [], by simp [enclosed, tokens], rfl⟩
      | group | call => exact ⟨_, _, rfl, rfl⟩
      | power | sum | product | quotient => simp [basePlain] at hplain

/-- What can follow another factor starts with an operand, or with the sign of a base. -/
theorem starts_of_canFollow {e : Expr} (h : e.canFollow = true) (hr : e.IsReadable)
    : ∃ token rest, enclosed e.bracketedLater e.tokens = token :: rest
      ∧ if e.hasSignedBase then token = .sign .minus else token.startsOperand = true := by
  cases hr with
  | constant | quotient => simp [canFollow] at h
  | @symbol letter =>
      exact ⟨.symbol letter, [], by simp [enclosed, bracketedLater, tokens], rfl⟩
  | group | call | sum | product => exact ⟨_, _, rfl, rfl⟩
  | @power base exponent hb _ =>
      obtain ⟨token, rest, htokens, htoken⟩ := starts_of_base hb exponent
      refine ⟨token, rest ++ .caret :: enclosed exponent.bracketedLater exponent.tokens, ?_,
        htoken⟩
      rw [← List.cons_append, ← htokens, ← tokens]
      rfl

/-- Behind another factor, the sign of a base is one joint more. -/
theorem Adds.beside {e : Expr} (h : e.canFollow = true) (hr : e.IsReadable) {count : Int}
    (ha : Adds e.tokens count) (n : Int)
    : (Expr.enclosed e.bracketedLater e.tokens).foldl Joints.step ⟨n, true⟩
      = ⟨n + (count + if e.hasSignedBase then 1 else 0), true⟩ := by
  have ha := ha.enclosed e.bracketedLater
  obtain ⟨token, rest, htokens, htoken⟩ := starts_of_canFollow h hr
  rw [htokens] at ha ⊢
  split at htoken
  · next hs =>
    subst htoken
    have hnext := ha (n + 1)
    simp only [List.foldl_cons, Joints.step, Bool.false_eq_true, if_false] at hnext
    simp only [List.foldl_cons, Joints.step, if_true, hnext, hs]
    congr 1
    ring
  · next hs =>
    rw [List.foldl_cons, Joints.step_startsOperand htoken, ← List.foldl_cons, ha, if_neg hs,
      add_zero]

/-- Trees behind separators add what they add alone, and what the separators add. -/
theorem Adds.behindSeparator {left : List Token} {a : Int} (hl : Adds left a)
    (separator : Token) (needed : Expr → Bool) (joint : Int)
    (hs : ∀ n, Joints.step ⟨n, true⟩ separator = ⟨n + joint, false⟩)
    {es : List Expr} (h : ∀ e ∈ es, Adds e.tokens (total readJoints e))
    : Adds (left ++ Expr.tokensBehind [separator] needed es)
        (a + (joint * es.length + totalAll readJoints es)) := by
  have hsum : (es.map fun e => joint + total readJoints e).sum
      = joint * es.length + totalAll readJoints es := by
    induction es with
    | nil => simp
    | cons e es ih =>
        rw [List.map_cons, List.sum_cons, ih (List.forall_mem_cons.mp h).2, totalAll_cons,
          List.length_cons]
        push_cast
        ring
  rw [← hsum]
  refine hl.tokensBehind fun e he n => ?_
  rw [List.foldl_append, List.foldl_cons, List.foldl_nil, hs, (h e he).enclosed, add_assoc]

theorem totalAll_besideJoints (es : List Expr)
    : (es.map fun e => total readJoints e + if e.hasSignedBase then (1 : Int) else 0).sum
      = totalAll readJoints es + es.countP hasSignedBase := by
  induction es with
  | nil => rfl
  | cons e es ih =>
      rw [List.map_cons, List.sum_cons, ih, totalAll_cons, List.countP_cons]
      push_cast
      ring

/-- Nodes that are no operators have no joints of their own. -/
theorem total_readJoints_of_operation? {e : Expr} (h : e.operation? = none)
    : total readJoints e = totalAll readJoints e.children := by
  rw [total_eq]
  cases e <;> simp_all [operation?, readJoints, Weights.node, hiddenSigns]

/-- A sum is read with the joints of its operands and one in front of each but the first. -/
theorem total_readJoints_sum (head : Expr) (rest : List Expr)
    : total readJoints (sum (head :: rest))
      = total readJoints head + (rest.length + totalAll readJoints rest) := by
  rw [total_eq]
  simp only [readJoints, Weights.node, Joints.weights_sum, hiddenSigns, children, totalAll_cons,
    List.length_cons]
  push_cast
  ring

/-- A product is read with the joints of its factors and the signs that it hides. -/
theorem total_readJoints_product (head : Expr) (rest : List Expr) (implicit : Bool)
    : total readJoints (product (head :: rest) implicit)
      = total readJoints head + totalAll readJoints rest
        + (product (head :: rest) implicit).hiddenSigns := by
  rw [total_eq]
  simp only [readJoints, Weights.node, Joints.weights_product, children, totalAll_cons]
  ring

/-- A product of factors side by side passes a joint for every sign that is hidden in it. -/
theorem Adds.juxtaposed {head : Expr} {rest : List Expr} {implicit : Bool}
    (hj : isJuxtaposed (head :: rest) implicit = true) (hne : rest ≠ [])
    (hhead : head.isMinusOne = true → total readJoints head = 0)
    (hr : ∀ e ∈ rest, e.IsReadable) (ihh : Adds head.tokens (total readJoints head))
    (ihr : ∀ e ∈ rest, Adds e.tokens (total readJoints e))
    : Adds (product (head :: rest) implicit).tokens
        (total readJoints (product (head :: rest) implicit)) := by
  have hfollow : ∀ e ∈ rest, e.canFollow = true := by
    simp only [isJuxtaposed, Bool.and_eq_true, List.drop_succ_cons, List.drop_zero,
      List.all_eq_true] at hj
    exact hj.2
  have hbeside : ∀ e ∈ rest, ∀ n, ([] ++ Expr.enclosed e.bracketedLater e.tokens).foldl
      Joints.step ⟨n, true⟩
      = ⟨n + (total readJoints e + if e.hasSignedBase then 1 else 0), true⟩ :=
    fun e he => Adds.beside (hfollow e he) (hr e he) (ihr e he)
  rw [total_readJoints_product]
  simp only [tokens, hj, if_true, hiddenSigns]
  cases hm : head.isMinusOne with
  | false =>
      have h := (ihh.enclosed head.bracketedFirst).tokensBehind hbeside
      rw [totalAll_besideJoints, ← add_assoc] at h
      exact h
  | true =>
      -- The sign of the coefficient is followed by the first factor as by an operand.
      obtain ⟨first, later, rfl⟩ := List.exists_cons_of_ne_nil hne
      have hfirst : Adds (.sign .minus :: Expr.enclosed first.bracketedLater first.tokens)
          (total readJoints first) := (ihr first (.head _)).enclosed _
      have h := hfirst.tokensBehind fun e he => hbeside e (.tail _ he)
      rw [totalAll_besideJoints, ← add_assoc] at h
      simpa [hhead hm, Expr.tokensBehind] using h

/-- A written form passes the joints of its tree and the signs that are hidden in it. -/
theorem IsReadable.foldl_joints {e : Expr} (h : e.IsReadable)
    : Adds e.tokens (total readJoints e) := by
  induction h with
  | @constant literal =>
      have htotal : total readJoints (.constant literal) = 0 := rfl
      intro n
      simp only [tokens, Literal.tokens, htotal, add_zero]
      split <;> rfl
  | @symbol letter =>
      have htotal : total readJoints (.symbol (String.singleton letter)) = 0 := rfl
      intro n
      simp [tokens, htotal, Joints.step]
  | power _ _ ihb ihx =>
      rw [total_readJoints_of_operation? rfl]
      simpa [children, tokens]
        using Adds.separated (fun _ => rfl) (ihb.enclosed _) (ihx.enclosed _)
  | quotient _ _ ihn ihd =>
      rw [total_readJoints_of_operation? rfl]
      simpa [children, tokens]
        using Adds.separated (fun _ => rfl) (ihn.enclosed _) (ihd.enclosed _)
  | group _ ih =>
      rw [total_readJoints_of_operation? rfl]
      simpa [children, tokens] using ih.enclosed true
  | @sum head _ _ _ _ ihh ihr =>
      have h := (ihh.enclosed head.isSum).behindSeparator (.sign .plus) isSum 1 (fun _ => rfl) ihr
      rw [one_mul] at h
      rw [total_readJoints_sum]
      exact h
  | call _ _ _ ihh ihr =>
      have h := (ihh.behindSeparator .comma (fun _ => false) 0
        (fun n => by simp [Joints.step]) ihr).enclosed true
      rw [zero_mul, zero_add] at h
      rw [total_readJoints_of_operation? rfl]
      exact h
  | @product head rest implicit hne hh hr ihh ihr =>
      cases hj : isJuxtaposed (head :: rest) implicit with
      | true =>
          refine Adds.juxtaposed hj hne (fun hm => ?_) hr ihh ihr
          cases head with
          | constant => rfl
          | _ => simp [isMinusOne] at hm
      | false =>
          have h := (ihh.enclosed head.bracketedFirst).behindSeparator .times bracketedLater 0
            (fun n => by simp [Joints.step]) ihr
          rw [zero_mul, zero_add] at h
          rw [total_readJoints_product]
          simpa [tokens, hiddenSigns, hj] using h

/-- If the tokens of a readable tree are read as a tree with as many joints, no sign is hidden. -/
theorem IsReadable.hidesSign_of_derives {e u : Expr} (h : e.IsReadable)
    (hd : Derives .sum e.tokens u) (hm : u.joints = e.joints)
    : ∀ node ∈ e.subtrees, node.hidesSign = false := by
  have hadd : total readJoints e = e.joints + total (fun node => node.hiddenSigns) e :=
    List.sum_map_add
  have hread := (hd.foldl_joints 0).symm.trans (h.foldl_joints 0)
  have hzero : total (fun node => node.hiddenSigns) e = 0 := by
    have := (Joints.mk.inj hread).1
    omega
  intro node hn
  have hnode := eq_zero_of_total (fun e => Int.natCast_nonneg e.hiddenSigns) hzero node hn
  exact hidesSign_of_hiddenSigns (Int.natCast_eq_zero.mp hnode)

end Expr

end TermGrouping
