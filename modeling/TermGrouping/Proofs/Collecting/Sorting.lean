import Mathlib.Data.List.Forall2
import Mathlib.Data.Prod.Lex
import TermGrouping.Proofs.Collecting.Gathered

/-! The order of collected operands. Bundle by bundle, the operands of a collected node are those of
the node before, sorted by the ranks of their kinds and then by where the first operand like them
stands; operands of one bundle keep their order.
-/

namespace TermGrouping

-----------------------------------------------------------------------------------------
-- Stable sorting
-----------------------------------------------------------------------------------------

section StableSorting

variable {α κ : Type} [LinearOrder κ] {f : α → κ} {l m : List α}

/-- A permutation that keeps the order of the elements with a property has the same such elements
in the same order. -/
theorem filter_eq_of_sublist {p : α → Bool} (hp : m.Perm l) (hs : (l.filter p).Sublist m)
    : m.filter p = l.filter p := by
  have hfilter := hs.filter p
  simp only [List.filter_filter, Bool.and_self] at hfilter
  exact (hfilter.eq_of_length (hp.filter p).length_eq.symm).symm

/-- Sorted lists are the same if they have the same elements of each key in the same order. -/
theorem eq_of_pairwise_of_filter_eq (hl : l.Pairwise fun a b => f a ≤ f b)
    (hm : m.Pairwise fun a b => f a ≤ f b)
    (h : ∀ k, l.filter (fun a => f a = k) = m.filter fun a => f a = k)
    : l = m := by
  -- The first elements have one key, because each key occurs in both lists.
  have hhead {a : α} {l m : List α} (hm : m.Pairwise fun a b => f a ≤ f b)
      (h : (a :: l).filter (fun b => f b = f a) = m.filter fun b => f b = f a)
      : ∃ b rest, m = b :: rest ∧ f b ≤ f a := by
    have ha : a ∈ m.filter fun b => f b = f a := by simp [← h]
    cases m with
    | nil => simp at ha
    | cons b rest =>
        refine ⟨b, rest, rfl, ?_⟩
        rcases List.mem_cons.mp (List.mem_filter.mp ha).1 with rfl | ha
        · exact le_rfl
        · exact (List.pairwise_cons.mp hm).1 a ha
  induction l generalizing m with
  | nil =>
      cases m with
      | nil => rfl
      | cons b m => simpa using h (f b)
  | cons a l ih =>
      obtain ⟨b, rest, rfl, hba⟩ := hhead hm (h (f a))
      obtain ⟨_, _, heq, hab⟩ := hhead hl (h (f b)).symm
      cases heq
      have hkey : f a = f b := le_antisymm hab hba
      have hab : a = b := by simpa [hkey] using congrArg List.head? (h (f b))
      subst hab
      refine congrArg (a :: ·) (ih (List.pairwise_cons.mp hl).2 (List.pairwise_cons.mp hm).2 ?_)
      intro k
      have hk := h k
      rw [List.filter_cons, List.filter_cons] at hk
      split at hk
      · exact (List.cons.inj hk).2
      · exact hk

/-- Sorting a list by a key gives its only sorted permutation that keeps the order of elements with
the same key. -/
theorem eq_mergeSort (hp : m.Perm l) (hs : m.Pairwise fun a b => f a ≤ f b)
    (hk : ∀ k, (l.filter fun a => f a = k).Sublist m)
    : m = l.mergeSort fun a b => f a ≤ f b := by
  have htrans (a b c : α) (hab : decide (f a ≤ f b) = true) (hbc : decide (f b ≤ f c) = true)
      : decide (f a ≤ f c) = true :=
    decide_eq_true ((of_decide_eq_true hab).trans (of_decide_eq_true hbc))
  have htotal (a b : α) : (decide (f a ≤ f b) || decide (f b ≤ f a)) = true := by
    simpa using le_total (f a) (f b)
  have hsorted := List.pairwise_mergeSort htrans htotal l
  refine eq_of_pairwise_of_filter_eq hs (hsorted.imp of_decide_eq_true) fun k => ?_
  have hsame : (l.filter fun a => f a = k).Pairwise fun a b => decide (f a ≤ f b) = true := by
    rw [List.pairwise_filter]
    refine List.pairwise_of_forall fun a b ha hb => decide_eq_true (le_of_eq ?_)
    exact (of_decide_eq_true ha).trans (of_decide_eq_true hb).symm
  rw [filter_eq_of_sublist hp (hk k), filter_eq_of_sublist (List.mergeSort_perm l _)
    (List.sublist_mergeSort htrans htotal hsame List.filter_sublist)]

end StableSorting

-----------------------------------------------------------------------------------------
-- The places of operands
-----------------------------------------------------------------------------------------

namespace Operator

/-- The rank of a kind of keys: multiples of symbols and of their powers come first in a sum, then
constants, then fractions, and all else; in a product, constants come first and then the powers of
symbols. -/
def rank : Operator → KeyKind → Nat
  | sum, .symbol | sum, .power => 0
  | sum, .constant => 1
  | sum, .fraction => 2
  | sum, _ => 3
  | product, .coefficient => 0
  | product, .base => 1
  | product, _ => 2

/-- The position of the first operand whose key is alike to a given one. -/
def firstPosition (operator : Operator) (operands : List Expr) (key : Key) : Nat :=
  operands.findIdx fun operand => Key.Alike (operator.key operand) key

/-- The place of the operands with a key: the rank of its kind, and for one rank the position of the
first of them. -/
def place (operator : Operator) (operands : List Expr) (key : Key) : Nat ×ₗ Nat :=
  toLex (operator.rank key.kind, operator.firstPosition operands key)

/-- The operands in the order of their places; those of one place keep their order. -/
def sorted (operator : Operator) (operands : List Expr) : List Expr :=
  operands.mergeSort fun a b =>
    operator.place operands (operator.key a) ≤ operator.place operands (operator.key b)

def likes (operator : Operator) (operands : List Expr) (operand : Expr) : List Expr :=
  operands.filter fun other => Key.Alike (operator.key operand) (operator.key other)

variable {operator : Operator} {operands : List Expr}

/-- Alike keys have one place. -/
theorem place_eq_of_alike {a b : Key} (h : Key.Alike a b)
    : operator.place operands a = operator.place operands b := by
  have hposition : operator.firstPosition operands a = operator.firstPosition operands b := by
    refine congrArg operands.findIdx (funext fun operand => decide_eq_decide.mpr ?_)
    exact ⟨fun ha => ha.trans h, fun hb => hb.trans h.symm⟩
  rw [place, place, h.kind_eq, hposition]

/-- The key of an operand is alike to that of the operand at its first position. -/
theorem exists_firstPosition (operator : Operator) {operand : Expr} (h : operand ∈ operands)
    : ∃ first, operands[operator.firstPosition operands (operator.key operand)]? = some first
        ∧ Key.Alike (operator.key first) (operator.key operand) := by
  have hlt : operator.firstPosition operands (operator.key operand) < operands.length :=
    List.findIdx_lt_length_of_exists ⟨operand, h, decide_eq_true (rfl : Key.Alike _ _)⟩
  exact ⟨_, List.getElem?_eq_getElem hlt, of_decide_eq_true (List.findIdx_getElem (w := hlt))⟩

/-- Operands that have one place have alike keys, because they have one first position. -/
theorem alike_of_place_eq {a b : Expr} (ha : a ∈ operands) (hb : b ∈ operands)
    (h : operator.place operands (operator.key a) = operator.place operands (operator.key b))
    : Key.Alike (operator.key a) (operator.key b) := by
  have hposition : operator.firstPosition operands (operator.key a)
      = operator.firstPosition operands (operator.key b) :=
    congrArg (fun place => (ofLex place).2) h
  obtain ⟨first, hfirst, hfa⟩ := exists_firstPosition operator ha
  obtain ⟨other, hother, hob⟩ := exists_firstPosition operator hb
  rw [← hposition, hfirst] at hother
  cases hother
  exact hfa.symm.trans hob

end Operator

/-- First occurrences stand in the order of their positions. -/
theorem Key.pairwise_findIdx_firstOccurrences (keys : List Key)
    : (firstOccurrences keys).Pairwise fun a b =>
        keys.findIdx (fun key => Alike key a) < keys.findIdx fun key => Alike key b := by
  induction keys with
  | nil => exact .nil
  | cons first rest ih =>
      have hbehind {key : Key} (h : ¬ Alike first key)
          : (first :: rest).findIdx (fun other => Alike other key)
            = rest.findIdx (fun other => Alike other key) + 1 := by
        simp [List.findIdx_cons, h]
      have hnot {key : Key}
          (h : key ∈ (firstOccurrences rest).filter fun other => ¬ Alike first other)
          : ¬ Alike first key := by
        simpa using (List.mem_filter.mp h).2
      refine List.pairwise_cons.mpr ⟨fun key hk => ?_, ?_⟩
      · rw [hbehind (hnot hk)]
        simp [List.findIdx_cons, show Alike first first from rfl]
      · refine (ih.filter _).imp_of_mem fun {a b} ha hb hab => ?_
        rw [hbehind (hnot ha), hbehind (hnot hb)]
        exact Nat.succ_lt_succ hab

namespace Bundle

/-- The bundles of operands stand in the order of the positions of their first members. -/
theorem pairwise_firstPosition (operator : Operator) (operands : List Expr)
    : (ofOperands operator operands).Pairwise fun a b =>
        operator.firstPosition operands a.key < operator.firstPosition operands b.key := by
  rw [ofOperands, List.pairwise_map]
  have h := Key.pairwise_findIdx_firstOccurrences (operands.map operator.key)
  simp only [List.findIdx_map] at h
  exact h

/-- Kinds that are listed together have one rank, and those listed later a higher one. -/
theorem pairwise_rank_ranks (operator : Operator)
    : (∀ kinds ∈ ranks operator, ∀ a ∈ kinds, ∀ b ∈ kinds, operator.rank a = operator.rank b)
      ∧ (ranks operator).Pairwise fun kinds others =>
          ∀ a ∈ kinds, ∀ b ∈ others, operator.rank a < operator.rank b := by
  cases operator <;> decide

/-- The ranked bundles of operands stand in the order of their places. -/
theorem pairwise_place_ordered (operator : Operator) (operands : List Expr)
    : (ordered operator (ofOperands operator operands)).Pairwise fun a b =>
        operator.place operands a.key < operator.place operands b.key := by
  obtain ⟨hsame, hlater⟩ := pairwise_rank_ranks operator
  have hkind {kinds : List KeyKind} {bundle : Bundle} {bundles : List Bundle}
      (h : bundle ∈ ofKinds kinds bundles)
      : bundle.key.kind ∈ kinds := by
    simpa using (List.mem_filter.mp h).2
  rw [ordered, List.pairwise_flatMap]
  constructor
  · intro kinds hk
    refine ((pairwise_firstPosition operator operands).filter _).imp_of_mem ?_
    intro a b ha hb hab
    have hrank := hsame kinds hk _ (hkind ha) _ (hkind hb)
    exact Prod.Lex.toLex_lt_toLex.mpr (.inr ⟨hrank, hab⟩)
  · refine hlater.imp fun hrank a ha b hb => ?_
    exact Prod.Lex.toLex_lt_toLex.mpr (.inl (hrank _ (hkind ha) _ (hkind hb)))

end Bundle

namespace Expr

variable {operator : Operator} {operands : List Expr}

/-- The members of a bundle are the operands that are like any one of them. -/
theorem members_eq_likes {bundle : Bundle} (h : bundle ∈ rankedBundles operator operands)
    {m : Expr} (hm : m ∈ bundle.members)
    : bundle.members = operator.likes operands m := by
  have halike := (areDivision_rankedBundles operator operands).alike bundle h m hm
  obtain ⟨key, _, rfl⟩ := List.mem_map.mp (mem_rankedBundles.mp h)
  refine List.filter_congr fun other _ => decide_eq_decide.mpr ?_
  exact ⟨fun ho => halike.symm.trans ho, fun ho => halike.trans ho⟩

/-- The members of the ranked bundles are the operands in the order of their places. -/
theorem flatMap_members_rankedBundles (operator : Operator) (operands : List Expr)
    : (rankedBundles operator operands).flatMap Bundle.members = operator.sorted operands := by
  have hmember {bundle : Bundle} (hb : bundle ∈ rankedBundles operator operands) {m : Expr}
      (hm : m ∈ bundle.members)
      : operator.place operands (operator.key m) = operator.place operands bundle.key :=
    (Operator.place_eq_of_alike
      ((areDivision_rankedBundles operator operands).alike bundle hb m hm)).symm
  refine eq_mergeSort (f := fun operand => operator.place operands (operator.key operand))
    (Bundle.ordered_members_perm operator operands) ?_ ?_
  · rw [List.pairwise_flatMap]
    constructor
    · intro bundle hb
      refine List.pairwise_of_forall_mem_list fun a ha b hb' => ?_
      rw [hmember hb ha, hmember hb hb']
    · refine (Bundle.pairwise_place_ordered operator operands).imp_of_mem ?_
      intro left right hl hr hlt a ha b hb
      rw [hmember hl ha, hmember hr hb]
      exact hlt.le
  · intro place
    cases hp : operands.filter fun operand => operator.place operands (operator.key operand) = place
    with
    | nil => exact List.nil_sublist _
    | cons first rest =>
        have hmem : first ∈ operands.filter fun operand =>
            operator.place operands (operator.key operand) = place := by simp [hp]
        obtain ⟨hfirst, hplace⟩ := List.mem_filter.mp hmem
        obtain rfl := of_decide_eq_true hplace
        obtain ⟨bundle, hb, hm⟩ := exists_mem_rankedBundles operator hfirst
        -- The operands of this place are those of the bundle, which stand together.
        have hlikes : operands.filter (fun operand => operator.place operands (operator.key operand)
            = operator.place operands (operator.key first)) = bundle.members := by
          rw [members_eq_likes hb hm]
          refine List.filter_congr fun other ho => decide_eq_decide.mpr ?_
          exact ⟨fun h => Operator.alike_of_place_eq hfirst ho h.symm,
            fun h => (Operator.place_eq_of_alike h).symm⟩
        rw [← hp, hlikes, List.flatMap_def]
        exact List.sublist_flatten_of_mem (List.mem_map_of_mem hb)

/-- The member lists of the ranked bundles are the lists of operands that are like some operand. -/
theorem mem_map_members_iff {members : List Expr}
    : members ∈ (rankedBundles operator operands).map Bundle.members
      ↔ ∃ operand ∈ operands, members = operator.likes operands operand := by
  rw [List.mem_map]
  constructor
  · rintro ⟨bundle, hb, rfl⟩
    obtain ⟨m, hm⟩ :=
      List.exists_mem_of_ne_nil _ (Bundle.members_ne_nil (mem_rankedBundles.mp hb))
    exact ⟨m, mem_of_mem_members hb hm, members_eq_likes hb hm⟩
  · rintro ⟨operand, ho, rfl⟩
    obtain ⟨bundle, hb, hm⟩ := exists_mem_rankedBundles operator ho
    exact ⟨bundle, hb, members_eq_likes hb hm⟩

/-- No two ranked bundles have the same members, because they have no member in common. -/
theorem nodup_map_members (operator : Operator) (operands : List Expr)
    : ((rankedBundles operator operands).map Bundle.members).Nodup := by
  have hd := areDivision_rankedBundles operator operands
  rw [List.Nodup, List.pairwise_map]
  refine hd.apart.imp_of_mem fun {left right} hl hr hapart heq => hapart ?_
  obtain ⟨m, hm⟩ := List.exists_mem_of_ne_nil _ (Bundle.members_ne_nil (mem_rankedBundles.mp hl))
  exact (hd.alike left hl m hm).trans (hd.alike right hr m (heq ▸ hm)).symm

end Expr

/-- What collecting makes of the operands with one key: a single one stays as it is, and several
become a node of their own. -/
inductive Operator.Makes (operator : Operator) : List Expr → Expr → Prop where
  | single (operand : Expr) : Makes operator [operand] operand
  | several {members : List Expr}
    : 2 ≤ members.length → Makes operator members (operator.node members)

/-- Lists of operands of which each holds those with one key, in their order; there is one for each
key, and in one row they are the operands in the order of their places. -/
structure Operator.AreSortedBundles (operator : Operator) (operands : List Expr)
    (bundles : List (List Expr)) : Prop where
  once : bundles.Nodup
  likes : ∀ members,
    members ∈ bundles ↔ ∃ operand ∈ operands, members = operator.likes operands operand
  sorted : bundles.flatten = operator.sorted operands

/-- Combining operands makes what collecting makes of them, by cases on their number. -/
theorem Operator.makes_combine (operator : Operator) {members : List Expr} (h : members ≠ [])
    : operator.Makes members (operator.combine members) := by
  match members with
  | [] => exact absurd rfl h
  | [operand] => exact .single operand
  | a :: b :: rest => exact .several (by simp)

/-- Collecting the operands of a well-formed sum or product gives the node itself if it is not
collectable. Otherwise it gives a node of the same operator, without the mark of an implicit
product, with fewer operands but at least two, one for each key of the operands, in the order of
the places of the operands that they are made of. -/
theorem collect_sorted {e : Expr} {operator : Operator} {operands : List Expr} (h : e.WellFormed)
    (ho : e.operation? = some (operator, operands))
    : ∃ isCollectable collected,
        e.isCollectable = .ok isCollectable ∧ e.collect = .ok collected
        ∧ (isCollectable = false → collected.value = e)
        ∧ (isCollectable = true
            → ∃ bundles results,
                collected.value = operator.node results
                ∧ 2 ≤ results.length ∧ results.length < operands.length
                ∧ List.Forall₂ operator.Makes bundles results
                ∧ operator.AreSortedBundles operands bundles) := by
  refine ⟨_, _, h.isCollectable_eq, h.collect_eq, fun hs => ?_, fun hs => ?_⟩
  · exact Expr.bundled_of_isSettled (by simpa using hs)
  · have hs : e.isSettled = false := by simpa using hs
    let bundles := Expr.rankedBundles operator operands
    refine ⟨bundles.map Bundle.members, bundles.map fun bundle => operator.combine bundle.members,
      Expr.bundled_of_not_isSettled ho hs, ?_, ?_, ?_, ?_⟩
    · rw [List.length_map]
      exact (Expr.several_of_not_isSettled ho hs).1
    · rw [List.length_map]
      exact Bundle.length_ordered_lt (Expr.areCollectable_of_not_isSettled ho hs)
    · rw [List.forall₂_map_left_iff, List.forall₂_map_right_iff, List.forall₂_same]
      intro bundle hb
      exact operator.makes_combine (Bundle.members_ne_nil (Expr.mem_rankedBundles.mp hb))
    · exact {
        once := Expr.nodup_map_members operator operands
        likes := fun _ => Expr.mem_map_members_iff
        sorted := by
          rw [← List.flatMap_def]
          exact Expr.flatMap_members_rankedBundles operator operands
      }

/-- The factors of an implicit product, of which the constants come to the front and the power of a
symbol goes to the symbol. -/
theorem collect_sorted_product
    : let x := Expr.symbol "x"
      let y := Expr.symbol "y"
      let two := Expr.constant .two
      let half := Expr.constant ⟨1 / 2, true, some "1/2"⟩
      let operands := [x, y, two, .power x half, half]
      let e := Expr.product operands true
      e.WellFormed
      ∧ ∃ collected bundles results,
          e.collect = .ok collected ∧ collected.value = .product results false
          ∧ results.length < 5 ∧ List.Forall₂ Operator.product.Makes bundles results
          ∧ bundles.flatten = [two, half, x, .power x half, y] := by
  intro x y two half operands e
  have h : e.WellFormed := by decide
  obtain ⟨isCollectable, collected, hquery, hcollect, -, hchange⟩ := collect_sorted h rfl
  have htrue : e.isCollectable = .ok true := rfl
  obtain ⟨bundles, results, hvalue, -, hfewer, hmakes, hbundles⟩ :=
    hchange (Except.ok.inj (hquery.symm.trans htrue))
  have hsorted : Operator.product.sorted operands = [two, half, x, .power x half, y] :=
    (Expr.flatMap_members_rankedBundles .product operands).symm
  exact ⟨h, collected, bundles, results, hcollect, hvalue, hfewer, hmakes,
    hbundles.sorted.trans hsorted⟩

end TermGrouping
