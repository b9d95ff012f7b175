import Mathlib.Data.List.Induction
import Mathlib.Data.List.Perm.Basic
import TermGrouping.Proofs.Collecting.Sorting

/-! Bundles of rearranged operands. The operands of a node are put into bundles one after the other,
and whatever their order, the bundles are the classes of operands with alike keys: an operand that
comes earlier or later changes which of them leads its bundle, and nothing else.
-/

namespace TermGrouping

namespace Bundle

variable {operator : Operator} {operands others : List Expr} {operand : Expr}
  {bundles : List Bundle}

-----------------------------------------------------------------------------------------
-- One operand after the other
-----------------------------------------------------------------------------------------

/-- Bundles with one more operand. It goes to the end of the bundle with a key alike to its own, and
starts a bundle behind the others if there is none. -/
def add (operator : Operator) (operand : Expr) : List Bundle → List Bundle
  | [] => [⟨operator.key operand, [operand]⟩]
  | bundle :: rest =>
      if Key.Alike bundle.key (operator.key operand) then
        { bundle with members := bundle.members ++ [operand] } :: rest
      else bundle :: add operator operand rest

/-- The bundles that operands make if they are added one after the other. -/
def accumulated (operator : Operator) (operands : List Expr) : List Bundle :=
  operands.foldl (fun bundles operand => add operator operand bundles) []

def taking (operator : Operator) (operand : Expr) (bundle : Bundle) : Bundle :=
  if Key.Alike bundle.key (operator.key operand) then
    { bundle with members := bundle.members ++ [operand] }
  else bundle

/-- An operand that no bundle takes starts a bundle behind the others, by induction over the
bundles. -/
theorem add_of_absent (h : ∀ bundle ∈ bundles, ¬ Key.Alike bundle.key (operator.key operand))
    : add operator operand bundles = bundles ++ [⟨operator.key operand, [operand]⟩] := by
  induction bundles with
  | nil => rfl
  | cons bundle rest ih =>
      obtain ⟨hbundle, hrest⟩ := List.forall_mem_cons.mp h
      rw [add, if_neg hbundle, ih hrest, List.cons_append]

/-- Only one bundle has a key alike to that of an operand; so all bundles to which the operand
belongs take it. -/
theorem add_of_present (hapart : bundles.Pairwise fun a b => ¬ Key.Alike a.key b.key)
    (h : ∃ bundle ∈ bundles, Key.Alike bundle.key (operator.key operand))
    : add operator operand bundles = bundles.map (taking operator operand) := by
  induction bundles with
  | nil => simp at h
  | cons bundle rest ih =>
      obtain ⟨hbundle, hrest⟩ := List.pairwise_cons.mp hapart
      rw [add, List.map_cons, taking]
      by_cases halike : Key.Alike bundle.key (operator.key operand)
      · have hsame : rest.map (taking operator operand) = rest := by
          refine (List.map_congr_left fun other ho => if_neg fun ha => ?_).trans (List.map_id rest)
          exact hbundle other ho (halike.trans ha.symm)
        rw [if_pos halike, if_pos halike, hsame]
      · obtain ⟨other, ho, ha⟩ := h
        have hother := (List.mem_cons.mp ho).resolve_left fun he => halike (he ▸ ha)
        rw [if_neg halike, if_neg halike, ih hrest ⟨other, hother, ha⟩]

/-- The keys of bundles have the shapes of the keys of the operands. -/
theorem exists_key_shape_iff {shape : Key}
    : (∃ bundle ∈ ofOperands operator operands, bundle.key.shape = shape)
      ↔ ∃ operand ∈ operands, (operator.key operand).shape = shape := by
  constructor
  · rintro ⟨bundle, hb, rfl⟩
    obtain ⟨operand, ho, hkey⟩ := exists_key_eq hb
    exact ⟨operand, ho, congrArg Key.shape hkey⟩
  · rintro ⟨operand, ho, rfl⟩
    obtain ⟨first, hf, hfirst⟩ := Key.exists_firstOccurrence (List.mem_map_of_mem ho)
    exact ⟨_, List.mem_map_of_mem hf, hfirst⟩

/-- One more operand behind the others is added to their bundles. -/
theorem ofOperands_concat (operator : Operator) (operands : List Expr) (operand : Expr)
    : ofOperands operator (operands ++ [operand])
      = add operator operand (ofOperands operator operands) := by
  have hmembers (key : Key)
      : (⟨key, (operands ++ [operand]).filter fun o => Key.Alike key (operator.key o)⟩ : Bundle)
        = taking operator operand
            ⟨key, operands.filter fun o => Key.Alike key (operator.key o)⟩ := by
    unfold taking
    split <;> simp_all
  have hold : (Key.firstOccurrences (operands.map operator.key)).map (fun key =>
        (⟨key, (operands ++ [operand]).filter fun o => Key.Alike key (operator.key o)⟩ : Bundle))
      = (ofOperands operator operands).map (taking operator operand) := by
    rw [ofOperands, List.map_map]
    exact List.map_congr_left fun key _ => hmembers key
  have hapart := (areDivision_ofOperands operator operands).apart
  rw [ofOperands, List.map_append, Key.firstOccurrences_append, List.map_append, hold]
  by_cases h : ∃ other ∈ operands, Key.Alike (operator.key other) (operator.key operand)
  · rw [add_of_present hapart (exists_key_shape_iff.mpr h)]
    simpa [Key.firstOccurrences] using h
  · have hnone : ∀ other ∈ operands, ¬ Key.Alike (operator.key other) (operator.key operand) :=
      fun other ho ha => h ⟨other, ho, ha⟩
    have habsent : ∀ bundle ∈ ofOperands operator operands,
        ¬ Key.Alike bundle.key (operator.key operand) :=
      fun bundle hb ha => h (exists_key_shape_iff.mp ⟨bundle, hb, ha⟩)
    have hsame : (ofOperands operator operands).map (taking operator operand)
        = ofOperands operator operands :=
      (List.map_congr_left fun bundle hb => if_neg (habsent bundle hb)).trans (List.map_id _)
    have hempty
        : operands.filter (fun o => Key.Alike (operator.key operand) (operator.key o)) = [] :=
      List.filter_eq_nil_iff.mpr fun other ho => by simpa [Key.alike_comm] using hnone other ho
    rw [add_of_absent habsent, hsame]
    simpa [Key.firstOccurrences, hempty, Key.Alike.refl] using hnone

/-- The bundles of operands are those that they make one after the other. -/
theorem accumulated_eq (operator : Operator) (operands : List Expr)
    : accumulated operator operands = ofOperands operator operands := by
  induction operands using List.reverseRecOn with
  | nil => rfl
  | append_singleton operands operand ih =>
      rw [ofOperands_concat, ← ih, accumulated, accumulated, List.foldl_append, List.foldl_cons,
        List.foldl_nil]

-----------------------------------------------------------------------------------------
-- Operands in another order
-----------------------------------------------------------------------------------------

/-- Bundles of alike keys with the same members, up to their order. -/
structure Matches (left right : Bundle) : Prop where
  key : Key.Alike left.key right.key
  members : left.members.Perm right.members

/-- Lists of the same bundles, up to the order of the bundles and of the members of each. -/
def MatchInSomeOrder (bundles others : List Bundle) : Prop :=
  ∃ matched, List.Forall₂ Matches bundles matched ∧ matched.Perm others

/-- The keys of the bundles have the same shapes in every order of the operands. -/
theorem map_key_shape_perm (h : operands.Perm others)
    : ((ofOperands operator operands).map fun bundle => bundle.key.shape).Perm
        ((ofOperands operator others).map fun bundle => bundle.key.shape) := by
  have hnodup (operands : List Expr)
      : ((ofOperands operator operands).map fun bundle => bundle.key.shape).Nodup :=
    List.pairwise_map.mpr (areDivision_ofOperands operator operands).apart
  refine (List.perm_ext_iff_of_nodup (hnodup operands) (hnodup others)).mpr fun shape => ?_
  simp only [List.mem_map, exists_key_shape_iff, h.mem_iff]

/-- Bundles of rearranged operands match if their keys are alike. -/
theorem matches_of_alike (h : operands.Perm others) {left right : Bundle}
    (hl : left ∈ ofOperands operator operands) (hr : right ∈ ofOperands operator others)
    (hkey : Key.Alike left.key right.key)
    : left.Matches right := by
  refine ⟨hkey, ?_⟩
  obtain ⟨key, _, rfl⟩ := List.mem_map.mp hl
  obtain ⟨other, _, rfl⟩ := List.mem_map.mp hr
  have hsame : (fun operand => decide (Key.Alike key (operator.key operand)))
      = fun operand => decide (Key.Alike other (operator.key operand)) :=
    funext fun operand => decide_eq_decide.mpr ⟨hkey.symm.trans, hkey.trans⟩
  simpa only [hsame] using h.filter _

/-- The order of operands makes no difference to their bundles but for the order of the bundles and
of their members. -/
theorem matchInSomeOrder_ofOperands (h : operands.Perm others)
    : MatchInSomeOrder (ofOperands operator operands) (ofOperands operator others) := by
  -- Keys of one shape find each other, so some order of the other bundles has the same shapes.
  have hcomp : Relation.Comp (· = List.map (fun bundle : Bundle => bundle.key.shape) ·) List.Perm
      ((ofOperands operator operands).map fun bundle => bundle.key.shape)
      (ofOperands operator others) := by
    rw [List.eq_map_comp_perm]
    exact map_key_shape_perm h
  obtain ⟨matched, hmap, hperm⟩ := hcomp
  refine ⟨matched, ?_, hperm⟩
  have hpairs : List.Forall₂ (fun left right : Bundle => left.key.shape = right.key.shape)
      (ofOperands operator operands) matched := by
    rwa [← List.forall₂_eq_eq_eq, List.forall₂_map_left_iff, List.forall₂_map_right_iff] at hmap
  rw [List.forall₂_iff_zip] at hpairs ⊢
  refine ⟨hpairs.1, fun {left right} hzip => ?_⟩
  obtain ⟨hl, hr⟩ := List.of_mem_zip hzip
  exact matches_of_alike h hl (hperm.subset hr) (hpairs.2 hzip)

end Bundle

/-- What the bundles of operands are. -/
structure Operator.ArePartitioned (operator : Operator) (operands : List Expr)
    (bundles : List Bundle) : Prop where
  /-- The keys are pairwise different. -/
  apart : bundles.Pairwise fun a b => ¬ Key.Alike a.key b.key
  /-- A bundle has members, and its key is that of the first of them. -/
  led : ∀ bundle ∈ bundles, bundle.members.head?.map operator.key = some bundle.key
  /-- The members of a bundle are the operands with its key, in their order. -/
  members
    : ∀ bundle ∈ bundles,
        bundle.members = operands.filter fun operand => Key.Alike bundle.key (operator.key operand)
  /-- Every operand is in one bundle, once. -/
  once : (bundles.flatMap Bundle.members).Perm operands
  /-- The bundles stand in the order of their first members. -/
  ordered
    : bundles.Pairwise fun a b =>
        operator.firstPosition operands a.key < operator.firstPosition operands b.key

/-- The bundles of operands partition them. -/
theorem Bundle.arePartitioned_ofOperands (operator : Operator) (operands : List Expr)
    : operator.ArePartitioned operands (ofOperands operator operands) where
  apart := (areDivision_ofOperands operator operands).apart
  led := by
    intro bundle hb
    obtain ⟨first, rest, hmembers, hkey⟩ := (areDivision_ofOperands operator operands).led bundle hb
    rw [hmembers, ← hkey]
    rfl
  members := by
    intro bundle hb
    obtain ⟨key, _, rfl⟩ := List.mem_map.mp hb
    rfl
  once := members_perm operator operands
  ordered := pairwise_firstPosition operator operands

/-- A node is well formed if its operands are, in any order, those of a well-formed node. -/
theorem Expr.WellFormed.rearranged {e f : Expr} {operator : Operator} {operands others : List Expr}
    (h : e.WellFormed) (he : e.operation? = some (operator, operands))
    (hf : f.operation? = some (operator, others)) (hperm : others.Perm operands)
    : f.WellFormed := by
  obtain ⟨hlength, hoperands⟩ := h.operands he
  rw [wellFormed_iff_operands hf, hperm.length_eq]
  exact ⟨hlength, fun operand ho => hoperands operand (hperm.subset ho)⟩

/-- Rearranging the operands of a well-formed sum or product changes neither whether they are worth
collecting nor, up to the order, their bundles. Before and after, the bundles are those that the
operands make one after the other, and they partition the operands. -/
theorem bundles_rearranged {e f : Expr} {operator : Operator} {operands others : List Expr}
    (h : e.WellFormed) (he : e.operation? = some (operator, operands))
    (hf : f.operation? = some (operator, others)) (hperm : others.Perm operands)
    : (∃ isCollectable, e.isCollectable = .ok isCollectable ∧ f.isCollectable = .ok isCollectable)
      ∧ ∃ bundles rearranged,
          e.bundles = .ok bundles
          ∧ f.bundles = .ok rearranged
          ∧ Bundle.MatchInSomeOrder rearranged bundles
          ∧ bundles = Bundle.accumulated operator operands
          ∧ rearranged = Bundle.accumulated operator others
          ∧ operator.ArePartitioned operands bundles
          ∧ operator.ArePartitioned others rearranged := by
  have hwell := h.rearranged he hf hperm
  refine ⟨⟨_, h.isCollectable_eq, ?_⟩, _, _, h.bundles_eq_ok he, hwell.bundles_eq_ok hf,
    Bundle.matchInSomeOrder_ofOperands hperm, (Bundle.accumulated_eq _ _).symm,
    (Bundle.accumulated_eq _ _).symm, Bundle.arePartitioned_ofOperands _ _,
    Bundle.arePartitioned_ofOperands _ _⟩
  simp only [hwell.isCollectable_eq, Expr.isSettled, he, hf, Bundle.areCollectable_perm hperm]

/-- Multiples of a power that is written in two ways: which way the key is written depends on which
multiple comes first. -/
theorem bundles_rearranged_powers
    : let square := Expr.power (.symbol "x") (.constant ⟨2, false, some "2"⟩)
      let written := Expr.power (.symbol "x") (.constant ⟨2, true, some "4/2"⟩)
      let double := Expr.product [.constant .two, written] true
      let y := Expr.symbol "y"
      let e := Expr.sum [square, y, double, .constant .one]
      let f := Expr.sum [double, .constant .one, y, square]
      e.WellFormed
      ∧ (∃ isCollectable,
          e.isCollectable = .ok isCollectable ∧ f.isCollectable = .ok isCollectable)
      ∧ ∃ bundles rearranged,
          e.bundles = .ok bundles ∧ f.bundles = .ok rearranged
          ∧ Bundle.MatchInSomeOrder rearranged bundles
          ∧ bundles.map Bundle.key
            = [.power "x" (.constant ⟨2, false, some "2"⟩), .symbol "y", .constant]
          ∧ rearranged.map Bundle.key
            = [.power "x" (.constant ⟨2, true, some "4/2"⟩), .constant, .symbol "y"] := by
  intro square written double y e f
  have h : e.WellFormed := by decide
  have hperm : [double, .constant .one, y, square].Perm [square, y, double, .constant .one] := by
    decide
  obtain ⟨hcollectable, bundles, rearranged, he, hf, hmatch, rfl, rfl, -, -⟩ :=
    bundles_rearranged h rfl (rfl : f.operation? = some (.sum, _)) hperm
  exact ⟨h, hcollectable, _, _, he, hf, hmatch, rfl, rfl⟩

end TermGrouping
