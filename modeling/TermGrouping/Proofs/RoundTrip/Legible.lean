import TermGrouping.Proofs.RoundTrip.Coefficients
import TermGrouping.Proofs.RoundTrip.Misreading

/-! Trees that can be read back from their texts. A tree comes back from its text exactly if the
text keeps its tokens apart, no fraction stands in an exponent and no base has a sign of its own.
-/

namespace TermGrouping.Expr

/-- A node that is read as it is written: its exponent does not start with a fraction, and its
base has no sign that would be read as that of the power. -/
structure IsLegibleNode (node : Expr) : Prop where
  exponent : node.exponentFits = true
  base : node.hasSignedBase = false

instance (node : Expr) : Decidable node.IsLegibleNode :=
  decidable_of_iff (node.exponentFits = true ∧ node.hasSignedBase = false)
    ⟨fun h => ⟨h.1, h.2⟩, fun h => ⟨h.exponent, h.base⟩⟩

def HasLegibleNodes (e : Expr) : Prop := ∀ node ∈ e.subtrees, node.IsLegibleNode

instance (e : Expr) : Decidable e.HasLegibleNodes :=
  inferInstanceAs (Decidable (∀ node ∈ e.subtrees, node.IsLegibleNode))

/-- A tree of legible nodes in whose text no numeral runs into another one, and no letters into
the name of a function. -/
structure IsLegible (e : Expr) : Prop where
  nodes : e.HasLegibleNodes
  apart : Token.allApart e.tokens = true

instance (e : Expr) : Decidable e.IsLegible :=
  decidable_of_iff (e.HasLegibleNodes ∧ Token.allApart e.tokens = true)
    ⟨fun h => ⟨h.1, h.2⟩, fun h => ⟨h.nodes, h.apart⟩⟩

/-- Whether a tree has a text, and the text is read as the same tree up to groups, nested
operators and written forms. -/
def RoundTrips (e : Expr) : Prop :=
  ∃ text u, e.text = .ok text ∧ parse text = .ok u
    ∧ Alike u.ungrouped.spliced e.ungrouped.spliced

-----------------------------------------------------------------------------------------
-- Splicing before groups are erased
-----------------------------------------------------------------------------------------

/-- Written forms play no part in splicing. -/
theorem spliced_shape (e : Expr) : e.shape.spliced = e.spliced.shape := by
  induction e using Expr.induct with
  | constant | symbol | foreign => rfl
  | power _ _ iha ihb | quotient _ _ iha ihb => simp [shape, spliced, iha, ihb]
  | group _ ih => simp [shape, spliced, ih]
  | sum operands ih =>
      simp only [shape, spliced, shapeAll_eq_map, splicedAll_eq_map, List.map_map,
        List.flatMap_map, List.map_flatMap]
      congr 1
      refine List.flatMap_congr fun e he => ?_
      rw [Function.comp_apply, ih e he, termsOf_shape]
  | product operands _ ih =>
      simp only [shape, spliced, shapeAll_eq_map, splicedAll_eq_map, List.map_map,
        List.flatMap_map, List.map_flatMap]
      congr 1
      refine List.flatMap_congr fun e he => ?_
      rw [Function.comp_apply, ih e he, factorsOf_shape]
  | call _ arguments ih =>
      simp only [shape, spliced, shapeAll_eq_map, splicedAll_eq_map, List.map_map]
      congr 1
      exact List.map_congr_left ih

/-- Alike trees stay alike when they are spliced, because splicing commutes with the shape. -/
theorem Alike.spliced {a b : Expr} (h : Alike a b) : Alike a.spliced b.spliced := by
  unfold Alike at h ⊢
  rw [← spliced_shape, ← spliced_shape, h]

/-- The terms of the terms of a tree are its own. -/
theorem termsOf_ungrouped_spliced (e : Expr)
    : (termsOf e).flatMap (fun t => termsOf t.ungrouped.spliced)
      = termsOf e.ungrouped.spliced := by
  cases e with
  | sum => simp [termsOf, ungrouped, Expr.spliced, ungroupedAll_eq_map, splicedAll_eq_map,
      List.flatMap_map]
  | _ => simp [termsOf]

theorem factorsOf_ungrouped_spliced (e : Expr)
    : (factorsOf e).flatMap (fun t => factorsOf t.ungrouped.spliced)
      = factorsOf e.ungrouped.spliced := by
  cases e with
  | product => simp [factorsOf, ungrouped, Expr.spliced, ungroupedAll_eq_map, splicedAll_eq_map,
      List.flatMap_map]
  | _ => simp [factorsOf]

/-- Operators that are spliced before groups are erased are spliced behind it anyway. -/
theorem spliced_ungrouped_spliced (e : Expr)
    : e.spliced.ungrouped.spliced = e.ungrouped.spliced := by
  induction e using Expr.induct with
  | constant | symbol | foreign => rfl
  | power _ _ iha ihb | quotient _ _ iha ihb => simp [ungrouped, Expr.spliced, iha, ihb]
  | group _ ih => exact ih
  | sum operands ih =>
      simp only [ungrouped, Expr.spliced, ungroupedAll_eq_map, splicedAll_eq_map, List.map_map,
        List.flatMap_map, List.flatMap_assoc, Function.comp_apply]
      congr 1
      refine List.flatMap_congr fun e he => ?_
      rw [termsOf_ungrouped_spliced, ih e he]
  | product operands _ ih =>
      simp only [ungrouped, Expr.spliced, ungroupedAll_eq_map, splicedAll_eq_map, List.map_map,
        List.flatMap_map, List.flatMap_assoc, Function.comp_apply]
      congr 1
      refine List.flatMap_congr fun e he => ?_
      rw [factorsOf_ungrouped_spliced, ih e he]
  | call _ arguments ih =>
      simp only [ungrouped, Expr.spliced, ungroupedAll_eq_map, splicedAll_eq_map, List.map_map]
      congr 1
      exact List.map_congr_left ih

-----------------------------------------------------------------------------------------
-- Legible trees and no others come back
-----------------------------------------------------------------------------------------

/-- A readable tree that is legible comes back from its text. -/
theorem IsReadable.roundTrips_of_isLegible {e : Expr} (h : e.IsReadable) (hl : e.IsLegible)
    : e.RoundTrips := by
  have hfractions := h.fractionsFit_iff.mpr fun node hn => (hl.nodes node hn).exponent
  have hbases := fun node hn => (hl.nodes node hn).base
  obtain ⟨text, htext, hparse⟩ := h.parse_text hfractions hl.apart
    (hidesSign_of_hasSignedBase hbases)
  refine ⟨text, e.reread, htext, hparse, ?_⟩
  have hspliced := (h.alike_reread hbases).spliced
  rwa [spliced_ungrouped_spliced] at hspliced

/-- A readable tree that comes back from its text is legible. -/
theorem IsReadable.isLegible_of_roundTrips {e : Expr} (h : e.IsReadable) (hr : e.RoundTrips)
    : e.IsLegible := by
  obtain ⟨text, u, htext, hparse, halike⟩ := hr
  obtain ⟨others, hlexes, hderives, hdefined⟩ := parse_eq_ok_iff.mp hparse
  have hwritten := h.text_eq
  rw [htext] at hwritten
  obtain rfl := Except.ok.inj hwritten
  rw [String.toList_ofList] at hlexes
  -- The same trace leaves the tokens of the text no choice.
  have hothers := hlexes.readable hdefined
  obtain ⟨hfractions, hapart⟩ := apart_of_foldl_step h.tokens_readable h.wellSpaced hothers hlexes
    ((hderives.foldl_step hothers ⟨[], none⟩).trans
      ((trace_eq_of_alike halike _).trans (h.foldl_step _).symm))
  obtain rfl := hlexes.unique (lexes_printed h.tokens_readable hfractions hapart)
  have hsigns := h.hidesSign_of_derives hderives (measure_eq_of_alike _ halike)
  obtain rfl := hderives.unique (h.rereads hfractions hsigns).formula
  have hbases := h.hasSignedBase_of_reread (measure_eq_of_alike _ halike)
  exact ⟨fun node hn => ⟨h.fractionsFit_iff.mp hfractions node hn, hbases node hn⟩, hapart⟩

/-- A readable tree comes back from its text exactly if it is legible. -/
theorem IsReadable.roundTrips_iff {e : Expr} (h : e.IsReadable)
    : e.RoundTrips ↔ e.IsLegible :=
  ⟨h.isLegible_of_roundTrips, h.roundTrips_of_isLegible⟩

end TermGrouping.Expr
