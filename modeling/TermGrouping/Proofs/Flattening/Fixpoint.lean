import TermGrouping.Checked
import TermGrouping.Proofs.Flattening.Normality
import TermGrouping.Proofs.Leaves.Tips

/-! The fixed points of flattening. A normal tree has nothing that flattening would touch, so it
comes back in all its attributes; and since every flat tree is normal, the normal trees are all the
trees that come back.
-/

namespace TermGrouping

namespace Checked

theorem allExpressions_eq_ok {e : Expr} (h : e.IsPure) : allExpressions e = .ok () := by
  have hfirst : e.firstValue? = none := List.findSome?_eq_none_iff.mpr h
  rw [allExpressions, hfirst]

/-- Flattening refuses no tree without plain values. -/
theorem flatten_eq_ok_of_isPure {e : Expr} (h : e.IsPure) : flatten e = .ok e.flatten := by
  rw [flatten, allExpressions_eq_ok h]
  rfl

/-- A tree without plain values has its leaves. -/
theorem leaves_eq_ok {e : Expr} (h : e.IsPure) : leaves e = .ok e.leaves := by
  rw [leaves, allExpressions_eq_ok h]
  rfl

end Checked

namespace Expr

/-- A normal tree is its own flat form. -/
theorem IsNormal.flatten_eq_self {e : Expr} (h : e.IsNormal) (hpure : e.IsPure)
    : e.flatten = e := by
  induction e using induct_children with
  | step e ih =>
      obtain ⟨hnode, hchildren⟩ := (isNormal_iff e).mp h
      have hkids := ((isPure_iff e).mp hpure).2
      have hflat (child : Expr) (hc : child ∈ e.children) : child.flatten = child :=
        ih child hc (hchildren child hc) (hkids child hc)
      have hmap : e.children.map flatten = e.children :=
        (List.map_congr_left hflat).trans (List.map_id' _)
      have hvalue (child : Expr) (hc : child ∈ e.children) : child.flatten.value? = none := by
        rw [hflat child hc]
        exact ((isPure_iff child).mp (hkids child hc)).1
      calc
        e.flatten = e.rebuild (e.children.map flatten) :=
          flatten_eq_rebuild (by rwa [hmap, rebuild_children]) hvalue
        _ = e := by rw [hmap, rebuild_children]

/-- Flattening succeeds on every tree without plain values. Its result is normal, it changes
nothing exactly in the trees that are normal, and so it changes nothing a second time. -/
theorem flatten_eq_self_iff_isNormal {e : Expr} (h : e.IsPure)
    : Checked.flatten e = .ok e.flatten
      ∧ e.flatten.IsNormal
      ∧ (e.flatten = e ↔ e.IsNormal)
      ∧ e.flatten.flatten = e.flatten := by
  have hnormal := isNormal_flatten e
  refine ⟨Checked.flatten_eq_ok_of_isPure h, hnormal, ⟨fun he => he ▸ hnormal, fun hn => ?_⟩, ?_⟩
  · exact hn.flatten_eq_self h
  · exact hnormal.flatten_eq_self ((isPure_flatten e).mpr h)

/-- Brackets behind brackets, and brackets that can go once their content is flat, go in one
pass; the bracketed sum under the caret stays, and so do the explicit and the implicit product. -/
theorem flatten_eq_self_iff_isNormal_nested
    : let x := symbol "x"
      let half := constant ⟨1 / 2, true, some "1/2"⟩
      let base := group (sum [x, half])
      let e := product [group (group (product [x, group (group half)] true)), power base (group x)]
        true
      let flat := product [x, half, power base x] false
      e.IsPure
      ∧ e.flatten = flat
      ∧ (e.flatten = e ↔ e.IsNormal)
      ∧ flat.IsNormal
      ∧ flat.flatten = flat := by
  intro x half base e flat
  have hpure : e.IsPure := by decide
  have hflat : e.flatten = flat := by decide +kernel
  obtain ⟨_, hnormal, hiff, hagain⟩ := flatten_eq_self_iff_isNormal hpure
  rw [hflat] at hnormal hagain
  exact ⟨hpure, hflat, hiff, hnormal, hagain⟩

end Expr

end TermGrouping
