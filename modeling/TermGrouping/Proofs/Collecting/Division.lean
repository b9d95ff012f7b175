import TermGrouping.Proofs.Bundles
import TermGrouping.Proofs.WellFormed

/-! Divisions of operands. Bundles divide operands if each has a key of its own, which is that of
its first member and alike to those of all others. Dividing operands that already stand bundle by
bundle gives back the bundles, in the order in which they stand.
-/

namespace TermGrouping

namespace Key

theorem Alike.refl (key : Key) : Alike key key := rfl

theorem Alike.symm {a b : Key} (h : Alike a b) : Alike b a := Eq.symm h

theorem Alike.trans {a b c : Key} (hab : Alike a b) (hbc : Alike b c) : Alike a c :=
  Eq.trans hab hbc

theorem alike_comm {a b : Key} : Alike a b ↔ Alike b a := ⟨Alike.symm, Alike.symm⟩

-----------------------------------------------------------------------------------------
-- First occurrences
-----------------------------------------------------------------------------------------

/-- No two of the remaining keys are alike, by induction over the keys. -/
theorem pairwise_firstOccurrences (keys : List Key)
    : (firstOccurrences keys).Pairwise fun a b => ¬ Alike a b := by
  induction keys with
  | nil => exact .nil
  | cons key rest ih =>
      refine List.pairwise_cons.mpr ⟨?_, ih.filter _⟩
      intro other ho
      simpa using (List.mem_filter.mp ho).2

/-- A first occurrence is the first of the keys alike to it. -/
theorem find?_of_mem_firstOccurrences {keys : List Key} {key : Key}
    (h : key ∈ firstOccurrences keys)
    : keys.find? (fun other => Alike key other) = some key := by
  induction keys with
  | nil => cases h
  | cons first rest ih =>
      rcases List.mem_cons.mp h with rfl | h
      · exact List.find?_cons_of_pos (decide_eq_true (rfl : Alike key key))
      · obtain ⟨hrest, hnot⟩ := List.mem_filter.mp h
        have hnot : ¬ Alike key first := fun ha => by simp [ha.symm] at hnot
        rw [List.find?_cons_of_neg (by simpa using hnot)]
        exact ih hrest

/-- Every key is alike to one of the first occurrences. -/
theorem exists_firstOccurrence {keys : List Key} {key : Key} (h : key ∈ keys)
    : ∃ first ∈ firstOccurrences keys, Alike first key := by
  have hone := countP_firstOccurrences ⟨key, h, (rfl : Alike key key)⟩
  obtain ⟨first, hf, ha⟩ := List.countP_pos_iff.mp (hone ▸ Nat.one_pos)
  exact ⟨first, hf, of_decide_eq_true ha⟩

/-- The first occurrences of a list, and those of what follows that the list does not have. -/
theorem firstOccurrences_append (keys others : List Key)
    : firstOccurrences (keys ++ others)
      = firstOccurrences keys
        ++ (firstOccurrences others).filter fun other => ∀ key ∈ keys, ¬ Alike key other := by
  induction keys with
  | nil => exact (List.filter_eq_self.mpr (by simp)).symm
  | cons key rest ih =>
      simp [firstOccurrences, ih, List.filter_filter, Bool.decide_and]

/-- Keys that are all alike have one first occurrence. -/
theorem firstOccurrences_of_alike {key : Key} {rest : List Key} (h : ∀ k ∈ rest, Alike key k)
    : firstOccurrences (key :: rest) = [key] := by
  rw [firstOccurrences, List.filter_eq_nil_iff.mpr]
  intro k hk
  simp [h k (mem_of_mem_firstOccurrences hk)]

/-- There are several first occurrences exactly if two keys are not alike. -/
theorem two_le_length_firstOccurrences {keys : List Key}
    : 2 ≤ (firstOccurrences keys).length ↔ ∃ a ∈ keys, ∃ b ∈ keys, ¬ Alike a b := by
  cases keys with
  | nil => simp [firstOccurrences]
  | cons key rest =>
      rw [firstOccurrences, List.length_cons]
      refine Iff.trans (Nat.succ_le_succ_iff.trans List.length_pos_iff_exists_mem) ⟨?_, ?_⟩
      · rintro ⟨other, ho⟩
        obtain ⟨hrest, hnot⟩ := List.mem_filter.mp ho
        exact ⟨key, List.mem_cons_self, other,
          List.mem_cons_of_mem key (mem_of_mem_firstOccurrences hrest), by simpa using hnot⟩
      · rintro ⟨a, ha, b, hb, hab⟩
        have hother : ∃ c ∈ rest, ¬ Alike key c := by
          by_cases hka : Alike key a
          · have hkb : ¬ Alike key b := fun hkb => hab (hka.symm.trans hkb)
            exact ⟨b, (List.mem_cons.mp hb).resolve_left fun he => hkb (he ▸ rfl), hkb⟩
          · exact ⟨a, (List.mem_cons.mp ha).resolve_left fun he => hka (he ▸ rfl), hka⟩
        obtain ⟨c, hc, hkc⟩ := hother
        obtain ⟨first, hf, hfc⟩ := exists_firstOccurrence hc
        exact ⟨first, List.mem_filter.mpr ⟨hf, decide_eq_true fun hk => hkc (hk.trans hfc)⟩⟩

end Key

namespace Bundle

/-- Bundles with keys that are not alike, where each key is that of the first member and alike to
those of all members. -/
structure AreDivision (operator : Operator) (bundles : List Bundle) : Prop where
  apart : bundles.Pairwise fun a b => ¬ Key.Alike a.key b.key
  alike : ∀ bundle ∈ bundles, ∀ m ∈ bundle.members, Key.Alike bundle.key (operator.key m)
  led : ∀ bundle ∈ bundles, ∃ first rest,
    bundle.members = first :: rest ∧ operator.key first = bundle.key

variable {operator : Operator} {bundles : List Bundle} {operands : List Expr}

/-- The bundles of operands divide them. -/
theorem areDivision_ofOperands (operator : Operator) (operands : List Expr)
    : AreDivision operator (ofOperands operator operands) where
  apart := List.pairwise_map.mpr (Key.pairwise_firstOccurrences _)
  alike := by
    intro bundle hb m hm
    obtain ⟨key, _, rfl⟩ := List.mem_map.mp hb
    simpa using (List.mem_filter.mp hm).2
  led := by
    intro bundle hb
    obtain ⟨key, hk, rfl⟩ := List.mem_map.mp hb
    have hfind := Key.find?_of_mem_firstOccurrences hk
    rw [List.find?_map, ← List.head?_filter] at hfind
    obtain ⟨first, hfirst, hkey⟩ := Option.map_eq_some_iff.mp hfind
    obtain ⟨rest, hrest⟩ := List.head?_eq_some_iff.mp hfirst
    exact ⟨first, rest, hrest, hkey⟩

namespace AreDivision

/-- The order of bundles does not matter for a division. -/
theorem perm {others : List Bundle} (h : AreDivision operator bundles)
    (hp : others.Perm bundles)
    : AreDivision operator others where
  apart := (hp.pairwise_iff fun hab hba => hab hba.symm).mpr h.apart
  alike := fun bundle hb => h.alike bundle (hp.subset hb)
  led := fun bundle hb => h.led bundle (hp.subset hb)

/-- A division stays one without its first bundle. -/
theorem tail {bundle : Bundle} (h : AreDivision operator (bundle :: bundles))
    : AreDivision operator bundles where
  apart := (List.pairwise_cons.mp h.apart).2
  alike := fun other ho => h.alike other (List.mem_cons_of_mem bundle ho)
  led := fun other ho => h.led other (List.mem_cons_of_mem bundle ho)

/-- The members of the bundles behind one have other keys. -/
theorem not_alike_of_mem_tail {bundle : Bundle} (h : AreDivision operator (bundle :: bundles))
    {m : Expr} (hm : m ∈ bundles.flatMap members)
    : ¬ Key.Alike bundle.key (operator.key m) := by
  obtain ⟨other, ho, hm⟩ := List.mem_flatMap.mp hm
  intro ha
  exact (List.pairwise_cons.mp h.apart).1 other ho (ha.trans (h.tail.alike other ho m hm).symm)

/-- The first key of operands that stand bundle by bundle is that of the first bundle, and the
others are those of the other bundles. -/
theorem firstOccurrences_members {bundle : Bundle} (h : AreDivision operator (bundle :: bundles))
    : Key.firstOccurrences (((bundle :: bundles).flatMap members).map operator.key)
      = bundle.key :: Key.firstOccurrences ((bundles.flatMap members).map operator.key) := by
  obtain ⟨first, rest, hmembers, hfirst⟩ := h.led bundle List.mem_cons_self
  have hrest : ∀ k ∈ rest.map operator.key, Key.Alike bundle.key k := by
    intro k hk
    obtain ⟨m, hm, rfl⟩ := List.mem_map.mp hk
    exact h.alike bundle List.mem_cons_self m (hmembers ▸ List.mem_cons_of_mem first hm)
  rw [List.flatMap_cons, List.map_append, hmembers, List.map_cons, hfirst,
    Key.firstOccurrences_append, Key.firstOccurrences_of_alike hrest, List.singleton_append,
    List.filter_eq_self.mpr]
  -- No key of another bundle is left out, because it would be alike to that of the first one.
  intro other ho
  obtain ⟨m, hm, rfl⟩ := List.mem_map.mp (Key.mem_of_mem_firstOccurrences ho)
  refine decide_eq_true fun key hk ha => h.not_alike_of_mem_tail hm ?_
  rcases List.mem_cons.mp hk with rfl | hk
  · exact ha
  · exact (hrest key hk).trans ha

/-- The bundles of operands that stand bundle by bundle are the bundles in which they stand. -/
theorem ofOperands_members (h : AreDivision operator bundles)
    : ofOperands operator (bundles.flatMap members) = bundles := by
  induction bundles with
  | nil => rfl
  | cons bundle bundles ih =>
      have hothers (m : Expr) (hm : m ∈ bundles.flatMap members) := h.not_alike_of_mem_tail hm
      have halike := h.alike bundle List.mem_cons_self
      have hown : bundle.members.filter (fun m => Key.Alike bundle.key (operator.key m))
          = bundle.members :=
        List.filter_eq_self.mpr fun m hm => decide_eq_true (halike m hm)
      have hnone : (bundles.flatMap members).filter
          (fun m => Key.Alike bundle.key (operator.key m)) = [] :=
        List.filter_eq_nil_iff.mpr fun m hm => by simpa using hothers m hm
      rw [ofOperands, h.firstOccurrences_members, List.map_cons, List.flatMap_cons,
        List.filter_append, hown, hnone, List.append_nil]
      refine congrArg (bundle :: ·) (Eq.trans (List.map_congr_left fun key hk => ?_) (ih h.tail))
      have hskip : bundle.members.filter (fun m => Key.Alike key (operator.key m)) = [] := by
        refine List.filter_eq_nil_iff.mpr fun m hm => ?_
        obtain ⟨other, ho, rfl⟩ := List.mem_map.mp (Key.mem_of_mem_firstOccurrences hk)
        have hnot : ¬ Key.Alike (operator.key other) (operator.key m) := fun ha =>
          hothers other ho ((halike m hm).trans ha.symm)
        simpa using hnot
      rw [List.filter_append, hskip, List.nil_append]

end AreDivision

-----------------------------------------------------------------------------------------
-- The order of the ranks
-----------------------------------------------------------------------------------------

theorem ofKinds_append (kinds : List KeyKind) (left right : List Bundle)
    : ofKinds kinds (left ++ right) = ofKinds kinds left ++ ofKinds kinds right :=
  List.filter_append ..

/-- Choosing the same kinds a second time changes nothing. -/
theorem ofKinds_self (kinds : List KeyKind) (bundles : List Bundle)
    : ofKinds kinds (ofKinds kinds bundles) = ofKinds kinds bundles := by
  simp [ofKinds]

/-- No bundle is of two ranks without a common kind. -/
theorem ofKinds_of_disjoint {kinds others : List KeyKind} (h : ∀ kind ∈ kinds, kind ∉ others)
    (bundles : List Bundle)
    : ofKinds kinds (ofKinds others bundles) = [] := by
  rw [ofKinds, ofKinds, List.filter_filter, List.filter_eq_nil_iff]
  intro bundle _ hb
  simp only [Bool.and_eq_true, List.contains_iff_mem] at hb
  exact h _ hb.1 hb.2

/-- Bundles in the order of their ranks stay in their order. -/
theorem ordered_ordered (operator : Operator) (bundles : List Bundle)
    : ordered operator (ordered operator bundles) = ordered operator bundles := by
  cases operator <;>
    simp [ordered, ranks, ofKinds_append, ofKinds_self, ofKinds_of_disjoint]

/-- The bundles of the operands in the order of their ranks divide the operands. -/
theorem areDivision_ordered (operator : Operator) (operands : List Expr)
    : AreDivision operator (ordered operator (ofOperands operator operands)) :=
  (areDivision_ofOperands operator operands).perm (ordered_perm operator operands)

-----------------------------------------------------------------------------------------
-- Operands worth collecting
-----------------------------------------------------------------------------------------

/-- A list gets longer if each member is replaced by at least one, and one by several. -/
theorem length_lt_flatMap {α β : Type} (f : α → List β) {l : List α}
    (hone : ∀ a ∈ l, 1 ≤ (f a).length) (hseveral : ∃ a ∈ l, 2 ≤ (f a).length)
    : l.length < (l.flatMap f).length := by
  induction l with
  | nil => simp at hseveral
  | cons a l ih =>
      rw [List.forall_mem_cons] at hone
      have hle := Expr.length_le_flatMap f l hone.2
      simp only [List.length_cons, List.flatMap_cons, List.length_append]
      obtain ⟨b, hb, htwo⟩ := hseveral
      rcases List.mem_cons.mp hb with rfl | hb
      · omega
      · have hlt := ih hone.2 ⟨b, hb, htwo⟩
        omega

/-- There are several bundles exactly if two keys are not alike. -/
theorem two_le_length_ofOperands
    : 2 ≤ (ofOperands operator operands).length
      ↔ ∃ a ∈ operands, ∃ b ∈ operands, ¬ Key.Alike (operator.key a) (operator.key b) := by
  rw [ofOperands, List.length_map, Key.two_le_length_firstOccurrences]
  constructor
  · rintro ⟨_, hka, _, hkb, hab⟩
    obtain ⟨a, ha, rfl⟩ := List.mem_map.mp hka
    obtain ⟨b, hb, rfl⟩ := List.mem_map.mp hkb
    exact ⟨a, ha, b, hb, hab⟩
  · rintro ⟨a, ha, b, hb, hab⟩
    exact ⟨_, List.mem_map_of_mem ha, _, List.mem_map_of_mem hb, hab⟩

/-- A bundle has several members exactly if two operands have alike keys. -/
theorem exists_several_iff
    : (∃ bundle ∈ ofOperands operator operands, 2 ≤ bundle.members.length)
      ↔ ¬ operands.Pairwise fun a b => ¬ Key.Alike (operator.key a) (operator.key b) := by
  constructor
  · rintro ⟨bundle, hb, hlength⟩ hpairwise
    have halike := (areDivision_ofOperands operator operands).alike bundle hb
    obtain ⟨key, hk, rfl⟩ := List.mem_map.mp hb
    have hmembers := hpairwise.sublist (List.filter_sublist (p := fun operand =>
      decide (Key.Alike key (operator.key operand))))
    dsimp only at hlength halike
    cases hm : operands.filter fun operand => Key.Alike key (operator.key operand) with
    | nil => simp [hm] at hlength
    | cons a rest =>
        rw [hm] at hmembers hlength halike
        cases rest with
        | nil => simp at hlength
        | cons b rest =>
            have hab := (halike a (by simp)).symm.trans (halike b (by simp))
            exact (List.pairwise_cons.mp hmembers).1 b List.mem_cons_self hab
  · intro hnot
    simp only [List.pairwise_iff_forall_sublist, Classical.not_forall, Classical.not_not] at hnot
    obtain ⟨a, b, hsub, hab⟩ := hnot
    have ha : a ∈ operands := hsub.subset (by simp)
    obtain ⟨key, hk, hka⟩ := Key.exists_firstOccurrence (List.mem_map_of_mem (f := operator.key) ha)
    refine ⟨_, List.mem_map_of_mem hk, ?_⟩
    have hfilter := hsub.filter fun operand => Key.Alike key (operator.key operand)
    simpa [hka, hka.trans hab] using hfilter.length_le

/-- Operands are worth collecting if two keys are alike and two are not. -/
theorem areCollectable_iff
    : areCollectable (ofOperands operator operands) = true
      ↔ (∃ a ∈ operands, ∃ b ∈ operands, ¬ Key.Alike (operator.key a) (operator.key b))
        ∧ ¬ operands.Pairwise fun a b => ¬ Key.Alike (operator.key a) (operator.key b) := by
  rw [areCollectable, Bool.and_eq_true, decide_eq_true_eq, two_le_length_ofOperands,
    List.any_eq_true, ← exists_several_iff]
  simp

/-- Whether operands are worth collecting does not depend on their order. -/
theorem areCollectable_perm {others : List Expr} (h : operands.Perm others)
    : areCollectable (ofOperands operator operands)
      = areCollectable (ofOperands operator others) := by
  rw [Bool.eq_iff_iff, areCollectable_iff, areCollectable_iff]
  refine and_congr ?_ (not_congr (h.pairwise_iff fun hab hba => hab hba.symm))
  simp only [h.mem_iff]

/-- There are fewer bundles than operands if a bundle has several members. -/
theorem length_ordered_lt (h : areCollectable (ofOperands operator operands) = true)
    : (ordered operator (ofOperands operator operands)).length < operands.length := by
  have hsize := length_lt_flatMap members (l := ordered operator (ofOperands operator operands))
  rw [(ordered_members_perm operator operands).length_eq] at hsize
  have hordered := ordered_perm operator operands
  simp only [areCollectable, Bool.and_eq_true, List.any_eq_true, decide_eq_true_eq] at h
  obtain ⟨bundle, hb, hseveral⟩ := h.2
  refine hsize (fun bundle hb => ?_) ⟨bundle, hordered.mem_iff.mpr hb, hseveral⟩
  exact List.length_pos_iff.mpr (members_ne_nil (hordered.mem_iff.mp hb))

end Bundle

end TermGrouping
