import TermGrouping.Bundle.Basic

/-! Bundles divide the operands among themselves. Each operand belongs to the bundle of one key,
and each bundle has one rank, so neither the division nor the reordering loses or repeats any.
-/

namespace TermGrouping

/-- An element occurs in the classes of a list as often as in the list, for each class it is in. -/
theorem count_flatMap_filter {κ α : Type} [DecidableEq α] (p : κ → α → Bool) (classes : List κ)
    (l : List α) (a : α)
    : (classes.flatMap fun k => l.filter (p k)).count a
      = classes.countP (fun k => p k a) * l.count a := by
  induction classes with
  | nil => simp
  | cons k classes ih =>
      rw [List.flatMap_cons, List.count_append, ih, List.countP_cons]
      cases hp : p k a with
      | true =>
          rw [List.count_filter hp, if_pos rfl, Nat.add_mul]
          omega
      | false =>
          have hnot : a ∉ l.filter (p k) := fun hm => by simp [hp] at hm
          rw [List.count_eq_zero.mpr hnot]
          simp

/-- A list whose elements fall into one class each is a permutation of its classes. -/
theorem perm_flatMap_filter {κ α : Type} [DecidableEq α] (p : κ → α → Bool) (classes : List κ)
    (l : List α) (h : ∀ a ∈ l, classes.countP (fun k => p k a) = 1)
    : (classes.flatMap fun k => l.filter (p k)).Perm l := by
  rw [List.perm_iff_count]
  intro a
  rw [count_flatMap_filter]
  by_cases ha : a ∈ l
  · rw [h a ha, Nat.one_mul]
  · rw [List.count_eq_zero.mpr ha, Nat.mul_zero]

namespace Key

/-- Among first occurrences, exactly one key is alike to a key of the list. -/
theorem countP_firstOccurrences {keys : List Key} {key : Key} (h : ∃ k ∈ keys, Alike k key)
    : (firstOccurrences keys).countP (fun k => Alike k key) = 1 := by
  have hnone (l : List Key) (hl : ∀ k ∈ l, ¬ Alike k key)
      : l.countP (fun k => Alike k key) = 0 := by
    simpa [List.countP_eq_zero] using hl
  induction keys with
  | nil =>
      obtain ⟨k, hk, _⟩ := h
      cases hk
  | cons first rest ih =>
      rw [firstOccurrences, List.countP_cons]
      by_cases hf : Alike first key
      · have hrest := hnone ((firstOccurrences rest).filter fun other => ¬ Alike first other) <| by
          intro k hk hak
          have hnot : ¬ Alike first k := by simpa using (List.mem_filter.mp hk).2
          exact hnot (hf.trans hak.symm)
        rw [hrest]
        simp [hf]
      · obtain ⟨k, hk, hak⟩ := h
        have hkr : k ∈ rest := (List.mem_cons.mp hk).resolve_left fun he => hf (he ▸ hak)
        have hone := ih ⟨k, hkr, hak⟩
        rw [List.countP_filter]
        have hsame (other : Key)
            : (decide (Alike other key) && decide (¬ Alike first other))
              = decide (Alike other key) := by
          by_cases ho : Alike other key
          · have hno : ¬ Alike first other := fun hfo => hf (Eq.trans hfo ho)
            simp [ho, hno]
          · simp [ho]
        simp only [hsame, hone, hf, decide_false, if_neg Bool.false_ne_true]

theorem mem_of_mem_firstOccurrences {keys : List Key} {key : Key}
    (h : key ∈ firstOccurrences keys)
    : key ∈ keys := by
  induction keys with
  | nil => cases h
  | cons first rest ih =>
      rcases List.mem_cons.mp h with rfl | h
      · exact List.mem_cons_self
      · exact List.mem_cons_of_mem first (ih (List.mem_filter.mp h).1)

end Key

namespace Bundle

/-- The members of all bundles are the operands. -/
theorem members_perm (operator : Operator) (operands : List Expr)
    : ((ofOperands operator operands).flatMap members).Perm operands := by
  have h := perm_flatMap_filter (fun key operand => Key.Alike key (operator.key operand))
    (Key.firstOccurrences (operands.map operator.key)) operands fun operand ho =>
      Key.countP_firstOccurrences ⟨_, List.mem_map_of_mem ho, rfl⟩
  simpa [ofOperands, List.flatMap_map] using h

/-- The key of a bundle is that of an operand. -/
theorem exists_key_eq {operator : Operator} {operands : List Expr} {bundle : Bundle}
    (h : bundle ∈ ofOperands operator operands)
    : ∃ operand ∈ operands, operator.key operand = bundle.key := by
  obtain ⟨key, hk, rfl⟩ := List.mem_map.mp h
  exact List.mem_map.mp (Key.mem_of_mem_firstOccurrences hk)

/-- The members of a bundle are operands, because they are a filter of them. -/
theorem members_subset {operator : Operator} {operands : List Expr} {bundle : Bundle}
    (h : bundle ∈ ofOperands operator operands) {operand : Expr} (ho : operand ∈ bundle.members)
    : operand ∈ operands := by
  obtain ⟨key, _, rfl⟩ := List.mem_map.mp h
  exact (List.mem_filter.mp ho).1

/-- A bundle is known by its key. -/
theorem eq_of_key_eq {operator : Operator} {operands : List Expr} {left right : Bundle}
    (hl : left ∈ ofOperands operator operands) (hr : right ∈ ofOperands operator operands)
    (h : left.key = right.key)
    : left = right := by
  obtain ⟨_, _, rfl⟩ := List.mem_map.mp hl
  obtain ⟨_, _, rfl⟩ := List.mem_map.mp hr
  cases h
  rfl

/-- No bundle is empty, because the operand that gave it its key is a member. -/
theorem members_ne_nil {operator : Operator} {operands : List Expr} {bundle : Bundle}
    (h : bundle ∈ ofOperands operator operands)
    : bundle.members ≠ [] := by
  obtain ⟨operand, ho, hkey⟩ := exists_key_eq h
  obtain ⟨key, _, rfl⟩ := List.mem_map.mp h
  have hm : operand ∈ operands.filter fun o => Key.Alike key (operator.key o) :=
    List.mem_filter.mpr ⟨ho, decide_eq_true (congrArg Key.shape hkey.symm)⟩
  exact List.ne_nil_of_mem hm

/-- Every key of an operator has a rank among the bundles of the operator, and only one. -/
theorem countP_ranks_key (operator : Operator) (operand : Expr)
    : (ranks operator).countP (fun kinds => kinds.contains (operator.key operand).kind) = 1 := by
  cases operator with
  | sum =>
      simp only [Operator.key, summandKey]
      split
      · split <;> rfl
      · unfold termKey?
        split <;> rfl
  | product =>
      simp only [Operator.key, factorKey]
      split <;> rfl

/-- Putting the bundles in the order of their ranks permutes them. -/
theorem ordered_perm (operator : Operator) (operands : List Expr)
    : (ordered operator (ofOperands operator operands)).Perm (ofOperands operator operands) := by
  refine perm_flatMap_filter (fun (kinds : List KeyKind) (bundle : Bundle) =>
    kinds.contains bundle.key.kind) _ _ ?_
  intro bundle hb
  obtain ⟨operand, _, hkey⟩ := exists_key_eq hb
  rw [← hkey]
  exact countP_ranks_key operator operand

/-- The members of the ordered bundles are the operands. -/
theorem ordered_members_perm (operator : Operator) (operands : List Expr)
    : ((ordered operator (ofOperands operator operands)).flatMap members).Perm operands :=
  ((ordered_perm operator operands).flatMap_right members).trans (members_perm operator operands)

end Bundle

end TermGrouping
