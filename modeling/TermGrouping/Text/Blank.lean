/-! Blank characters. Five of them separate the tokens of a formula; the wider class is what may
stand between the name of a function and its opening bracket when the name is recognised.
-/

namespace TermGrouping.Text

/-- The characters that separate tokens: space, tab, form feed, carriage return and line feed. -/
def isSpacing (c : Char) : Bool :=
  [0x20, 0x09, 0x0c, 0x0d, 0x0a].contains c.toNat

/-- White space of any script, the information separators included. -/
def isBlank (c : Char) : Bool :=
  (0x09 ≤ c.toNat && c.toNat ≤ 0x0d)
    || (0x1c ≤ c.toNat && c.toNat ≤ 0x20)
    || (0x2000 ≤ c.toNat && c.toNat ≤ 0x200a)
    || [0x85, 0xa0, 0x1680, 0x2028, 0x2029, 0x202f, 0x205f, 0x3000].contains c.toNat

/-- Every spacing character is blank, by inspection of the five. -/
theorem isBlank_of_isSpacing {c : Char} (h : isSpacing c = true) : isBlank c = true := by
  simp only [isSpacing, List.contains_eq_mem, List.mem_cons, List.not_mem_nil, or_false,
    decide_eq_true_eq] at h
  rcases h with h | h | h | h | h <;> simp [isBlank, h]

def isLetter (c : Char) : Bool :=
  (0x61 ≤ c.toNat && c.toNat ≤ 0x7a) || (0x41 ≤ c.toNat && c.toNat ≤ 0x5a)

end TermGrouping.Text
