import TermGrouping.Text.Quoted

/-! Plain values. A plain value can stand in a tree where an expression belongs; it is shown in
messages and compared with other values, and is never an expression itself. Integers of any size
are shown, since no limit for the number of their digits is modelled.
-/

namespace TermGrouping

/-- A value that is not an expression. -/
inductive Value where
  | null
  | boolean (truth : Bool)
  | integer (number : Int)
  | text (characters : String)
  | list (items : List Value)

namespace Value

mutual
def same : Value → Value → Bool
  | null, null => true
  | boolean a, boolean b => a == b
  | integer a, integer b => a == b
  | text a, text b => a == b
  | list as, list bs => sameAll as bs
  | _, _ => false

def sameAll : List Value → List Value → Bool
  | [], [] => true
  | a :: as, b :: bs => same a b && sameAll as bs
  | _, _ => false
end

mutual
/-- The comparison decides equality, by recursion over both values. -/
theorem same_iff (a b : Value)
    : same a b = true ↔ a = b := by
  cases a <;> cases b <;> simp [same]
  case list.list as bs => exact sameAll_iff as bs

theorem sameAll_iff (as bs : List Value)
    : sameAll as bs = true ↔ as = bs := by
  cases as with
  | nil => cases bs <;> simp [sameAll]
  | cons a as =>
      cases bs with
      | nil => simp [sameAll]
      | cons b bs => simp [sameAll, same_iff a b, sameAll_iff as bs]
end

instance : DecidableEq Value := fun a b => decidable_of_iff _ (same_iff a b)

mutual
/-- A value with every truth value replaced by the integer it counts as. Two values are equal
in the sense of the trees that hold them exactly when these forms are the same. -/
def counted : Value → Value
  | boolean truth => integer (if truth then 1 else 0)
  | list items => list (countedAll items)
  | value => value

def countedAll : List Value → List Value
  | [] => []
  | item :: rest => item.counted :: countedAll rest
end

mutual
def display : Value → String
  | null => "None"
  | boolean truth => if truth then "True" else "False"
  | integer number => toString number
  | text characters => Text.quoted characters
  | list items => "[" ++ displayAll items ++ "]"

def displayAll : List Value → String
  | [] => ""
  | [item] => item.display
  | item :: next :: rest => item.display ++ ", " ++ displayAll (next :: rest)
end

def kindName : Value → String
  | null => "NoneType"
  | boolean _ => "bool"
  | integer _ => "int"
  | text _ => "str"
  | list _ => "list"

def isList : Value → Bool
  | list _ => true
  | _ => false

end Value

end TermGrouping
