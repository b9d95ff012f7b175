/-! Excerpts of a text around a position. An excerpt shows the line that holds the position, cut
to forty characters on either side, and below it a caret under the position.
-/

namespace TermGrouping.Text

/-- The number of characters shown on either side of the position. -/
def excerptReach : Nat := 40

/-- The distance between two tab stops. -/
def tabStop : Nat := 8

def lastLine (text : List Char) : List Char :=
  (text.reverse.takeWhile (· != '\n')).reverse

def firstLine (text : List Char) : List Char :=
  text.takeWhile (· != '\n')

/-- The number of characters of a text with each tab replaced by blanks up to the next tab
stop. Line ends count as characters and take the column back to zero. -/
def expandedWidth : Nat → List Char → Nat
  | _, [] => 0
  | column, c :: rest =>
      if c = '\t' then
        let width := tabStop - column % tabStop
        width + expandedWidth (column + width) rest
      else if c = '\n' || c = '\r' then 1 + expandedWidth 0 rest
      else 1 + expandedWidth (column + 1) rest

def before (text : List Char) (position : Nat) : List Char :=
  lastLine ((text.take position).drop (position - excerptReach))

def after (text : List Char) (position : Nat) : List Char :=
  firstLine ((text.drop position).take excerptReach)

/-- The excerpt with its caret; both lines end in a line feed. -/
def excerpt (text : List Char) (position : Nat) : List Char :=
  before text position ++ after text position ++ ['\n']
    ++ List.replicate (expandedWidth 0 (before text position)) ' ' ++ ['^', '\n']

end TermGrouping.Text
