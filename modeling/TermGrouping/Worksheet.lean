import TermGrouping.Checked
import TermGrouping.Parse.Formula

/-! Worksheets. A worksheet starts with a formula and applies one step after the other to it; its
pages show the tree and the text of every state until a step fails.
-/

namespace TermGrouping

/-- Why a formula cannot be worked with: its text cannot be read, or its tree is refused. -/
inductive Failure where
  | text (source : String) (error : ParseError)
  | tree (error : TreeError)
  deriving DecidableEq

def Failure.message : Failure → String
  | text source error => error.message source
  | tree error => error.message

def onTree {α : Type} (result : Except TreeError α) : Except Failure α :=
  result.mapError .tree

def readText (text : String) : Except Failure Expr :=
  (parse text).mapError (.text text)

/-- A tree with its written form. -/
structure Page where
  tree : Expr
  text : String
  deriving DecidableEq

def Page.ofExpr (tree : Expr) : Except TreeError Page := do
  return ⟨tree, ← tree.text⟩

/-- What a formula is at each stage from its text to its collected form. -/
structure Summary where
  raw : Page
  flat : Page
  isCollectable : Bool
  status : Status
  collected : Page
  deriving DecidableEq

def summarize (text : String) : Except Failure Summary := do
  let raw ← readText text
  onTree do
    let flat ← Checked.flatten raw
    let status ← flat.collectionStatus
    return {
      raw := ← Page.ofExpr raw
      flat := ← Page.ofExpr flat
      isCollectable := ← flat.isCollectable
      status
      collected := ← Page.ofExpr status.after
    }

-----------------------------------------------------------------------------------------
-- A step either gives the next formula or ends the worksheet
-----------------------------------------------------------------------------------------

/-- Operations that can be applied to a formula in turn. -/
inductive Step where
  | flatten
  /-- Collects the operands of the root. -/
  | collect
  /-- Collects the operands of all nodes. -/
  | collectDeep
  /-- Goes on with the tree that the status reports as the one after collecting. -/
  | statusAfter
  | opposite
  /-- Writes the formula and reads it again. -/
  | reread
  /-- Drops the coefficient. -/
  | dropCoefficient
  /-- Goes on with the first child of the root, if it has one. -/
  | firstChild
  /-- Goes on with the last child of the root, if it has one. -/
  | lastChild
  /-- Puts brackets around the formula. -/
  | group
  /-- Raises the formula to an exponent. -/
  | raise (exponent : Expr)
  /-- Writes a coefficient in front of the formula. -/
  | scale (coefficient : Expr)
  | add (term : Expr)
  | multiply (factor : Expr)
  | divide (divisor : Expr)
  /-- Adds a term between two copies of the formula. -/
  | double (between : Expr)
  deriving DecidableEq

def Step.apply (step : Step) (e : Expr) : Except Failure Expr :=
  match step with
  | flatten => onTree (Checked.flatten e)
  | collect => onTree (Noted.value <$> e.collect)
  | collectDeep => onTree (Noted.value <$> e.collectDeep)
  | statusAfter => onTree (Status.after <$> e.collectionStatus)
  | opposite => onTree (Checked.opposite e)
  | reread => do readText (← onTree e.text)
  | dropCoefficient => onTree (Prod.snd <$> Checked.asMultiple e)
  | firstChild => onTree do return (← Checked.children e).head?.getD e
  | lastChild => onTree do return (← Checked.children e).getLast?.getD e
  | group => return .group e
  | raise exponent => return .power e exponent
  | scale coefficient => return .product [coefficient, e] true
  | add term => return .sum [e, term]
  | multiply factor => return .product [e, factor] false
  | divide divisor => return .quotient e divisor
  | double between => return .sum [e, between, e]

/-- The pages of a worksheet, and the failure that ended it, if any. -/
structure Worksheet where
  pages : List Page
  failure : Option Failure
  deriving DecidableEq

namespace Worksheet

def failed (failure : Failure) : Worksheet := ⟨[], some failure⟩

def cons (page : Page) (later : Worksheet) : Worksheet := ⟨page :: later.pages, later.failure⟩

/-- The worksheet that starts with the result of an operation, if it has one and the result can
be shown, and goes on from there. -/
def starting (start : Except Failure Expr) (rest : Expr → Worksheet) : Worksheet :=
  match start with
  | .error failure => failed failure
  | .ok e =>
      match onTree (Page.ofExpr e) with
      | .error failure => failed failure
      | .ok page => cons page (rest e)

/-- The worksheet that starts with a formula and applies the steps to it in turn. -/
def run (start : Except Failure Expr) : List Step → Worksheet
  | [] => starting start fun _ => ⟨[], none⟩
  | step :: rest => starting start fun e => run (step.apply e) rest

end Worksheet

end TermGrouping
