import Clausal.Grammar.Rule

/-! # What was tried at the furthest position

When a text does not match, the message names the rules that were tried at the furthest position reached. The
record keeps, for that position alone, the rules that would have been accepted and the rules that were met
where they were forbidden. -/

namespace Clausal.Grammar

/-- The rules tried at the furthest position. -/
structure Attempts where
  position : Nat := 0
  expected : List Rule := []
  unexpected : List Rule := []
deriving DecidableEq, Repr

namespace Attempts

/-- How many rules were tried at a position, as far as the record knows. -/
def countAt (a : Attempts) (position : Nat) : Nat :=
  if a.position = position then a.expected.length + a.unexpected.length else 0

/-- The record cut back to the lengths it had in an earlier state, if it is still about the same
position. -/
def cutTo (a before : Attempts) (position : Nat) : Attempts :=
  if a.position = position then
    if before.position = position then
      { a with
        expected := a.expected.take before.expected.length
        unexpected := a.unexpected.take before.unexpected.length }
    else { a with expected := [], unexpected := [] }
  else a

def moveTo (a : Attempts) (position : Nat) : Attempts :=
  if a.position < position then { position } else a

/-- Note a rule that started at `position`, when the record was `before`. `forbidden` rules are those
that matched where they must not. -/
def note (a before : Attempts) (rule : Rule) (position : Nat) (forbidden : Bool) : Attempts :=
  if a.countAt position = before.countAt position + 1 then a
  else
    let a := (a.cutTo before position).moveTo position
    if a.position ≠ position then a
    else if forbidden then { a with unexpected := a.unexpected ++ [rule] }
    else { a with expected := a.expected ++ [rule] }

/-- The rules of a list in the order of the grammar, each once. -/
def inOrder (rules : List Rule) : List String :=
  (Rule.all.filter (rules.contains ·)).map Rule.text

def enumerate : List String → String
  | [] => ""
  | [a] => a
  | [a, b] => s!"{a} or {b}"
  | names => ", ".intercalate names.dropLast ++ ", or " ++ names.getLastD ""

def message (a : Attempts) : String :=
  let expected := enumerate (inOrder a.expected)
  let unexpected := enumerate (inOrder a.unexpected)
  match a.unexpected.isEmpty, a.expected.isEmpty with
  | false, false => s!"unexpected {unexpected}; expected {expected}"
  | false, true => s!"unexpected {unexpected}"
  | true, false => s!"expected {expected}"
  | true, true => "unknown parsing error"

end Attempts

end Clausal.Grammar
