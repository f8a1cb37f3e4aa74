import Clausal.Passes.Release

/-! # Match expansion

A match whose value is assigned or returned by a statement becomes a case statement whose actions
assign or return the values of the clauses:

* `x = match { when c: v otherwise: w }` becomes `case { when c { x = v } otherwise { x = w } }`;
* `return match …` becomes a case with returns in the same way.

Conditions and values are moved, not copied, and the new statements are expanded in turn. A match
inside a larger expression, or in a declaration, stays what it is. -/

namespace Clausal

/-- What a statement does with the value of a match. -/
inductive Sink where
  | assign (name : String) (initializer : Bool)
  | returns
deriving DecidableEq, Repr

namespace Sink

/-- What a statement does with its value, if a match in it can be expanded. -/
def ofKind? : Kind → Option Sink
  | .assignment name none _ _ initializer => some (.assign name initializer)
  | .returns (some _) => some .returns
  | _ => none

def statement (value : ElementId) : Sink → Kind
  | assign name initializer => .assignment name none value none initializer
  | returns => .returns (some value)

end Sink

namespace MatchExpansion

/-- A new arm of a case: the statement that takes the value, and the block that holds it. -/
structure Sunk where
  statement : ElementId
  block : ElementId

/-- Wrap a released value into a statement in a block of its own. -/
def sinkValue (sink : Sink) (value : ElementId) : Edit Sunk := do
  let origin := (← Edit.element value).origin
  let statement ← Edit.alloc (sink.statement value) origin
  return { statement, block := ← Edit.alloc (.block [statement]) origin }

/-- Turn the clauses of a match into clauses of a case; also the statements that take the values. -/
def moveClauses (sink : Sink) : List ElementId → Edit (List ElementId × List ElementId)
  | [] => return ([], [])
  | clause :: rest => do
    match (← Edit.tree).whenParts? clause with
    | none => moveClauses sink rest
    | some (condition, value) =>
      let origin := (← Edit.element clause).origin
      let condition ← Edit.release clause condition
      let value ← Edit.release clause value
      let arm ← sinkValue sink value
      let moved ← Edit.alloc (.whenClause condition arm.block .statement) origin
      let (clauses, statements) ← moveClauses sink rest
      return (moved :: clauses, arm.statement :: statements)

/-- Build the case for a match: its id, and the statements that take the values, in order. -/
def buildCase (sink : Sink) (id : ElementId) (clauses : List ElementId) (otherwise : ElementId) :
    Edit (ElementId × List ElementId) := do
  let origin := (← Edit.element id).origin
  let (moved, statements) ← moveClauses sink clauses
  let fallback ← sinkValue sink (← Edit.release id otherwise)
  let caseId ← Edit.alloc (.caseOf moved fallback.block) origin
  return (caseId, statements ++ [fallback.statement])

mutual

/-- Expand everything below an element; the number of matches expanded. -/
def expandIn : Unfolding → Edit Nat
  | .node id kind _ [value] =>
    match Sink.ofKind? kind with
    | some sink => expandValue sink id value
    | none => expandIn value
  | .node _ _ _ children => expandAll children

def expandAll : List Unfolding → Edit Nat
  | [] => return 0
  | u :: us => return (← expandIn u) + (← expandAll us)

/-- Expand the value of a statement, and everything below it. A statement that nobody holds cannot be
replaced, and its match is left as it is. -/
def expandValue (sink : Sink) (statement : ElementId) : Unfolding → Edit Nat
  | .node id (.matchOf clauses otherwise) _ children => do
    match (← Edit.tree).parent statement with
    | none =>
      Edit.note (.matchDetached id statement)
      expandAll children
    | some owner =>
      let (caseId, statements) ← buildCase sink id clauses otherwise
      Edit.replace owner statement caseId
      Edit.note (.matchExpanded id caseId)
      return 1 + (← expandArms sink statements children)
  | .node _ _ _ children => expandAll children

/-- Expand below the clauses and the fallback of a match that became a case, each with the statement
that now takes its value. -/
def expandArms (sink : Sink) : List ElementId → List Unfolding → Edit Nat
  | statement :: statements, .node _ (.whenClause ..) _ [condition, value] :: rest => do
    let inCondition ← expandIn condition
    let inValue ← expandValue sink statement value
    return inCondition + inValue + (← expandArms sink statements rest)
  | statement :: statements, fallback :: rest => do
    let inFallback ← expandValue sink statement fallback
    return inFallback + (← expandArms sink statements rest)
  | _, _ => return 0

end

/-- Expand every match in statement position under the root; the number of matches expanded. -/
def run : Edit Nat := do
  match ← Edit.unfoldRoot with
  | some root => expandIn root
  | none => return 0

end MatchExpansion

end Clausal
