import Clausal.Passes.Release

/-! # Case expansion

Every case statement becomes a chain of conditionals that ends in its fallback: `case { when c { a } when d {
b } otherwise { o } }` becomes `if c { a } else if d { b } else { o }`. Conditions, actions and the fallback
are moved, not copied; each conditional has the origin of its clause. -/

namespace Clausal.CaseExpansion

def prependClause (chain clause : ElementId) : Edit ElementId := do
  match (← Edit.tree).whenParts? clause with
  | none => return chain
  | some (condition, action) =>
    let origin := (← Edit.element clause).origin
    let condition ← Edit.release clause condition
    let action ← Edit.release clause action
    Edit.alloc (.conditional condition action (some chain)) origin

/-- Build a chain of conditionals from the last clause to the first. -/
def chain : ElementId → List ElementId → Edit ElementId
  | last, [] => return last
  | last, clause :: clauses => do prependClause (← chain last clauses) clause

/-- Replace one case statement by its chain; the number of cases expanded. A case that nobody holds
cannot be replaced. -/
def expand (id : ElementId) : Edit Nat := do
  match (← Edit.tree).parent id, (← Edit.tree).alternatives? id with
  | some owner, some (clauses, otherwise) =>
    let first ← chain (← Edit.release id otherwise) clauses
    Edit.replace owner id first
    Edit.note (.caseExpanded id first)
    return 1
  | _, _ => return 0

mutual

/-- Expand every case statement in an unfolding; the number of cases expanded. -/
def expandIn : Unfolding → Edit Nat
  | .node id (.caseOf ..) _ children => do
    let below ← expandAll children
    return below + (← expand id)
  | .node _ _ _ children => expandAll children

def expandAll : List Unfolding → Edit Nat
  | [] => return 0
  | u :: us => return (← expandIn u) + (← expandAll us)

end

/-- Expand every case statement under the root; the number of cases expanded. -/
def run : Edit Nat := do
  match ← Edit.unfoldRoot with
  | some root => expandIn root
  | none => return 0

end Clausal.CaseExpansion
