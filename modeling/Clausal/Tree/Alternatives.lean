import Clausal.Tree.Edit

/-! # Building case statements and match expressions

Both are an ordered list of guarded clauses and one fallback. `Alternatives` collects them; `build` refuses a
construct without clauses, with a clause that has no action, or without a fallback, and then stores the
clauses and the construct. -/

namespace Clausal

/-- Why a case statement or match expression was not built. -/
inductive ConstructionFault where
  /-- An action without a clause that waits for one. -/
  | noPendingClause
  /-- A clause that never got its action. -/
  | clauseWithoutAction (index : Nat)
  | missingFallback
  | fallbackAlreadySet
  | noClauses
  /-- The tree refused one of the parts. -/
  | rejected (fault : Fault)
deriving DecidableEq, Repr

namespace ConstructionFault

def name : ConstructionFault → String
  | noPendingClause => "NoPendingClause"
  | clauseWithoutAction _ => "ClauseWithoutAction"
  | missingFallback => "MissingFallback"
  | fallbackAlreadySet => "FallbackAlreadySet"
  | noClauses => "NoClauses"
  | rejected _ => "Mutation"

def message : ConstructionFault → String
  | noPendingClause => "Clause action set with no pending clause; add the condition first."
  | clauseWithoutAction index => s!"Clause {index} has a condition but no action."
  | missingFallback => "Fallback (otherwise) branch is required but was never set."
  | fallbackAlreadySet => "Fallback (otherwise) branch was already set."
  | noClauses => "At least one guarded clause is required."
  | rejected fault => fault.message

def report : ConstructionFault → Report
  | rejected fault => fault.report
  | f => { level := .critical, message := f.message, issuer := "trellis.ir.case_builder" }

end ConstructionFault

/-- The construct with arms of a kind: a case statement or a match expression. -/
def Arm.construct : Arm → List ElementId → ElementId → Kind
  | statement, clauses, otherwise => .caseOf clauses otherwise
  | value, clauses, otherwise => .matchOf clauses otherwise

/-- The parts of a case statement or match expression, as far as they are known. -/
structure Alternatives where
  arm : Arm
  origin : Origin
  /-- Conditions with their actions, in order. -/
  clauses : List (ElementId × Option ElementId) := []
  fallback : Option ElementId := none
deriving Repr

namespace Alternatives

def addCondition (a : Alternatives) (condition : ElementId) : Alternatives :=
  { a with clauses := a.clauses ++ [(condition, none)] }

def addAction (a : Alternatives) (action : ElementId) : Except ConstructionFault Alternatives :=
  match a.clauses.getLast? with
  | some (condition, none) =>
    return { a with clauses := a.clauses.dropLast ++ [(condition, some action)] }
  | _ => .error .noPendingClause

def addClause (a : Alternatives) (condition action : ElementId) : Alternatives :=
  { a with clauses := a.clauses ++ [(condition, some action)] }

def setFallback (a : Alternatives) (action : ElementId) : Except ConstructionFault Alternatives :=
  match a.fallback with
  | some _ => .error .fallbackAlreadySet
  | none => return { a with fallback := some action }

/-- The clauses with their actions; `index` is the number of the first. -/
def completeFrom (index : Nat) :
    List (ElementId × Option ElementId) → Except ConstructionFault (List (ElementId × ElementId))
  | [] => return []
  | (condition, some action) :: rest => return (condition, action) :: (← completeFrom (index + 1) rest)
  | (_, none) :: _ => .error (.clauseWithoutAction index)

def adopted (arm : Arm) (pairs : List (ElementId × ElementId)) (fallback : ElementId) :
    List (Role × ElementId) :=
  pairs.flatMap (fun (condition, action) => [(.expression, condition), (arm.actionRole, action)]) ++
    (arm.construct [] fallback).slots

/-- Store the clauses, each with the origin of its condition. -/
def allocClauses (arm : Arm) (origin : Origin) (t : Tree) :
    List (ElementId × ElementId) → Except Fault (Tree × List ElementId)
  | [] => return (t, [])
  | (condition, action) :: rest => do
    let clauseOrigin := ((t.element? condition).map Element.origin).getD origin
    let (t, id) ← t.alloc (.whenClause condition action arm) clauseOrigin
    let (t, ids) ← allocClauses arm origin t rest
    return (t, id :: ids)

def allocAll (arm : Arm) (origin : Origin) (t : Tree) (pairs : List (ElementId × ElementId))
    (fallback : ElementId) : Except Fault (Tree × ElementId) := do
  let (t, ids) ← allocClauses arm origin t pairs
  t.alloc (arm.construct ids fallback) origin

/-- Build the construct: the tree with it, its id and the id of its fallback. -/
def build (a : Alternatives) (t : Tree) :
    Except ConstructionFault (Tree × ElementId × ElementId) := do
  if a.clauses.isEmpty then .error .noClauses
  else
    let pairs ← completeFrom 0 a.clauses
    match a.fallback with
    | none => .error .missingFallback
    | some fallback =>
      let kindName := (a.arm.construct [] fallback).name
      match t.checkAdoption kindName a.origin.location [] (adopted a.arm pairs fallback) with
      | .error fault => .error (.rejected fault)
      | .ok _ =>
        match allocAll a.arm a.origin t pairs fallback with
        | .error fault => .error (.rejected fault)
        | .ok (t, id) => return (t, id, fallback)

end Alternatives

end Clausal
