import Clausal.Tree.Edit

/-! # Substituting for constants in place

A walk over an element and everything below it that may put something else in the place of a constant
it meets. The children of an element are read again before each step, so the walk goes on with the
tree as it has become; what was put in is not walked over. -/

namespace Clausal

/-- A tree under substitution, with the constants met so far. -/
structure Substitution where
  bench : Workbench
  visited : Array ElementId := #[]

/-- A step of a substituting walk: nothing if it runs out of fuel. -/
abbrev Substitute := ExceptT Fault (StateT Substitution Option)

namespace Substitute

def edit {α : Type} (step : Edit α) : Substitute α := fun r =>
  match step r.bench with
  | .ok a bench => some (.ok a, { r with bench })
  | .error fault bench => some (.error fault, { r with bench })

/-- Meet a constant: note it, and put a new element in its place if one is chosen and somebody holds it. -/
def constant (choose : ElementId → Value → Option Kind) (id : ElementId) (value : Value) : Substitute Unit := do
  modify fun r => { r with visited := r.visited.push id }
  match (← edit Edit.tree).parent id, choose id value with
  | some owner, some kind => edit do Edit.replace owner id (← Edit.alloc kind .synthetic)
  | _, _ => return

mutual

/-- Walk over an element and what is below it. -/
def walk (choose : ElementId → Value → Option Kind) : Nat → ElementId → Substitute Unit
  | 0, _ => fun _ => none
  | fuel + 1, id => do
    match (← edit (Edit.element id)).kind with
    | .constant value => constant choose id value
    | _ => walkFrom choose fuel id 0

/-- Walk over the children of an element from a position on, until there is none. -/
def walkFrom (choose : ElementId → Value → Option Kind) : Nat → ElementId → Nat → Substitute Unit
  | 0, _, _ => fun _ => none
  | fuel + 1, id, position => do
    match ((← edit Edit.tree).children id)[position]? with
    | some child =>
      walk choose fuel child
      walkFrom choose fuel id (position + 1)
    | none => return

end

end Substitute

/-- Walk over an element, or over the root, and put a new element in the place of every constant that one
is chosen for. -/
def Tree.substitute (t : Tree) (choose : ElementId → Value → Option Kind) (fuel : Nat)
    (start : Option ElementId) : Option (Except Fault Unit × Substitution) :=
  match start with
  | none => some (.ok (), { bench := { tree := t } })
  | some id => Substitute.walk choose fuel id { bench := { tree := t } }

/-- Put a new element in the place of every constant that is unwanted, with fuel for a tree of this size. -/
def Tree.substituteConstants (t : Tree) (unwanted : Value → Bool) (replacement : Kind)
    (start : Option ElementId) : Except Fault Unit × Substitution :=
  (t.substitute (fun _ value => if unwanted value then some replacement else none) (2 * t.size + 1) start).getD
    (.ok (), { bench := { tree := t } })

end Clausal
