import Clausal.Journal
import Clausal.Tree.Basic

/-! # Edits that are noted in the journal -/

namespace Clausal

/-- A tree being edited, with the journal of what was done. -/
structure Workbench where
  tree : Tree
  journal : Array Event := #[]

/-- A step of work on a tree. What was done before a fault stays done. -/
abbrev Edit := EStateM Fault Workbench

namespace Edit

def tree : Edit Tree := return (← get).tree

def note (e : Event) : Edit Unit := modify fun w => { w with journal := w.journal.push e }

def element (id : ElementId) : Edit Element := do
  match (← tree).get id with
  | .ok e => return e
  | .error f => throw f

def change (f : Tree → Except Fault Tree) : Edit Unit := do
  match f (← tree) with
  | .ok t => modify fun w => { w with tree := t }
  | .error fault => throw fault

def alloc (kind : Kind) (origin : Origin) : Edit ElementId := do
  match (← tree).alloc kind origin with
  | .ok (t, id) =>
    modify fun w => { w with tree := t }
    return id
  | .error fault => throw fault

/-- Put `replacement` in the place of `old` under `owner`. -/
def replace (owner old replacement : ElementId) : Edit Unit := do
  let t ← tree
  match t.checkReplacement owner old replacement with
  | .error fault => throw fault
  | .ok none => return
  | .ok (some position) =>
    modify fun w => { w with tree := t.splice owner old replacement position }
    let ownerKind := ((t.kind? owner).map Kind.name).getD ""
    note (.replaced old replacement owner ownerKind position)

end Edit

end Clausal
