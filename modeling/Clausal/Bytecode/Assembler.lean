import Clausal.Bytecode.Program

/-! # Assembling a function with labels

Code can be written before it is known where its branches go: a branch names a label, and the label is marked
at the place it stands for, before or after the branch. Until then the branch has a placeholder for its target,
and `finish` puts the places in. -/

namespace Clausal

/-- A place in the code that branches can name. -/
structure Label where
  number : Nat
deriving DecidableEq, Repr

/-- The kinds of branches. -/
inductive Branch where
  | always
  | ifTrue
  | ifFalse
deriving DecidableEq, Repr

def Branch.op : Branch → Nat → Op
  | always => .jump
  | ifTrue => .brTrue
  | ifFalse => .brFalse

/-- The same branch to another place. -/
def Op.retarget? (place : Nat) : Op → Option Op
  | jump _ => some (jump place)
  | brTrue _ => some (brTrue place)
  | brFalse _ => some (brFalse place)
  | _ => none

/-- A function being written. -/
structure Assembler where
  name : String
  arity : Nat
  captures : Nat
  /-- The size of its frame: the slots that are read or written so far have room. -/
  frame : Nat := arity + captures
  code : Array Op := #[]
  /-- The place of each label, as far as it is marked. -/
  places : Array (Option Nat) := #[]
  /-- The index of each branch, with its label. -/
  fixups : Array (Nat × Label) := #[]
deriving Repr

namespace Assembler

/-- The target of a branch until its label is put in place. -/
def placeholder : Nat := 0xffffffffffffffff

def newLabel (a : Assembler) : Label × Assembler :=
  (⟨a.places.size⟩, { a with places := a.places.push none })

def mark (a : Assembler) (label : Label) : Assembler :=
  { a with places := a.places.modify label.number fun _ => some a.code.size }

def emit (a : Assembler) (op : Op) : Assembler :=
  { a with
    frame := max a.frame (((op.slot?).map (·.toNat + 1)).getD 0)
    code := a.code.push op }

def branch (a : Assembler) (kind : Branch) (label : Label) : Assembler :=
  { a with
    code := a.code.push (kind.op placeholder)
    fixups := a.fixups.push (a.code.size, label) }

def place? (a : Assembler) (label : Label) : Option Nat := (a.places[label.number]?).join

/-- What can be asked of an assembler. -/
inductive Call where
  | newLabel
  | mark (label : Label)
  | emit (op : Op)
  | branch (kind : Branch) (label : Label)
deriving Repr

def apply (a : Assembler) : Call → Assembler
  | .newLabel => a.newLabel.2
  | .mark label => a.mark label
  | .emit op => a.emit op
  | .branch kind label => a.branch kind label

def run (a : Assembler) (calls : List Call) : Assembler := calls.foldl apply a

/-- The number of labels that calls make. -/
def made : List Call → Nat
  | [] => 0
  | .newLabel :: rest => made rest + 1
  | _ :: rest => made rest

/-- The code with one branch put in place; the index when its label was never marked, or when there is no
branch. -/
def patch (a : Assembler) (code : Array Op) (fixup : Nat × Label) : Except Nat (Array Op) :=
  match a.place? fixup.2 with
  | none => .error fixup.1
  | some place =>
    match code[fixup.1]?.bind (Op.retarget? place) with
    | none => .error fixup.1
    | some op => return code.setIfInBounds fixup.1 op

def finish (a : Assembler) : Except Nat FunctionCode := do
  let code ← a.fixups.toList.foldlM a.patch a.code
  return { name := a.name, arity := a.arity, captures := a.captures, locals := a.frame, code := code.toList }

end Assembler

end Clausal
