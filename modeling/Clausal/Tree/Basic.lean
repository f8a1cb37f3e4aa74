import Clausal.Tree.Fault

/-! # Trees

A tree is an arena: elements are numbered in the order of their allocation and refer to each other by id. An
owner holds the ids of its children in its kind; a child records its owner as its parent.

Owning is established from the owner's side only. -/

namespace Clausal

/-- One element: its kind, its owner and where it came from. -/
structure Element where
  kind : Kind
  parent : Option ElementId := none
  origin : Origin := .synthetic
deriving Repr

/-- An arena of elements with a root. -/
structure Tree where
  source : String
  elements : Array Element := #[]
  root : Option ElementId := none
deriving Repr

namespace Tree

def empty (source : String) : Tree := { source }

def size (t : Tree) : Nat := t.elements.size

/-! ### Reading -/

def element? (t : Tree) (id : ElementId) : Option Element := t.elements[id]?

def kind? (t : Tree) (id : ElementId) : Option Kind := (t.element? id).map Element.kind

def parent (t : Tree) (id : ElementId) : Option ElementId := (t.element? id).bind Element.parent

def children (t : Tree) (id : ElementId) : List ElementId :=
  ((t.kind? id).map Kind.children).getD []

/-- The element with an id, or the fault of an unknown one. -/
def get (t : Tree) (id : ElementId) : Except Fault Element :=
  match t.element? id with
  | some e => .ok e
  | none => .error (.unknownElement id)

/-- The chain of owners above an element, nearest first; it stops rather than repeat an element. -/
def ancestorsFrom (t : Tree) (seen : List ElementId) : Nat → Option ElementId → List ElementId
  | _, none => []
  | 0, _ => []
  | fuel + 1, some p =>
    if seen.contains p then [] else p :: t.ancestorsFrom (p :: seen) fuel (t.parent p)

def ancestors (t : Tree) (id : ElementId) : List ElementId :=
  t.ancestorsFrom [] (t.size + 1) (t.parent id)

def enclosingFunction (t : Tree) (id : ElementId) : Option ElementId :=
  (t.ancestors id).find? fun a =>
    match t.kind? a with
    | some (.function ..) => true
    | _ => false

/-- Elements in pre-order, starting from those still to be visited. -/
def reachableFrom (t : Tree) : Nat → List ElementId → List ElementId
  | _, [] => []
  | 0, _ => []
  | fuel + 1, id :: rest => id :: t.reachableFrom fuel (t.children id ++ rest)

def reachable (t : Tree) : List ElementId :=
  t.reachableFrom t.size t.root.toList

/-- An element belongs to the root, by its chain of owners. -/
def isReachable (t : Tree) (id : ElementId) : Bool :=
  t.root = some id ||
    match (t.ancestors id).getLast? with
    | some top => t.root = some top
    | none => false

/-- The clauses and the fallback of a case statement or a match expression. -/
def alternatives? (t : Tree) (id : ElementId) : Option (List ElementId × ElementId) :=
  match t.kind? id with
  | some (.caseOf clauses otherwise) => some (clauses, otherwise)
  | some (.matchOf clauses otherwise) => some (clauses, otherwise)
  | _ => none

/-- The guarded clauses of a case statement or a match expression. -/
def clauses (t : Tree) (id : ElementId) : List ElementId :=
  ((t.alternatives? id).map Prod.fst).getD []

/-- The fallback of a case statement or a match expression. -/
def fallback? (t : Tree) (id : ElementId) : Option ElementId :=
  (t.alternatives? id).map Prod.snd

def whenParts? (t : Tree) (id : ElementId) : Option (ElementId × ElementId) :=
  match t.kind? id with
  | some (.whenClause condition action _) => some (condition, action)
  | _ => none

def moduleFunction? (t : Tree) (name : String) : Option ElementId :=
  match t.root.bind t.kind? with
  | some (.module _ functions) =>
    functions.find? fun f =>
      match t.kind? f with
      | some (.function n _ _ _ _) => n = name
      | _ => false
  | _ => none

/-! ### Editing -/

/-- Make an element the root; it must not be held by an owner. -/
def setRoot (t : Tree) (id : ElementId) : Except Fault Tree := do
  let e ← t.get id
  match e.parent with
  | some holder => .error (.stillOwned id holder)
  | none => return { t with root := some id }

/-- May the element be adopted for a position of this role, by an owner that already has the children
`seen`? -/
def checkSlot (t : Tree) (ownerKind : String) (location : Option Location) (seen : List ElementId)
    (role : Role) (child : ElementId) : Except Fault PUnit := do
  let e ← t.get child
  if !role.accepts e.kind then
    .error (.typeMismatch t.size ownerKind [role] e.kind.name location)
  else if seen.contains child then .error (.duplicateChild child)
  else match e.parent with
    | some holder => .error (.stillOwned child holder)
    | none => if t.root = some child then .error (.cycle t.size child) else return ⟨⟩

def checkAdoption (t : Tree) (ownerKind : String) (location : Option Location)
    (seen : List ElementId) : List (Role × ElementId) → Except Fault PUnit
  | [] => return ⟨⟩
  | (role, child) :: rest => do
    t.checkSlot ownerKind location seen role child
    t.checkAdoption ownerKind location (child :: seen) rest

def setParent (t : Tree) (id : ElementId) (owner : Option ElementId) : Tree :=
  { t with elements := t.elements.modify id fun e => { e with parent := owner } }

def setKind (t : Tree) (id : ElementId) (kind : Kind) : Tree :=
  { t with elements := t.elements.modify id fun e => { e with kind } }

def push (t : Tree) (kind : Kind) (origin : Origin) : Tree :=
  { t with elements := t.elements.push { kind, origin } }

/-- Store an element and adopt the children its kind names. -/
def alloc (t : Tree) (kind : Kind) (origin : Origin) : Except Fault (Tree × ElementId) := do
  t.checkAdoption kind.name origin.location [] kind.slots
  return (kind.children.foldl (fun t child => t.setParent child (some t.size)) t |>.push kind origin,
    t.size)

/-- May `replacement` take the place of `old` under `owner`? The answer is the position, or
nothing when both are the same element. -/
def checkReplacement (t : Tree) (owner old replacement : ElementId) :
    Except Fault (Option Nat) := do
  let o ← t.get owner
  let _ ← t.get old
  let r ← t.get replacement
  let slots := o.kind.slots
  let roles := o.kind.roles
  let mismatch (expected : List Role) : Fault :=
    .typeMismatch owner o.kind.name expected r.kind.name o.origin.location
  if !roles.isEmpty && !roles.any (·.accepts r.kind) then .error (mismatch roles)
  else match slots.findIdx? (·.2 = old) with
    | none => .error (.notAChild owner o.kind.name old o.origin.location)
    | some position =>
      let role := ((slots[position]?).map Prod.fst).getD .statement
      if !role.accepts r.kind then .error (mismatch [role])
      else if old = replacement then return none
      else match r.parent with
        | some holder => .error (.stillOwned replacement holder)
        | none =>
          if t.root = some replacement || owner = replacement ||
              (t.ancestors owner).contains replacement then
            .error (.cycle owner replacement)
          else return some position

/-- Put `replacement` at a position of `owner`, in the place of `old`. -/
def splice (t : Tree) (owner old replacement : ElementId) (position : Nat) : Tree :=
  let t := match t.kind? owner with
    | some kind => t.setKind owner (kind.setSlot position replacement)
    | none => t
  (t.setParent replacement (some owner)).setParent old none

/-- Put `replacement` in the place of `old` under `owner`. -/
def replace (t : Tree) (owner old replacement : ElementId) : Except Fault Tree := do
  match ← t.checkReplacement owner old replacement with
  | some position => return t.splice owner old replacement position
  | none => return t

/-! ### Annotations, which leave the shape alone -/

/-- Change the annotation of an element, if it is of a kind that has it. -/
def annotate (t : Tree) (id : ElementId) (what : String) (change : Kind → Option Kind) :
    Except Fault Tree := do
  let e ← t.get id
  match change e.kind with
  | some kind => return t.setKind id kind
  | none => .error (.notAnnotatable id what e.kind.name)

def bindReference (t : Tree) (id : ElementId) (b : Binding) : Except Fault Tree :=
  t.annotate id "binding" fun
    | .reference name _ => some (.reference name (some b))
    | .assignment name declaration value _ initializer =>
      some (.assignment name declaration value (some b) initializer)
    | _ => none

def setCallTarget (t : Tree) (id : ElementId) (target : CallTarget) : Except Fault Tree :=
  t.annotate id "call target" fun
    | .invocation name arguments _ => some (.invocation name arguments (some target))
    | _ => none

def setCaptures (t : Tree) (id : ElementId) (names : List String) : Except Fault Tree :=
  t.annotate id "captures" fun
    | .function name params body isClosure _ => some (.function name params body isClosure names)
    | _ => none

/-- Record the slots from which a closure takes its captures. -/
def setClosureBindings (t : Tree) (id : ElementId) (bindings : List Binding) : Except Fault Tree :=
  t.annotate id "closure bindings" fun
    | .closure function _ => some (.closure function bindings)
    | _ => none

/-! ### Validation -/

def validateSlot (t : Tree) (owner : ElementId) (o : Element) (slot : Role × ElementId) :
    Except Fault PUnit := do
  let e ← t.get slot.2
  if !slot.1.accepts e.kind then
    .error (.typeMismatch owner o.kind.name [slot.1] e.kind.name o.origin.location)
  else if e.parent ≠ some owner then .error (.brokenParentLink slot.2 owner e.parent)
  else return ⟨⟩

def validateElement (t : Tree) (owner : ElementId) : Except Fault PUnit := do
  let o ← t.get owner
  o.kind.slots.forM (t.validateSlot owner o)

/-- Everything under the root fits its position and names its owner. -/
def validate (t : Tree) : Except Fault PUnit :=
  t.reachable.forM t.validateElement

end Tree

end Clausal
