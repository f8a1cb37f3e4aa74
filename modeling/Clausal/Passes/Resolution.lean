import Clausal.Passes.Diagnostic
import Clausal.Passes.Release
import Std.Data.HashMap

/-! # Name resolution

Every name of a function gets a slot in its frame: captures first, then parameters, then locals in the order
of their declarations. A reference or assignment is bound to the slot of the innermost visible declaration. -/

namespace Clausal

def builtins : List String := ["print", "println", "str", "len", "assert"]

/-- A declared name. -/
structure Symbol where
  binding : Binding
  constant : Bool
deriving DecidableEq, Repr

/-- Why a declaration was refused. -/
inductive Refusal where
  | repeated
  | frameFull
  | noFrame
deriving DecidableEq, Repr

/-- The names of one function being visited. -/
structure Frame where
  function : String
  /-- Declared names, innermost scope first. -/
  scopes : List (Std.HashMap String Symbol) := [{}]
  nextSlot : Nat := 0

namespace Frame

def lookup (f : Frame) (name : String) : Option Symbol := f.scopes.findSome? (·[name]?)

/-- Declare a name in the innermost scope, in the next slot. A refused declaration changes nothing. -/
def declare (kind : BindingKind) (constant : Bool) (name : String) :
    Frame → Frame × Except Refusal Binding
  | ⟨function, [], nextSlot⟩ => (⟨function, [], nextSlot⟩, .error .noFrame)
  | ⟨function, scope :: outer, nextSlot⟩ =>
    if scope.contains name then (⟨function, scope :: outer, nextSlot⟩, .error .repeated)
    else if frameLimit ≤ nextSlot then (⟨function, scope :: outer, nextSlot⟩, .error .frameFull)
    else
      let binding : Binding := ⟨nextSlot.toUInt16, kind⟩
      (⟨function, scope.insert name ⟨binding, constant⟩ :: outer, nextSlot + 1⟩, .ok binding)

/-- Declare names in order; those refused, with the reason. -/
def declareAll (kind : BindingKind) (constant : Bool) (refused : Array (String × Refusal)) :
    List String → Frame → Frame × Array (String × Refusal)
  | [], f => (f, refused)
  | name :: names, f =>
    match f.declare kind constant name with
    | (f, .ok _) => declareAll kind constant refused names f
    | (f, .error refusal) => declareAll kind constant (refused.push (name, refusal)) names f

def problem (function : String) (repeated : String → Problem) : String × Refusal → Problem
  | (name, .repeated) => repeated name
  | (name, .frameFull) => .frameFull function name
  | (name, .noFrame) => .outsideFunction name

/-- The frame of a function with its captures and parameters, and the problems with them. -/
def enter (function : String) (captures params : List String) : Frame × List Problem :=
  let (f, refusedCaptures) := declareAll .captured true #[] captures { function }
  let (f, refusedParams) := declareAll .parameter false #[] params f
  (f, refusedCaptures.toList.map (problem function .repeatedCapture) ++
    refusedParams.toList.map (problem function .repeatedParameter))

end Frame

/-- The state of a visit: open functions, innermost first, the functions of the module with their
arities, and what was resolved. -/
structure Resolution where
  frames : List Frame := []
  functions : Std.HashMap String Nat := {}
  bindings : Array (ElementId × Binding) := #[]
  targets : Array (ElementId × CallTarget) := #[]
  closures : Array (ElementId × List Binding) := #[]
  diagnostics : Array Diagnostic := #[]

namespace Resolution

def complain (r : Resolution) (origin : Origin) (problem : Problem) : Resolution :=
  { r with diagnostics := r.diagnostics.push { problem, origin } }

def bind (r : Resolution) (id : ElementId) (b : Binding) : Resolution :=
  { r with bindings := r.bindings.push (id, b) }

def target (r : Resolution) (id : ElementId) (t : CallTarget) : Resolution :=
  { r with targets := r.targets.push (id, t) }

/-- The innermost visible declaration of a name in the innermost function. -/
def lookup (r : Resolution) (name : String) : Option Symbol :=
  r.frames.head?.bind (·.lookup name)

/-- Enter the functions of a module, each under its name; one more of a name replaces the one before. -/
def enterFunctions (r : Resolution) : List Unfolding → Resolution
  | [] => r
  | .node _ (.function name params _ _ _) origin _ :: rest =>
    let known := r.functions.contains name
    let r := { r with functions := r.functions.insert name params.length }
    enterFunctions (if known then r.complain origin (.repeatedFunction name) else r) rest
  | _ :: rest => enterFunctions r rest

def checkMain (r : Resolution) (origin : Origin) : Resolution :=
  if r.functions.contains "main" then r else r.complain origin .noMain

def enter (r : Resolution) (origin : Origin) (function : String) (captures params : List String) :
    Resolution :=
  let (frame, problems) := Frame.enter function captures params
  problems.foldl (·.complain origin ·) { r with frames := frame :: r.frames }

def leave (r : Resolution) : Resolution := { r with frames := r.frames.tail }

def modifyTop (r : Resolution) (f : Frame → Frame) : Resolution :=
  match r.frames with
  | [] => r
  | top :: outer => { r with frames := f top :: outer }

def openScope (r : Resolution) : Resolution := r.modifyTop fun f => { f with scopes := {} :: f.scopes }

def closeScope (r : Resolution) : Resolution := r.modifyTop fun f => { f with scopes := f.scopes.tail }

/-- Declare a local name and bind its declaration to the new slot. -/
def declareLocal (r : Resolution) (id : ElementId) (origin : Origin) (name : String)
    (declaration : Declaration) : Resolution :=
  match r.frames with
  | [] => r.complain origin (.outsideFunction name)
  | top :: outer =>
    match top.declare .local (declaration = .constant) name with
    | (top, .ok b) => { r with frames := top :: outer }.bind id b
    | (top, .error refusal) =>
      r.complain origin (Frame.problem top.function .repeatedVariable (name, refusal))

/-- Bind an assignment. An initializer may write a constant; nothing may write a capture. -/
def assign (r : Resolution) (id : ElementId) (origin : Origin) (name : String)
    (initializer : Bool) : Resolution :=
  match r.lookup name with
  | none => r.complain origin (.undeclaredTarget name)
  | some symbol =>
    if symbol.binding.kind = .captured then r.complain origin (.capturedTarget name)
    else if symbol.constant && !initializer then r.complain origin (.constantTarget name)
    else r.bind id symbol.binding

def refer (r : Resolution) (id : ElementId) (origin : Origin) (name : String) : Resolution :=
  match r.lookup name with
  | some symbol => r.bind id symbol.binding
  | none => r.complain origin (.undeclaredVariable name)

/-- Find out what a call calls. A wrong number of arguments is a problem only where the callee is a
function of the module. -/
def call (r : Resolution) (id : ElementId) (origin : Origin) (name : String) (given : Nat) :
    Resolution :=
  match r.lookup name with
  | some symbol => r.target id (.slot symbol.binding)
  | none =>
    match r.functions[name]? with
    | some expected =>
      let r := if expected = given then r else r.complain origin (.wrongArity name expected given)
      r.target id .module
    | none =>
      if builtins.contains name then r.target id .builtin
      else r.complain origin (.unknownFunction name)

def capture (r : Resolution) (id : ElementId) (origin : Origin) (names : List String) : Resolution :=
  let missing := names.filter fun name => (r.lookup name).isNone
  let bound := names.filterMap fun name => (r.lookup name).map Symbol.binding
  let r := missing.foldl (fun r name => r.complain origin (.captureOutOfScope name)) r
  { r with closures := r.closures.push (id, bound) }

/-- The names captured by the function on top of the first unfolding. -/
def capturesOf : List Unfolding → List String
  | .node _ (.function _ _ _ _ captures) _ _ :: _ => captures
  | _ => []

mutual

def visit (r : Resolution) : Unfolding → Resolution
  | .node id kind origin children =>
    match kind with
    | .module _ _ => visitAll ((r.enterFunctions children).checkMain origin) children
    | .function name params _ _ captures =>
      (visitAll (r.enter origin name captures params) children).leave
    | .block _ => (visitAll r.openScope children).closeScope
    | .assignment name (some declaration) _ _ _ =>
      (visitAll r children).declareLocal id origin name declaration
    | .assignment name none _ _ initializer =>
      (visitAll r children).assign id origin name initializer
    | .reference name _ => r.refer id origin name
    | .invocation name arguments _ => (visitAll r children).call id origin name arguments.length
    | .closure _ _ => visitAll (r.capture id origin (capturesOf children)) children
    | _ => visitAll r children

def visitAll (r : Resolution) : List Unfolding → Resolution
  | [] => r
  | u :: us => visitAll (visit r u) us

end

def ofTree (t : Tree) : Resolution := (t.unfoldRoot.map (visit {})).getD {}

def apply (r : Resolution) (t : Tree) : Except Fault Tree := do
  let t ← r.bindings.toList.foldlM (fun t (id, b) => t.bindReference id b) t
  let t ← r.targets.toList.foldlM (fun t (id, target) => t.setCallTarget id target) t
  r.closures.toList.foldlM (fun t (id, bs) => t.setClosureBindings id bs) t

def run : Edit (List Diagnostic) := do
  let r := ofTree (← Edit.tree)
  Edit.change r.apply
  return r.diagnostics.toList

end Resolution

end Clausal
