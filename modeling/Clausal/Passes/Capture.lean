import Clausal.Passes.Release

/-! # Closure capture

A closure captures the names it uses without declaring them, as far as an enclosing function declares them
where the closure is created. They are listed in the order of first use. What a closure captures counts as
used by the closure around it, so a name travels through any depth of closures. -/

namespace Clausal

/-- The names of one function being visited. -/
structure CaptureFrame where
  /-- Declared names, innermost scope first. -/
  scopes : List (List String)
  /-- Names used while not declared, in the order of first use. -/
  free : List String := []
deriving Repr

namespace CaptureFrame

def declares (f : CaptureFrame) (name : String) : Bool := f.scopes.any (·.contains name)

def declare (f : CaptureFrame) (name : String) : CaptureFrame :=
  match f.scopes with
  | [] => f
  | scope :: outer => { f with scopes := (scope ++ [name]) :: outer }

def use (f : CaptureFrame) (name : String) : CaptureFrame :=
  if f.declares name || f.free.contains name then f else { f with free := f.free ++ [name] }

end CaptureFrame

/-- The functions being visited, innermost first, and the captures of the closures left so far. -/
structure Capture where
  frames : List CaptureFrame := []
  results : Array (ElementId × List String) := #[]

namespace Capture

def modifyTop (c : Capture) (f : CaptureFrame → CaptureFrame) : Capture :=
  match c.frames with
  | [] => c
  | top :: outer => { c with frames := f top :: outer }

def use (c : Capture) (name : String) : Capture := c.modifyTop (·.use name)

def useCallee (c : Capture) (name : String) : Capture :=
  match c.frames with
  | [] => c
  | top :: outer =>
    if !top.declares name && outer.any (·.declares name) then c.use name else c

def enter (c : Capture) (params : List String) : Capture :=
  { c with frames := { scopes := [params] } :: c.frames }

/-- Be done with a function. A closure gets its captures, which its surroundings then use. -/
def leave (c : Capture) (function : ElementId) (isClosure : Bool) : Capture :=
  match c.frames with
  | [] => c
  | top :: outer =>
    let c := { c with frames := outer }
    if isClosure then
      let names := top.free.filter fun name => outer.any (·.declares name)
      let c := names.foldl use c
      { c with results := c.results.push (function, names) }
    else c

def openScope (c : Capture) : Capture := c.modifyTop fun f => { f with scopes := [] :: f.scopes }

def closeScope (c : Capture) : Capture := c.modifyTop fun f => { f with scopes := f.scopes.tail }

mutual

def visit (c : Capture) : Unfolding → Capture
  | .node id kind _ children =>
    match kind with
    | .function _ params _ isClosure _ => (visitAll (c.enter params) children).leave id isClosure
    | .block _ => (visitAll c.openScope children).closeScope
    | .assignment name (some _) _ _ _ => (visitAll c children).modifyTop (·.declare name)
    | .assignment name none _ _ _ => (visitAll c children).use name
    | .reference name _ => c.use name
    | .invocation name _ _ => visitAll (c.useCallee name) children
    | _ => visitAll c children

def visitAll (c : Capture) : List Unfolding → Capture
  | [] => c
  | u :: us => visitAll (visit c u) us

end

/-- The captures of every closure of a tree, inner closures first. -/
def find (t : Tree) : List (ElementId × List String) :=
  ((t.unfoldRoot.map (visit {})).getD {}).results.toList

/-- Record the captures of every closure under the root; what was recorded. -/
def run : Edit (List (ElementId × List String)) := do
  let found := find (← Edit.tree)
  for (function, names) in found do
    Edit.note (.capturesFound function names)
    Edit.change (·.setCaptures function names)
  return found

end Capture

end Clausal
