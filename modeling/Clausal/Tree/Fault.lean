import Clausal.Report
import Clausal.Tree.Kind

/-! # Faults of tree edits

An edit that would break the shape of a tree is refused with a `Fault` and changes nothing. -/

namespace Clausal

/-- Why an edit of a tree was refused. -/
inductive Fault where
  /-- An id that is not in the tree. -/
  | unknownElement (element : ElementId)
  /-- The element cannot fill the position it was offered for. -/
  | typeMismatch (owner : ElementId) (ownerKind : String) (expected : List Role) (found : String)
      (location : Option Location)
  /-- The element is not held by the owner. -/
  | notAChild (owner : ElementId) (ownerKind : String) (child : ElementId)
      (location : Option Location)
  /-- The element is held by another owner. -/
  | stillOwned (element holder : ElementId)
  /-- The element was offered for two positions of one owner. -/
  | duplicateChild (element : ElementId)
  /-- The element is the root, the owner itself or above the owner. -/
  | cycle (owner element : ElementId)
  /-- An annotation for an element of another kind. -/
  | notAnnotatable (element : ElementId) (what found : String)
  /-- A child that does not name its owner as its parent. -/
  | brokenParentLink (element expected : ElementId) (found : Option ElementId)
deriving DecidableEq, Repr

namespace Fault

/-- Trees have no names of their own; reports speak of every tree alike. -/
def treeText : String := "<tree>"

def name : Fault → String
  | unknownElement .. => "UnknownElement"
  | typeMismatch .. => "TypeMismatch"
  | notAChild .. => "NotAChild"
  | stillOwned .. => "StillOwned"
  | duplicateChild .. => "DuplicateChild"
  | cycle .. => "Cycle"
  | notAnnotatable .. => "InvalidAnnotation"
  | brokenParentLink .. => "BrokenParentLink"

def message : Fault → String
  | unknownElement element => s!"Element #{element} does not belong to tree {treeText}."
  | typeMismatch owner ownerKind expected found _ =>
    let wanted := " or ".intercalate (expected.map Role.text)
    s!"Type mismatch in {ownerKind} #{owner} (tree {treeText}): expected {wanted}, found {found}."
  | notAChild owner ownerKind child _ =>
    s!"Element #{child} is not a child of {ownerKind} #{owner} (tree {treeText})."
  | stillOwned element holder =>
    s!"Element #{element} is still held by #{holder} (tree {treeText}); release it before attaching it elsewhere."
  | duplicateChild element =>
    s!"Element #{element} was given twice to the same owner (tree {treeText})."
  | cycle owner element =>
    s!"Attaching #{element} under #{owner} would make the tree cyclic (tree {treeText})."
  | notAnnotatable element what found =>
    s!"Cannot attach {what} to {found} #{element} (tree {treeText})."
  | brokenParentLink element expected (some found) =>
    s!"Element #{element} is held by #{expected} but records #{found} as its parent (tree {treeText})."
  | brokenParentLink element expected none =>
    s!"Element #{element} is held by #{expected} but records no parent (tree {treeText})."

def issuer : Fault → String
  | notAnnotatable .. => "trellis.ir.annotate"
  | duplicateChild .. => "trellis.ir.alloc"
  | brokenParentLink .. => "trellis.ir.validate"
  | _ => "trellis.ir.replace_element"

def location : Fault → Option Location
  | typeMismatch _ _ _ _ location => location
  | notAChild _ _ _ location => location
  | _ => none

def report (f : Fault) : Report where
  level := .critical
  message := f.message
  issuer := f.issuer
  location := f.location

end Fault

end Clausal
