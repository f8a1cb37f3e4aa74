import Clausal.Tree.Edit
import Clausal.Tree.Unfolding

/-! # Releasing elements

An element can be adopted only while nobody holds it. To move an element, `release` takes it out of
its owner and leaves an empty element of a fitting kind in its place. -/

namespace Clausal

/-- What is left in a position whose element is taken away: an empty block where a block belongs, and
`null` where a value does.  Clauses and functions are never taken away. -/
def Role.placeholder : Role → Kind
  | block | elseBranch => .block []
  | _ => .constant .null

namespace Edit

def release (owner child : ElementId) : Edit ElementId := do
  let o ← element owner
  match o.kind.slots.find? (·.2 = child) with
  | none => throw (.notAChild owner o.kind.name child o.origin.location)
  | some (role, _) =>
    replace owner child (← alloc role.placeholder .synthetic)
    return child

def unfoldRoot : Edit (Option Unfolding) := return (← tree).unfoldRoot

end Edit

end Clausal
