import Clausal.Value

/-! # Operations of the stack machine

An operation takes its operands from a stack and leaves its result there. Names of the source have
become slots of a frame, and branches name the index of the operation to go on with. -/

namespace Clausal

/-- One operation. -/
inductive Op where
  | const (value : Value)
  | load (slot : UInt16)
  | store (slot : UInt16)
  | add
  | sub
  | mul
  | div
  | mod
  | eq
  | neq
  | lt
  | lte
  | gt
  | gte
  | not
  | neg
  | dup
  | pop
  | jump (target : Nat)
  | brTrue (target : Nat)
  | brFalse (target : Nat)
  | call (function : String) (argc : Nat)
  | callBuiltin (name : String) (argc : Nat)
  | callClosure (slot : UInt16) (argc : Nat)
  | makeClosure (function : String) (captures : List UInt16)
  | ret
deriving BEq, Repr

namespace Op

/-- The operations without an argument, with their names. -/
def plain : List (String × Op) :=
  [("Add", add), ("Sub", sub), ("Mul", mul), ("Div", div), ("Mod", mod), ("Eq", eq), ("Neq", neq),
   ("Lt", lt), ("Lte", lte), ("Gt", gt), ("Gte", gte), ("Not", not), ("Neg", neg), ("Dup", dup),
   ("Pop", pop), ("Ret", ret)]

def name : Op → String
  | const _ => "Const"
  | load _ => "Load"
  | store _ => "Store"
  | add => "Add"
  | sub => "Sub"
  | mul => "Mul"
  | div => "Div"
  | mod => "Mod"
  | eq => "Eq"
  | neq => "Neq"
  | lt => "Lt"
  | lte => "Lte"
  | gt => "Gt"
  | gte => "Gte"
  | not => "Not"
  | neg => "Neg"
  | dup => "Dup"
  | pop => "Pop"
  | jump _ => "Jump"
  | brTrue _ => "BrTrue"
  | brFalse _ => "BrFalse"
  | call .. => "Call"
  | callBuiltin .. => "CallBuiltin"
  | callClosure .. => "CallClosure"
  | makeClosure .. => "MakeClosure"
  | ret => "Ret"

def branchTarget? : Op → Option Nat
  | jump target | brTrue target | brFalse target => some target
  | _ => none

def slot? : Op → Option UInt16
  | load slot | store slot | callClosure slot _ => some slot
  | _ => none

def slotText (slot : UInt16) : String := s!"local[{slot.toNat}]"

def text : Op → String
  | const value => "Const " ++ value.text
  | load slot => "Load " ++ slotText slot
  | store slot => "Store " ++ slotText slot
  | jump target => s!"Jump {target}"
  | brTrue target => s!"BrTrue -> {target}"
  | brFalse target => s!"BrFalse -> {target}"
  | call function argc => s!"Call {function}/{argc}"
  | callBuiltin name argc => s!"CallBuiltin {name}/{argc}"
  | callClosure slot argc => s!"CallClosure {slotText slot}/{argc}"
  | makeClosure function captures =>
    s!"MakeClosure {function} [" ++ ", ".intercalate (captures.map slotText) ++ "]"
  | op => op.name

end Op

end Clausal
