import Clausal.Bytecode.Op

/-! # Programs -/

namespace Clausal

/-- The code of one function. A frame has `locals` slots: captures, parameters, then locals. -/
structure FunctionCode where
  name : String
  arity : Nat
  captures : Nat
  locals : Nat
  code : List Op
deriving BEq, Repr

namespace FunctionCode

/-- The size of a frame: room for captures and parameters, and for every slot that the code reads or
writes. -/
def frameSize (arity captures : Nat) (code : List Op) : Nat :=
  code.foldl (fun size op => max size (((op.slot?).map (·.toNat + 1)).getD 0)) (arity + captures)

/-- The function with some code, in a frame that fits it. -/
def ofCode (name : String) (arity captures : Nat) (code : List Op) : FunctionCode :=
  { name, arity, captures, locals := frameSize arity captures code, code }

end FunctionCode

/-- A compiled module. -/
structure Program where
  module : String
  functions : List FunctionCode
deriving BEq, Repr

namespace Program

def function? (p : Program) (name : String) : Option FunctionCode :=
  p.functions.find? (·.name = name)

end Program

end Clausal
