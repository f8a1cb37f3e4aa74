import Clausal.Bytecode.Program
import Clausal.Json.Document
import Clausal.Json.Reader

/-! # Programs as JSON

An operation without arguments is a string; any other is an object with one member, whose key is the name of
the operation and whose value is an object of its arguments. Constants follow the same pattern. -/

namespace Clausal

open Json (Document Reader)

def Value.document : Value → Document
  | int v => .obj [("Int", .int v.toInt)]
  | float v => .obj [("Float", .float v)]
  | bool v => .obj [("Bool", .bool v)]
  | str v => .obj [("Str", .str v)]
  | null => .str "Null"

def slotDocument (slot : UInt16) : Document := .int slot.toNat

def Op.arguments : Op → List (String × Document)
  | .const value => [("value", value.document)]
  | .load slot | .store slot => [("slot", slotDocument slot)]
  | .jump target | .brTrue target | .brFalse target => [("target", .int target)]
  | .call function argc => [("function", .str function), ("argc", .int argc)]
  | .callBuiltin name argc => [("name", .str name), ("argc", .int argc)]
  | .callClosure slot argc => [("slot", slotDocument slot), ("argc", .int argc)]
  | .makeClosure function captures =>
    [("function", .str function), ("captures", .arr (captures.map slotDocument))]
  | _ => []

def Op.document (op : Op) : Document :=
  match op.arguments with
  | [] => .str op.name
  | members => .obj [(op.name, .obj members)]

def FunctionCode.document (f : FunctionCode) : Document :=
  .obj [("name", .str f.name), ("arity", .int f.arity), ("captures", .int f.captures),
    ("locals", .int f.locals), ("code", .arr (f.code.map Op.document))]

namespace Program

def document (p : Program) : Document :=
  .obj [("module", .str p.module), ("functions", .arr (p.functions.map FunctionCode.document))]

def fileText (p : Program) : String := p.document.pretty

end Program

/-! ### Reading -/

def Program.textReader : Reader String := .string "a string"

def Program.countReader : Reader Nat := .natural "usize" (Nat.pow 2 64 - 1)

def Program.slotReader : Reader UInt16 := return (← Reader.natural "u16" (Nat.pow 2 16 - 1)).toUInt16

def Value.content? : String → Option (Reader.Content Value)
  | "Int" => some (.value (.int <$> Reader.integer))
  | "Float" => some (.value (.float <$> Reader.real))
  | "Bool" => some (.value (.bool <$> Reader.boolean))
  | "Str" => some (.value (.str <$> Program.textReader))
  | "Null" => some (.nothing .null)
  | _ => none

def Value.reader : Reader Value := .variant Value.content?

open Program (textReader countReader slotReader) in
def Op.content? (name : String) : Option (Reader.Content Op) :=
  match name with
  | "Const" => some (.value (.record₁ "value" Value.reader .const))
  | "Load" => some (.value (.record₁ "slot" slotReader .load))
  | "Store" => some (.value (.record₁ "slot" slotReader .store))
  | "Jump" => some (.value (.record₁ "target" countReader .jump))
  | "BrTrue" => some (.value (.record₁ "target" countReader .brTrue))
  | "BrFalse" => some (.value (.record₁ "target" countReader .brFalse))
  | "Call" => some (.value (.record₂ "function" textReader "argc" countReader .call))
  | "CallBuiltin" => some (.value (.record₂ "name" textReader "argc" countReader .callBuiltin))
  | "CallClosure" => some (.value (.record₂ "slot" slotReader "argc" countReader .callClosure))
  | "MakeClosure" =>
    some (.value (.record₂ "function" textReader "captures" (.list "a sequence" slotReader)
      .makeClosure))
  | name => (Op.plain.lookup name).map .nothing

def Op.reader : Reader Op := .variant Op.content?

namespace FunctionCode

/-- A function under construction: the fields that were given. -/
structure Given where
  name : Option String := none
  arity : Option Nat := none
  captures : Option Nat := none
  locals : Option Nat := none
  code : Option (List Op) := none

def fields : List (Reader.Field Given) :=
  [⟨"name", (·.name.isSome), fun g => return { g with name := some (← Program.textReader) }⟩,
    ⟨"arity", (·.arity.isSome), fun g => return { g with arity := some (← Program.countReader) }⟩,
    ⟨"captures", (·.captures.isSome),
      fun g => return { g with captures := some (← Program.countReader) }⟩,
    ⟨"locals", (·.locals.isSome), fun g => return { g with locals := some (← Program.countReader) }⟩,
    ⟨"code", (·.code.isSome),
      fun g => return { g with code := some (← .list "a sequence" Op.reader) }⟩]

def ofGiven (g : Given) : Except Json.Fault FunctionCode := do
  let name ← Reader.required "name" g.name
  let arity ← Reader.required "arity" g.arity
  let captures ← Reader.required "captures" g.captures
  let locals ← Reader.required "locals" g.locals
  let code ← Reader.required "code" g.code
  return { name, arity, captures, locals, code }

def reader : Reader FunctionCode := .record "struct FunctionCode" fields {} ofGiven

end FunctionCode

namespace Program

def reader : Reader Program :=
  .record₂ "module" textReader "functions" (.list "a sequence" FunctionCode.reader) Program.mk

def ofFileText (text : String) : Except Json.Fault Program := reader.run text

end Program

end Clausal
