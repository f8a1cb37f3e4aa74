import Clausal.Bytecode.Program

/-! # Listings

A program as text, one operation a line with its index. A place that some branch goes to has a label
line in front of it, and branches name labels. -/

namespace Clausal

namespace Listing

def indexText (n : Nat) : String :=
  let digits := toString n
  String.ofList (List.replicate (4 - digits.length) '0') ++ digits

def opText : Op → String
  | .jump target => s!"Jump L{target}"
  | .brTrue target => s!"BrTrue L{target}"
  | .brFalse target => s!"BrFalse L{target}"
  | op => op.text

/-- The label line of a place, if some branch goes there. -/
def labelLine (targets : List Nat) (index : Nat) : List String :=
  if targets.contains index then [s!"L{index}:"] else []

/-- The lines of operations that start at an index, and of the end behind them. -/
def lines (targets : List Nat) (index : Nat) : List Op → List String
  | [] => labelLine targets index
  | op :: rest =>
    labelLine targets index ++ [s!"{indexText index}  {opText op}"] ++ lines targets (index + 1) rest

end Listing

def FunctionCode.listing (f : FunctionCode) : List String :=
  s!"function {f.name} (arity {f.arity}, captures {f.captures}, frame {f.locals})" ::
    Listing.lines (f.code.filterMap Op.branchTarget?) 0 f.code

def Program.listing (p : Program) : String :=
  let functions := p.functions.flatMap fun f => f.listing ++ [""]
  String.join ((s!"Module: {p.module}" :: s!"Functions: {p.functions.length}" :: "" :: functions).map
    (· ++ "\n"))

end Clausal
