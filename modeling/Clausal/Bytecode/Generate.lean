import Clausal.Bytecode.Assembler
import Clausal.Report
import Clausal.Tree.Unfolding

/-! # Code generation

Each function of a tree, closures included, becomes the code of one function. An expression leaves one
value on the stack, a statement none. Branches are written with labels, which are put in place when the
function is finished:

* `if c t else e`: `c`, branch if false to `e`, `t`, jump to the end, `e`;
* a case or match: the same with one clause after the other, and the fallback last;
* a loop: `c`, branch if false to the end, the body, jump to the start;
* `a and b`: `a`, a copy, branch if false to the end, drop the copy, `b`; with `or`, branch if true;
* a closure: the operation that makes it; the code of its function comes out before the code of the
  function it is written in. -/

namespace Clausal

/-- What name resolution should have resolved, and a branch to a label that was never marked. -/
inductive Unresolved where
  | assignment (name : String)
  | reference (name : String)
  | call (name : String)
  | captures (closure : String)
  | branch (index : Nat) (function : String)
deriving DecidableEq, Repr

def Unresolved.message : Unresolved → String
  | assignment name => s!"Assignment to '{name}' was never resolved."
  | reference name => s!"Reference to '{name}' was never resolved."
  | call name => s!"Call to '{name}' was never resolved."
  | captures closure => s!"Captures of closure '{closure}' were never resolved."
  | branch index function => s!"Unresolved branch at op {index} in '{function}'."

/-- Why no code was generated. -/
structure GenerateError where
  cause : Unresolved
  origin : Origin
deriving DecidableEq, Repr

def GenerateError.report (e : GenerateError) : Report :=
  .ofOrigin .error e.cause.message "trellis.codegen" e.origin

/-- The calls that write some code, and the functions completed on the way. -/
structure Script where
  calls : List Assembler.Call := []
  functions : List FunctionCode := []
deriving Repr

namespace Script

/-- The number of labels that are made. -/
def labels (s : Script) : Nat := Assembler.made s.calls

def append (s t : Script) : Script := ⟨s.calls ++ t.calls, s.functions ++ t.functions⟩

instance : Append Script := ⟨append⟩

def ofCalls (calls : List Assembler.Call) : Script := { calls }

def ofOps (ops : List Op) : Script := { calls := ops.map .emit }

/-- The functions completed so far and the one that was written, whose code ends with a return. -/
def complete (s : Script) (name : String) (params captures : List String) (origin : Origin) :
    Except GenerateError (List FunctionCode) :=
  let start : Assembler := { name, arity := params.length, captures := captures.length }
  match (start.run (s.calls ++ [.emit (.const .null), .emit .ret])).finish with
  | .ok function => return s.functions ++ [function]
  | .error index => .error ⟨.branch index name, origin⟩

end Script

namespace Generate

/-- The operation of a strict operator; `and` and `or` have none. -/
def strictOp? : BinaryOperator → Option Op
  | .add => some .add
  | .sub => some .sub
  | .mul => some .mul
  | .div => some .div
  | .mod => some .mod
  | .eq => some .eq
  | .ne => some .neq
  | .lt => some .lt
  | .le => some .lte
  | .gt => some .gt
  | .ge => some .gte
  | .and | .or => none

/-- The branch that skips the right operand of `and` or `or`. -/
def skipping : BinaryOperator → Branch
  | .and => .ifFalse
  | _ => .ifTrue

def unaryOp : UnaryOperator → Op
  | .neg => .neg
  | .not => .not

def callOp (name : String) (argc : Nat) : CallTarget → Op
  | .module => .call name argc
  | .builtin => .callBuiltin name argc
  | .slot b => .callClosure b.slot argc

/-- The operation that makes a closure of the function below it. -/
def closureOp (origin : Origin) (captured : List Binding) :
    List Unfolding → Except GenerateError (Option Op)
  | .node _ (.function name _ _ _ captures) _ _ :: _ =>
    if captures.length = captured.length then return some (.makeClosure name (captured.map (·.slot)))
    else .error ⟨.captures name, origin⟩
  | _ => return none

/-- A value that was bound to something, or the failure to have bound it. -/
def resolved {α : Type} (origin : Origin) (cause : Unresolved) : Option α → Except GenerateError α
  | some a => return a
  | none => .error ⟨cause, origin⟩

mutual

/-- What is written for an element; `n` labels were made before in its function. -/
def write (n : Nat) : Unfolding → Except GenerateError Script
  | .node _ kind origin children =>
    match kind, children with
    | .function name params _ _ captures, children => do
      let body ← writeAll 0 children
      return { functions := ← body.complete name params captures origin }
    | .block _, children => writeStatements n children
    | .caseOf _ _, children | .matchOf _ _, children => do
      let stop : Label := ⟨n⟩
      let arms ← writeArms stop (n + 1) children
      return .ofCalls [.newLabel] ++ arms ++ .ofCalls [.mark stop]
    | .conditional _ _ _, condition :: action :: rest => do
      let c ← write n condition
      let otherwise : Label := ⟨n + c.labels⟩
      let stop : Label := ⟨n + c.labels + 1⟩
      let a ← write (n + c.labels + 2) action
      let r ← writeAll (n + c.labels + 2 + a.labels) rest
      return c ++ .ofCalls [.newLabel, .newLabel, .branch .ifFalse otherwise] ++ a ++
        .ofCalls [.branch .always stop, .mark otherwise] ++ r ++ .ofCalls [.mark stop]
    | .loop _ _, condition :: body :: _ => do
      let start : Label := ⟨n⟩
      let stop : Label := ⟨n + 1⟩
      let c ← write (n + 2) condition
      let b ← write (n + 2 + c.labels) body
      return .ofCalls [.newLabel, .newLabel, .mark start] ++ c ++ .ofCalls [.branch .ifFalse stop] ++ b ++
        .ofCalls [.branch .always start, .mark stop]
    | .assignment name _ _ binding _, children => do
      let value ← writeAll n children
      let b ← resolved origin (.assignment name) binding
      return value ++ .ofOps [.store b.slot]
    | .returns none, _ => return .ofOps [.const .null, .ret]
    | .returns (some _), children => do return (← writeAll n children) ++ .ofOps [.ret]
    | .constant value, _ => return .ofOps [.const value]
    | .reference name binding, _ => do
      let b ← resolved origin (.reference name) binding
      return .ofOps [.load b.slot]
    | .binary operator _ _, left :: right :: _ =>
      match strictOp? operator with
      | some op => do
        let l ← write n left
        let r ← write (n + l.labels) right
        return l ++ r ++ .ofOps [op]
      | none => do
        let l ← write n left
        let stop : Label := ⟨n + l.labels⟩
        let r ← write (n + l.labels + 1) right
        return l ++ .ofCalls [.newLabel, .emit .dup, .branch (skipping operator) stop, .emit .pop] ++ r ++
          .ofCalls [.mark stop]
    | .unary operator _, children => do return (← writeAll n children) ++ .ofOps [unaryOp operator]
    | .invocation name arguments target, children => do
      let values ← writeAll n children
      let target ← resolved origin (.call name) target
      return values ++ .ofOps [callOp name arguments.length target]
    | .closure _ captured, children => do
      match ← closureOp origin captured children with
      | some op => return .ofOps [op] ++ (← writeAll n children)
      | none => return {}
    | _, children => writeAll n children

def writeAll (n : Nat) : List Unfolding → Except GenerateError Script
  | [] => return {}
  | u :: us => do
    let first ← write n u
    return first ++ (← writeAll (n + first.labels) us)

/-- The statements of a block; the value of an expression is dropped. -/
def writeStatements (n : Nat) : List Unfolding → Except GenerateError Script
  | [] => return {}
  | u :: us => do
    let value ← write n u
    let first := if u.kind.isExpression then value ++ .ofOps [.pop] else value
    return first ++ (← writeStatements (n + first.labels) us)

/-- The clauses and the fallback of a case or match, with a label for what comes behind them. -/
def writeArms (stop : Label) (n : Nat) : List Unfolding → Except GenerateError Script
  | [] => return {}
  | .node _ (.whenClause ..) _ [condition, action] :: rest => do
    let c ← write n condition
    let next : Label := ⟨n + c.labels⟩
    let a ← write (n + c.labels + 1) action
    let r ← writeArms stop (n + c.labels + 1 + a.labels) rest
    return c ++ .ofCalls [.newLabel, .branch .ifFalse next] ++ a ++
      .ofCalls [.branch .always stop, .mark next] ++ r
  | fallback :: rest => do
    let first ← write n fallback
    return first ++ (← writeArms stop (n + first.labels) rest)

end

mutual

/-- The functions made by an element that stands outside every function. Its own code is dropped, and
what only a branch could reach is not looked at. -/
def outside : Unfolding → Except GenerateError (List FunctionCode)
  | .node _ kind origin children =>
    match kind, children with
    | .function name params _ _ captures, children => do
      (← writeAll 0 children).complete name params captures origin
    | .caseOf .., _ | .matchOf .., _ | .loop .., _ => return []
    | .conditional .., condition :: _ => outside condition
    | .assignment name _ _ binding _, children => do
      let functions ← outsideAll children
      let _ ← resolved origin (.assignment name) binding
      return functions
    | .reference name binding, _ => do
      let _ ← resolved origin (.reference name) binding
      return []
    | .binary operator _ _, left :: right :: _ => do
      let functions ← outside left
      if (strictOp? operator).isSome then return functions ++ (← outside right)
      return functions
    | .invocation name _ target, children => do
      let functions ← outsideAll children
      let _ ← resolved origin (.call name) target
      return functions
    | .closure _ captured, children => do
      match ← closureOp origin captured children with
      | some _ => outsideAll children
      | none => return []
    | _, children => outsideAll children

/-- The functions made by several elements that stand outside every function. -/
def outsideAll : List Unfolding → Except GenerateError (List FunctionCode)
  | [] => return []
  | u :: us => return (← outside u) ++ (← outsideAll us)

end

def moduleName : Unfolding → String
  | .node _ (.module name _) _ _ => name
  | _ => ""

end Generate

def Program.ofTree (t : Tree) : Except GenerateError Program :=
  match t.unfoldRoot with
  | none => return { module := "", functions := [] }
  | some root => return { module := Generate.moduleName root, functions := ← Generate.outside root }

end Clausal
