import Clausal.Bytecode.Generate
import Clausal.Proofs.Tree.Showing

/-! # Emissions

What generated code is made of.  `Generate.emit` gives the code of an element together with the targets of its
branches, from the index of its first operation.  `Emitted` says how the code of an element is put together from
that of the elements below, whichever kind it has. -/

namespace Clausal

open List Unfolding

/-- Generated code, and the functions completed on the way. -/
structure Emission where
  code : List Op := []
  functions : List FunctionCode := []
deriving Repr

namespace Emission

def size (e : Emission) : Nat := e.code.length

def append (a b : Emission) : Emission := ⟨a.code ++ b.code, a.functions ++ b.functions⟩

instance : Append Emission := ⟨append⟩

def ofOps (ops : List Op) : Emission := { code := ops }

@[simp] theorem code_append (a b : Emission) : (a ++ b).code = a.code ++ b.code := rfl

@[simp] theorem functions_append (a b : Emission) :
    (a ++ b).functions = a.functions ++ b.functions := rfl

@[simp] theorem code_ofOps (ops : List Op) : (ofOps ops).code = ops := rfl

@[simp] theorem functions_ofOps (ops : List Op) : (ofOps ops).functions = [] := rfl

@[simp] theorem size_append (a b : Emission) : (a ++ b).size = a.size + b.size :=
  List.length_append

@[simp] theorem append_empty (a : Emission) : a ++ ({} : Emission) = a := by
  have h : a ++ ({} : Emission) = ⟨a.code ++ [], a.functions ++ []⟩ := rfl
  rw [h, List.append_nil, List.append_nil]

@[simp] theorem size_ofOps (ops : List Op) : (ofOps ops).size = ops.length := rfl

end Emission

namespace Generate

/-- The branch that skips the right operand of `and` or `or`. -/
def shortcut : BinaryOperator → Nat → Op
  | .and => .brFalse
  | _ => .brTrue

mutual

/-- The code of an element whose first operation has the index `base`. -/
def emit (base : Nat) : Unfolding → Except GenerateError Emission
  | .node _ kind origin children =>
    match kind, children with
    | .function name params _ _ captures, children => do
      let body ← emitAll 0 children
      let code := body.code ++ [.const .null, .ret]
      return { functions := body.functions ++ [.ofCode name params.length captures.length code] }
    | .block _, children => emitStatements base children
    | .caseOf _ _, children | .matchOf _ _, children => emitArms base children
    | .conditional _ _ _, condition :: action :: rest => do
      let c ← emit base condition
      let a ← emit (base + c.size + 1) action
      let next := base + c.size + 1 + a.size + 1
      let r ← emitAll next rest
      return c ++ .ofOps [.brFalse next] ++ a ++ .ofOps [.jump (next + r.size)] ++ r
    | .loop _ _, condition :: body :: _ => do
      let c ← emit base condition
      let b ← emit (base + c.size + 1) body
      let stop := base + c.size + 1 + b.size + 1
      return c ++ .ofOps [.brFalse stop] ++ b ++ .ofOps [.jump base]
    | .assignment name _ _ binding _, children => do
      let value ← emitAll base children
      let b ← resolved origin (.assignment name) binding
      return value ++ .ofOps [.store b.slot]
    | .returns none, _ => return .ofOps [.const .null, .ret]
    | .returns (some _), children => do return (← emitAll base children) ++ .ofOps [.ret]
    | .constant value, _ => return .ofOps [.const value]
    | .reference name binding, _ => do
      let b ← resolved origin (.reference name) binding
      return .ofOps [.load b.slot]
    | .binary operator _ _, left :: right :: _ =>
      match strictOp? operator with
      | some op => do
        let l ← emit base left
        let r ← emit (base + l.size) right
        return l ++ r ++ .ofOps [op]
      | none => do
        let l ← emit base left
        let r ← emit (base + l.size + 3) right
        let stop := base + l.size + 3 + r.size
        return l ++ .ofOps [.dup, shortcut operator stop, .pop] ++ r
    | .unary operator _, children => do
      return (← emitAll base children) ++ .ofOps [unaryOp operator]
    | .invocation name arguments target, children => do
      let values ← emitAll base children
      let target ← resolved origin (.call name) target
      return values ++ .ofOps [callOp name arguments.length target]
    | .closure _ captured, children => do
      match ← closureOp origin captured children with
      | some op => return .ofOps [op] ++ (← emitAll (base + 1) children)
      | none => return {}
    | _, children => emitAll base children

def emitAll (base : Nat) : List Unfolding → Except GenerateError Emission
  | [] => return {}
  | u :: us => do
    let first ← emit base u
    return first ++ (← emitAll (base + first.size) us)

/-- The code of the statements of a block; the value of an expression is dropped. -/
def emitStatements (base : Nat) : List Unfolding → Except GenerateError Emission
  | [] => return {}
  | u :: us => do
    let value ← emit base u
    let first := if u.kind.isExpression then value ++ .ofOps [.pop] else value
    return first ++ (← emitStatements (base + first.size) us)

/-- The code of the clauses and the fallback of a case or match. -/
def emitArms (base : Nat) : List Unfolding → Except GenerateError Emission
  | [] => return {}
  | .node _ (.whenClause ..) _ [condition, action] :: rest => do
    let c ← emit base condition
    let a ← emit (base + c.size + 1) action
    let next := base + c.size + 1 + a.size + 1
    let r ← emitArms next rest
    return c ++ .ofOps [.brFalse next] ++ a ++ .ofOps [.jump (next + r.size)] ++ r
  | fallback :: rest => do
    let first ← emit base fallback
    return first ++ (← emitArms (base + first.size) rest)

end

theorem resolved_eq_ok_iff {α : Type} {origin : Origin} {cause : Unresolved} {x : Option α}
    {a : α} : resolved origin cause x = .ok a ↔ x = some a := by
  cases x with
  | none => simp [resolved]
  | some b => simp [resolved, pure, Except.pure]

theorem emitAll_singleton (base : Nat) (u : Unfolding) : emitAll base [u] = emit base u := by
  simp only [emitAll]
  cases emit base u with
  | error e => rfl
  | ok e => simp [bind, Except.bind, pure, Except.pure]

theorem emitArms_fallback {base : Nat} {u : Unfolding} {arm : Arm}
    (h : arm.actionRole.accepts u.kind = true) : emitArms base [u] = emit base u := by
  obtain ⟨i, k, o, us⟩ := u
  have hfallback : emitArms base [.node i k o us] =
      (do let first ← emit base (.node i k o us)
          return first ++ ({} : Emission)) := by
    cases arm <;> cases k <;> first | rfl | cases h
  rw [hfallback]
  cases emit base (.node i k o us) with
  | error e => rfl
  | ok e => simp [bind, Except.bind, pure, Except.pure]

/-- How the code of some elements is put together: one after the other, as the statements of a block, or as the
arms of a case or match. -/
inductive Row
  | operands
  | statements
  | arms (arm : Arm)

/-- The operations behind the code of the children, for a kind that has no others. -/
def closing? : Kind → Option (List Op)
  | .assignment _ _ _ binding _ => binding.map fun b => [.store b.slot]
  | .returns none => some [.const .null, .ret]
  | .returns (some _) => some [.ret]
  | .constant v => some [.const v]
  | .reference _ binding => binding.map fun b => [.load b.slot]
  | .binary operator _ _ => (strictOp? operator).map ([·])
  | .unary operator _ => some [unaryOp operator]
  | .invocation name arguments target => target.map fun t => [callOp name arguments.length t]
  | .module .. | .whenClause .. => some []
  | _ => none

/-- What the code of some elements is made of. -/
inductive Emitted : Row → Nat → List Unfolding → Emission → Prop
  | nil {base} : Emitted .operands base [] {}
  | cons {base u us a b} : Emitted .operands base [u] a → Emitted .operands (base + a.size) us b →
      Emitted .operands base (u :: us) (a ++ b)
  | done {base} : Emitted .statements base [] {}
  | statement {base u us a first b} : Role.statement.accepts u.kind = true →
      Emitted .operands base [u] a → (first = if u.kind.isExpression then a ++ .ofOps [.pop] else a) →
      Emitted .statements (base + first.size) us b → Emitted .statements base (u :: us) (first ++ b)
  | fallback {base arm u e} : arm.actionRole.accepts u.kind = true → Emitted .operands base [u] e →
      Emitted (.arms arm) base [u] e
  | clause {base next arm i c a o condition action rest ec ea er} :
      condition.kind.isExpression = true → arm.actionRole.accepts action.kind = true →
      Emitted .operands base [condition] ec → Emitted .operands (base + ec.size + 1) [action] ea →
      next = base + ec.size + 1 + ea.size + 1 → Emitted (.arms arm) next rest er →
      Emitted (.arms arm) base (.node i (.whenClause c a arm) o [condition, action] :: rest)
        (ec ++ .ofOps [.brFalse next] ++ ea ++ .ofOps [.jump (next + er.size)] ++ er)
  | function {base i name params b lifted captures o body e} :
      body.Fits → Role.block.accepts body.kind = true → emit 0 body = .ok e → Emitted .operands 0 [body] e →
      Emitted .operands base [.node i (.function name params b lifted captures) o [body]] { functions :=
        e.functions ++ [.ofCode name params.length captures.length (e.code ++ [.const .null, .ret])] }
  | block {base i ids o us e} : Emitted .statements base us e →
      Emitted .operands base [.node i (.block ids) o us] e
  | caseOf {base i cs x o us e} : Emitted (.arms .statement) base us e →
      Emitted .operands base [.node i (.caseOf cs x) o us] e
  | matchOf {base i cs x o us e} : Emitted (.arms .value) base us e →
      Emitted .operands base [.node i (.matchOf cs x) o us] e
  | conditional {base next i c a x o condition action rest ec ea er} :
      condition.kind.isExpression = true → action.kind.isStatement = true →
      (∀ u ∈ rest, u.kind.isStatement = true) →
      Emitted .operands base [condition] ec → Emitted .operands (base + ec.size + 1) [action] ea →
      next = base + ec.size + 1 + ea.size + 1 → Emitted .operands next rest er →
      Emitted .operands base [.node i (.conditional c a x) o (condition :: action :: rest)]
        (ec ++ .ofOps [.brFalse next] ++ ea ++ .ofOps [.jump (next + er.size)] ++ er)
  | loop {base stop i c b o condition body ec eb} :
      condition.kind.isExpression = true → body.kind.isStatement = true →
      Emitted .operands base [condition] ec → Emitted .operands (base + ec.size + 1) [body] eb →
      stop = base + ec.size + 1 + eb.size + 1 →
      Emitted .operands base [.node i (.loop c b) o [condition, body]]
        (ec ++ .ofOps [.brFalse stop] ++ eb ++ .ofOps [.jump base])
  | shortcut {base stop i operator l r o left right el er} :
      left.kind.isExpression = true → right.kind.isExpression = true →
      Emitted .operands base [left] el → Emitted .operands (base + el.size + 3) [right] er →
      stop = base + el.size + 3 + er.size →
      Emitted .operands base [.node i (.binary operator l r) o [left, right]]
        (el ++ .ofOps [.dup, shortcut operator stop, .pop] ++ er)
  | closure {base i x captured o name params b lifted captures j o' us e} :
      e.code = [] → Emitted .operands (base + 1) [.node j (.function name params b lifted captures) o' us] e →
      Emitted .operands base
        [.node i (.closure x captured) o [.node j (.function name params b lifted captures) o' us]]
        (.ofOps [.makeClosure name (captured.map (·.slot))] ++ e)
  | closing {base i k o us e ops} : closing? k = some ops → Fits (.node i k o us) →
      Emitted .operands base us e → Emitted .operands base [.node i k o us] (e ++ .ofOps ops)

theorem isStatement_of_block {k : Kind} (h : Role.block.accepts k = true) : k.isStatement = true := by
  cases k <;> first | rfl | cases h

theorem isStatement_of_elseBranch {k : Kind} (h : Role.elseBranch.accepts k = true) : k.isStatement = true := by
  cases k <;> first | rfl | cases h

end Generate

end Clausal
