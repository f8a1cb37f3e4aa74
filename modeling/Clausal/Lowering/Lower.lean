import Clausal.Lowering.Error
import Clausal.Lowering.Names

/-! # Lowering syntax to a tree

Each syntax node becomes one element with the node's origin, children before their owners. Three
forms become more than one element:

* `let x = match …` and `var x = match …` in a block are a declaration with the value `null` and an
  assignment that initializes it, so that the match can be expanded in place;
* a closure is a function held by the closure value that creates it;
* a closure whose body is an expression gets a block that returns it.

Nothing is taken back when lowering fails: the elements stored so far remain in the tree. -/

namespace Clausal

open Ast (Form Node)

/-- The tree being built, the names in use and the journal. -/
structure Builder where
  tree : Tree := .empty ""
  names : Names := {}
  journal : Array Event := #[]

/-- A step of lowering. -/
abbrev Lower := EStateM BuildError Builder

namespace Lower

def malformed {α : Type} (origin : Origin) (stage : Stage) (flaw : Flaw) : Lower α :=
  throw (.malformed origin stage flaw)

def alloc (kind : Kind) (origin : Origin) : Lower ElementId := do
  match (← get).tree.alloc kind origin with
  | .ok (tree, id) =>
    modify fun b => { b with tree }
    return id
  | .error fault => throw (.rejected fault)

def build (a : Alternatives) : Lower ElementId := do
  match a.build (← get).tree with
  | .ok (tree, id, fallback) =>
    let name := (a.arm.construct [] fallback).name
    modify fun b =>
      { b with tree, journal := b.journal.push (.alternativesBuilt name id fallback) }
    return id
  | .error fault => throw (.construction fault)

def modifyNames (f : Names → Names) : Lower Unit := modify fun b => { b with names := f b.names }

def closureName : Lower String := do
  let (name, names) := (← get).names.next
  modify fun b => { b with names }
  return name

/-- Do something and then leave the innermost function, also when it fails. -/
def leaving (step : Lower ElementId) : Lower ElementId := fun b =>
  match step b with
  | .ok id b => .ok id { b with names := b.names.exit }
  | .error e b => .error e { b with names := b.names.exit }

/-- The name and the declaration of a form that declares a name. -/
def declaration? : Form → Option (String × Declaration)
  | .letDecl name => some (name, .constant)
  | .varDecl name => some (name, .variable)
  | _ => none

def finishAlternatives (a : Alternatives) : Lower ElementId :=
  if a.clauses.isEmpty then malformed a.origin .alternatives (.noClauses a.arm)
  else if a.fallback.isNone then malformed a.origin .alternatives (.noFallback a.arm)
  else build a

/-- Lower a node, by the given step, where a block is required. -/
def asBlock (n : Node) (step : Lower ElementId) : Lower ElementId :=
  match n.form with
  | .block => step
  | form => malformed n.origin .block (.expectedBlock form)

/-- Lower the branch after `else`, by the given step: another conditional or a block. -/
def asElse (n : Node) (step : Lower ElementId) : Lower ElementId :=
  match n.form with
  | .conditional => step
  | _ => asBlock n step

/-- Lower the action of a clause, by the given step: a block or any value. -/
def asAction (arm : Arm) (n : Node) (step : Lower ElementId) : Lower ElementId :=
  match arm with
  | .statement => asBlock n step
  | .value => step

/-- The body of a function, lowered by the given step inside that function. A body that is not a
block is a value, and becomes a block that returns it. -/
def functionBody (body : Node) (step : Lower ElementId) : Lower ElementId :=
  match body.form with
  | .block => leaving step
  | _ => do
    let value ← step
    let result ← alloc (.returns (some value)) body.origin
    leaving (alloc (.block [result]) body.origin)

def asFunction (name : String) (params : List String) (isClosure : Bool) (origin : Origin)
    (body : Node) (step : Lower ElementId) : Lower ElementId := do
  modifyNames (·.enter name)
  let id ← functionBody body step
  alloc (.function name params id isClosure []) origin

/-- Lower a statement of a block, given the steps that lower it as a whole and that lower its value.
A declaration with a match becomes two statements. -/
def asStatement (n : Node) (whole value : Lower ElementId) : Lower (List ElementId) :=
  match declaration? n.form with
  | none => return [← whole]
  | some (name, declaration) =>
    match n.parts.head?.map Node.form with
    | none => malformed n.origin .block (.missingPart n.form 0)
    | some .matchOf => do
      let null ← alloc (.constant .null) n.origin
      let declared ← alloc (.assignment name (some declaration) null none false) n.origin
      let value ← value
      return [declared, ← alloc (.assignment name none value none true) n.origin]
    | some _ => return [← whole]

mutual

/-- Lower a node, as its form asks for, wherever it stands: a function is one among statements too, and what is no
statement is an expression, so neither is refused for its place. -/
def node : Node → Lower ElementId
  | .mk form origin parts =>
    match form, parts with
    | .function name _, [] => malformed origin .node (.noBody name)
    | .function name params, body :: _ => asFunction name params false origin body (node body)
    | .block, parts => do alloc (.block (← statements parts)) origin
    | .letDecl name, value :: _ => do
      alloc (.assignment name (some .constant) (← node value) none false) origin
    | .varDecl name, value :: _ => do
      alloc (.assignment name (some .variable) (← node value) none false) origin
    | .assign name, value :: _ => do
      alloc (.assignment name none (← node value) none false) origin
    | .returns, [] => alloc (.returns none) origin
    | .returns, value :: _ => do alloc (.returns (some (← node value))) origin
    | .conditional, [condition] => do
      let _ ← node condition
      malformed origin .statement (.missingPart form 1)
    | .conditional, [condition, action] => do
      let condition ← node condition
      alloc (.conditional condition (← asBlock action (node action)) none) origin
    | .conditional, condition :: action :: other :: _ => do
      let condition ← node condition
      let action ← asBlock action (node action)
      alloc (.conditional condition action (some (← asElse other (node other)))) origin
    | .loop, [condition] => do
      let _ ← node condition
      malformed origin .statement (.missingPart form 1)
    | .loop, condition :: body :: _ => do
      let condition ← node condition
      alloc (.loop condition (← asBlock body (node body))) origin
    | .caseOf, parts => do finishAlternatives (← clauses { arm := .statement, origin } parts)
    | .matchOf, parts => do finishAlternatives (← clauses { arm := .value, origin } parts)
    | .whenClause, _ => malformed origin .statement (.strayClause form)
    | .otherwise, _ => malformed origin .statement (.strayClause form)
    | .binary symbol, parts =>
      match BinaryOperator.ofSymbol? symbol, parts with
      | none, _ => malformed origin .expression (.unknownBinary symbol)
      | some _, [] => malformed origin .expression (.missingPart form 0)
      | some _, [left] => do
        let _ ← node left
        malformed origin .expression (.missingPart form 1)
      | some operator, left :: right :: _ => do
        let left ← node left
        alloc (.binary operator left (← node right)) origin
    | .unary symbol, parts =>
      match UnaryOperator.ofSymbol? symbol, parts with
      | none, _ => malformed origin .expression (.unknownUnary symbol)
      | some _, [] => malformed origin .expression (.missingPart form 0)
      | some operator, operand :: _ => do alloc (.unary operator (← node operand)) origin
    | .call name, arguments => do alloc (.invocation name (← nodes arguments) none) origin
    | .closure _, [] => malformed origin .expression (.missingPart form 0)
    | .closure params, body :: _ => do
      let name ← closureName
      alloc (.closure (← asFunction name params true origin body (node body)) []) origin
    | .identifier name, _ => alloc (.reference name none) origin
    | .integer value, _ => alloc (.constant (.int value)) origin
    | .float value, _ => alloc (.constant (.float value)) origin
    | .string value, _ => alloc (.constant (.str value)) origin
    | .boolean value, _ => alloc (.constant (.bool value)) origin
    | .null, _ => alloc (.constant .null) origin
    | form, [] => malformed origin .statement (.missingPart form 0)

def nodes : List Node → Lower (List ElementId)
  | [] => return []
  | n :: rest => return (← node n) :: (← nodes rest)

def firstPart : Node → Lower ElementId
  | .mk form origin [] => malformed origin .block (.missingPart form 0)
  | .mk _ _ (part :: _) => node part

def statements : List Node → Lower (List ElementId)
  | [] => return []
  | n :: rest => do
    let ids ← asStatement n (node n) (firstPart n)
    return ids ++ (← statements rest)

/-- Lower the clauses of a case statement or match expression. -/
def clauses (a : Alternatives) : List Node → Lower Alternatives
  | [] => return a
  | .mk .whenClause origin [] :: _ => malformed origin .alternatives (.missingPart .whenClause 0)
  | .mk .whenClause origin [condition] :: _ => do
    let _ ← node condition
    malformed origin .alternatives (.missingPart .whenClause 1)
  | .mk .whenClause _ (condition :: action :: _) :: rest => do
    let condition ← node condition
    let action ← asAction a.arm action (node action)
    clauses (a.addClause condition action) rest
  | .mk .otherwise origin [] :: _ => malformed origin .alternatives (.missingPart .otherwise 0)
  | .mk .otherwise origin (action :: _) :: rest => do
    match a.setFallback (← asAction a.arm action (node action)) with
    | .ok a => clauses a rest
    | .error _ => malformed origin .alternatives (.secondFallback a.arm)
  | .mk form origin _ :: _ => malformed origin .alternatives (.foreignPart a.arm form)

end

def change (f : Tree → Except Fault Tree) : Lower Unit := do
  match f (← get).tree with
  | .ok tree => modify fun b => { b with tree }
  | .error fault => throw (.rejected fault)

/-- Lower a unit into a fresh tree, with a module as its root. -/
def unit (u : Ast.CompilationUnit) : Lower Tree := do
  modify fun b => { b with tree := .empty u.file, names := {} }
  let functions ← nodes u.functions
  let id ← alloc (.module u.name functions) ⟨u.location, none⟩
  change (·.setRoot id)
  change fun t => do
    t.validate
    return t
  let tree := (← get).tree
  modify fun b =>
    { b with tree := .empty "", journal := b.journal.push (.treeBuilt u.name tree.size) }
  return tree

end Lower

def Tree.ofUnit (u : Ast.CompilationUnit) : Except BuildError Tree :=
  match Lower.unit u {} with
  | .ok tree _ => .ok tree
  | .error e _ => .error e

end Clausal
