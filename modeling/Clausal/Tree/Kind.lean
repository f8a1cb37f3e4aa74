import Clausal.Value

/-! # Kinds of elements

An element of the tree is of one of sixteen kinds. A kind holds the ids of its children; `slots`
lists them in order, each with the role that its position demands, and `setSlot` writes one of them.
Everything that reads or changes children goes through these two. -/

namespace Clausal

/-- The number of an element in its tree. -/
abbrev ElementId := Nat

def idText (id : ElementId) : String := s!"#{id}"

/-- How an assignment introduces its name. -/
inductive Declaration where
  /-- Constant once it has its value. -/
  | constant
  /-- Free to be assigned again. -/
  | variable
deriving DecidableEq, Repr

/-- What the action of a guarded clause is. -/
inductive Arm where
  /-- A block, as in a case statement. -/
  | statement
  /-- A value, as in a match expression. -/
  | value
deriving DecidableEq, Repr

/-- Where the value of a name comes from. -/
inductive BindingKind where
  | captured
  | parameter
  | local
deriving DecidableEq, Repr

/-- The frame slot of a name. In a frame, captures come first, then parameters, then locals. -/
structure Binding where
  slot : UInt16
  kind : BindingKind
deriving DecidableEq, Repr

/-- What a call calls. -/
inductive CallTarget where
  /-- A function of the module. -/
  | module
  /-- A function of the run-time system. -/
  | builtin
  /-- A closure in a frame slot. -/
  | slot (binding : Binding)
deriving DecidableEq, Repr

/-- What a child position demands of its child. -/
inductive Role where
  | function
  | block
  | statement
  | expression
  | clause (arm : Arm)
  | elseBranch
deriving DecidableEq, Repr

def Arm.actionRole : Arm → Role
  | statement => .block
  | value => .expression

def Role.text : Role → String
  | function => "Function"
  | block => "Block"
  | statement => "Statement"
  | expression => "Expression"
  | clause .statement => "WhenClause (block action)"
  | clause .value => "WhenClause (value action)"
  | elseBranch => "Block or ConditionalBranching"

/-- The kind of an element, with its children and its annotations. -/
inductive Kind where
  | module (name : String) (functions : List ElementId)
  /-- A function of the module or a lifted closure; `captures` names what it takes from enclosing
  functions. -/
  | function (name : String) (params : List String) (body : ElementId) (closure : Bool)
      (captures : List String)
  | block (statements : List ElementId)
  | caseOf (clauses : List ElementId) (otherwise : ElementId)
  | whenClause (condition action : ElementId) (arm : Arm)
  | conditional (condition thenBlock : ElementId) (elseBranch : Option ElementId)
  | loop (condition body : ElementId)
  /-- An `initializer` gives a name declared without a value its first one, and may write a constant
  once. -/
  | assignment (name : String) (declaration : Option Declaration) (value : ElementId)
      (binding : Option Binding) (initializer : Bool)
  | returns (value : Option ElementId)
  | constant (value : Value)
  | reference (name : String) (binding : Option Binding)
  | binary (operator : BinaryOperator) (left right : ElementId)
  | unary (operator : UnaryOperator) (operand : ElementId)
  | invocation (name : String) (arguments : List ElementId) (target : Option CallTarget)
  /-- A closure value; `captured` are the slots, in the enclosing frame, of the function's captures. -/
  | closure (function : ElementId) (captured : List Binding)
  | matchOf (clauses : List ElementId) (otherwise : ElementId)
deriving Repr

namespace Kind

def name : Kind → String
  | module .. => "Module"
  | function .. => "Function"
  | block .. => "Block"
  | caseOf .. => "CaseStatement"
  | whenClause .. => "WhenClause"
  | conditional .. => "ConditionalBranching"
  | loop .. => "LoopStatement"
  | assignment .. => "AssignmentStatement"
  | returns .. => "ReturnStatement"
  | constant .. => "Constant"
  | reference .. => "LocalReference"
  | binary .. => "BinaryOperation"
  | unary .. => "UnaryOperation"
  | invocation .. => "FunctionInvocation"
  | closure .. => "ClosureReference"
  | matchOf .. => "MatchExpression"

def isStatement : Kind → Bool
  | block .. | caseOf .. | conditional .. | loop .. | assignment .. | returns .. => true
  | _ => false

def isExpression : Kind → Bool
  | constant .. | reference .. | binary .. | unary .. | invocation .. | closure .. | matchOf .. =>
    true
  | _ => false

/-- The children with the roles of their positions, in order. -/
def slots : Kind → List (Role × ElementId)
  | module _ functions => functions.map (.function, ·)
  | function _ _ body _ _ => [(.block, body)]
  | block statements => statements.map (.statement, ·)
  | caseOf clauses otherwise => clauses.map (.clause .statement, ·) ++ [(.block, otherwise)]
  | whenClause condition action arm => [(.expression, condition), (arm.actionRole, action)]
  | conditional condition thenBlock elseBranch =>
    [(.expression, condition), (.block, thenBlock)] ++ elseBranch.toList.map (.elseBranch, ·)
  | loop condition body => [(.expression, condition), (.block, body)]
  | assignment _ _ value _ _ => [(.expression, value)]
  | returns value => value.toList.map (.expression, ·)
  | constant _ | reference _ _ => []
  | binary _ left right => [(.expression, left), (.expression, right)]
  | unary _ operand => [(.expression, operand)]
  | invocation _ arguments _ => arguments.map (.expression, ·)
  | closure lifted _ => [(.function, lifted)]
  | matchOf clauses otherwise => clauses.map (.clause .value, ·) ++ [(.expression, otherwise)]

def children (k : Kind) : List ElementId := k.slots.map Prod.snd

/-- The roles of the child positions, each once, in order of first appearance. -/
def roles (k : Kind) : List Role :=
  k.slots.foldl (fun seen s => if seen.contains s.1 then seen else seen ++ [s.1]) []

/-- Write one child position; positions that do not exist are left alone. -/
def setSlot (k : Kind) (position : Nat) (child : ElementId) : Kind :=
  match k, position with
  | module name functions, i => module name (functions.set i child)
  | function name params _ isClosure captures, 0 => function name params child isClosure captures
  | block statements, i => block (statements.set i child)
  | caseOf clauses otherwise, i =>
    if i = clauses.length then caseOf clauses child else caseOf (clauses.set i child) otherwise
  | whenClause _ action arm, 0 => whenClause child action arm
  | whenClause condition _ arm, 1 => whenClause condition child arm
  | conditional _ thenBlock elseBranch, 0 => conditional child thenBlock elseBranch
  | conditional condition _ elseBranch, 1 => conditional condition child elseBranch
  | conditional condition thenBlock (some _), 2 => conditional condition thenBlock (some child)
  | loop _ body, 0 => loop child body
  | loop condition _, 1 => loop condition child
  | assignment name declaration _ binding initializer, 0 =>
    assignment name declaration child binding initializer
  | returns (some _), 0 => returns (some child)
  | binary operator _ right, 0 => binary operator child right
  | binary operator left _, 1 => binary operator left child
  | unary operator _, 0 => unary operator child
  | invocation name arguments target, i => invocation name (arguments.set i child) target
  | closure _ captured, 0 => closure child captured
  | matchOf clauses otherwise, i =>
    if i = clauses.length then matchOf clauses child else matchOf (clauses.set i child) otherwise
  | k, _ => k

def slotText : Option Binding → String
  | some b => s!" -> slot {b.slot.toNat}"
  | none => ""

def declarationText : Option Declaration → Bool → String
  | some .constant, _ => "let "
  | some .variable, _ => "var "
  | none, true => "init "
  | none, false => ""

def text : Kind → String
  | module name _ => s!"Module {name}"
  | function name params _ isClosure captures =>
    let word := if isClosure then "Closure" else "Function"
    let taken := if captures.isEmpty then "" else " captures [" ++ ", ".intercalate captures ++ "]"
    word ++ " " ++ name ++ "|" ++ ", ".intercalate params ++ "|" ++ taken
  | assignment name declaration _ binding initializer =>
    "AssignmentStatement " ++ declarationText declaration initializer ++ name ++ slotText binding
  | constant value => "Constant " ++ value.text
  | reference name binding => "LocalReference " ++ name ++ slotText binding
  | binary operator _ _ => "BinaryOperation " ++ operator.symbol
  | unary operator _ => "UnaryOperation " ++ operator.symbol
  | invocation name arguments _ => s!"FunctionInvocation {name}/{arguments.length}"
  | k => k.name

end Kind

def Role.accepts : Role → Kind → Bool
  | function, .function .. => true
  | block, .block .. => true
  | statement, k => k.isStatement || k.isExpression
  | expression, k => k.isExpression
  | clause arm, .whenClause _ _ a => a = arm
  | elseBranch, .block .. => true
  | elseBranch, .conditional .. => true
  | _, _ => false

end Clausal
