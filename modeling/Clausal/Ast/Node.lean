import Clausal.Decimal.Layout
import Clausal.Source.Location
import Clausal.Text.Quoted

/-! # Syntax nodes

The syntax of a module as a tree of nodes: a form, where it came from, and its parts in order. A node
may have any number of parts, so that ill-formed trees can be built by hand and refused later.
Operators are kept as they were written. -/

namespace Clausal.Ast

/-- The form of a syntax node. -/
inductive Form where
  | function (name : String) (params : List String)
  | block
  | letDecl (name : String)
  | varDecl (name : String)
  | assign (name : String)
  | returns
  | conditional
  | loop
  /-- `when` parts, then at most one `otherwise`; the actions are blocks. -/
  | caseOf
  /-- `when` parts, then at most one `otherwise`; the actions are expressions. -/
  | matchOf
  | whenClause
  | otherwise
  | binary (operator : String)
  | unary (operator : String)
  | call (name : String)
  | closure (params : List String)
  | identifier (name : String)
  | integer (value : Int64)
  | float (value : Float)
  | string (value : String)
  | boolean (value : Bool)
  | null

namespace Form

def isExpression : Form → Bool
  | matchOf | binary _ | unary _ | call _ | closure _ | identifier _ | integer _ | float _
  | string _ | boolean _ | null => true
  | _ => false

def text : Form → String
  | function name _ => s!"Function({name})"
  | block => "Block"
  | letDecl name => s!"Let({name})"
  | varDecl name => s!"Var({name})"
  | assign name => s!"Assign({name})"
  | returns => "Return"
  | conditional => "If"
  | loop => "While"
  | caseOf => "Case"
  | matchOf => "Match"
  | whenClause => "When"
  | otherwise => "Otherwise"
  | binary operator => s!"Binary({operator})"
  | unary operator => s!"Unary({operator})"
  | call name => s!"Call({name})"
  | closure params => "Closure(" ++ ", ".intercalate params ++ ")"
  | identifier name => s!"Identifier({name})"
  | integer value => s!"Integer({value.toInt})"
  | float value => "Float(" ++ Decimal.listing.text value ++ ")"
  | string value => "Str(" ++ Text.quoted value ++ ")"
  | boolean value => s!"Bool({value})"
  | null => "Null"

end Form

/-- A syntax node. -/
inductive Node where
  | mk (form : Form) (origin : Origin) (parts : List Node)

namespace Node

def form : Node → Form
  | mk f _ _ => f

def origin : Node → Origin
  | mk _ o _ => o

def parts : Node → List Node
  | mk _ _ ps => ps

def indent (depth : Nat) : String :=
  String.ofList (List.replicate (2 * depth) ' ')

mutual

/-- A node and its parts, one line each, indented by depth. -/
def outline (depth : Nat) : Node → String
  | mk form origin parts =>
    let place := (origin.location.map fun l => " @" ++ l.place).getD ""
    indent depth ++ form.text ++ place ++ "\n" ++ outlineAll (depth + 1) parts

def outlineAll (depth : Nat) : List Node → String
  | [] => ""
  | n :: rest => outline depth n ++ outlineAll depth rest

end

def text (n : Node) : String := n.outline 0

mutual

def preorder : Node → List Node
  | mk form origin parts => mk form origin parts :: preorderAll parts

def preorderAll : List Node → List Node
  | [] => []
  | n :: rest => preorder n ++ preorderAll rest

end

end Node

/-- The syntax of one source file. -/
structure CompilationUnit where
  file : String
  name : String
  functions : List Node
  location : Option Location

def CompilationUnit.text (u : CompilationUnit) : String :=
  s!"CompilationUnit({u.file}) module {u.name}\n" ++ Node.outlineAll 0 u.functions

end Clausal.Ast
