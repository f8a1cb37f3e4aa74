import Clausal.Ast.Node
import Clausal.Decimal.Reading
import Clausal.Grammar.Matcher
import Clausal.Source.File

/-! # From text to syntax

`parse` matches a source file against the grammar and turns the nodes of the match into syntax. Three
things can be wrong with a source: it is empty, it does not match, or an integer in it is too large.
The remaining causes of `SyntaxError` belong to parses that the grammar never produces. -/

namespace Clausal.Ast

open Grammar (Parse Rule)

/-- What a node of a parse is read as. -/
inductive Reader where
  | function
  | block
  | statement
  | caseClause
  | expression
  | matchClause
deriving DecidableEq, Repr

def Reader.issuer : Reader → String
  | function => "trellis.syntax.parse_function_rule"
  | block => "trellis.syntax.parse_block_rule"
  | statement => "trellis.syntax.parse_statement_rule"
  | caseClause => "trellis.syntax.parse_case_clause_rule"
  | expression => "trellis.syntax.parse_expression_rule"
  | matchClause => "trellis.syntax.parse_match_clause_rule"

def unitIssuer : String := "trellis.syntax.parse_compilation_unit_rule"

def chainIssuer : String := "trellis.syntax.parse_binary_chain_rule"

/-- Why a source has no syntax. -/
inductive SyntaxError where
  | empty (file : String)
  | mismatch (file : String) (failure : Grammar.Failure)
  | integerTooLarge (digits : String) (origin : Origin)
  /-- A match that left no node. -/
  | noUnit
  /-- A node of the parse without the parts its rule has. -/
  | incomplete (issuer : String) (origin : Origin)
  /-- A node of a rule that does not belong there. -/
  | unexpected (what : String) (rule : Rule) (issuer : String) (origin : Origin)
  /-- An operator without a right operand. -/
  | missingOperand (operator : String) (origin : Origin)
  /-- Operators in front of nothing. -/
  | noOperand (origin : Origin)

def SyntaxError.report : SyntaxError → Report
  | empty file =>
    { level := .error
      message := "The provided source file is empty."
      issuer := "trellis.syntax.parse_source"
      location := some ⟨file, 1, 1⟩ }
  | mismatch file failure =>
    { level := .error
      message := failure.message
      issuer := "trellis.syntax.parse_source"
      location := some ⟨file, failure.line, failure.column⟩ }
  | integerTooLarge digits origin =>
    .ofOrigin .error
      s!"Invalid integer literal '{digits}': number too large to fit in target type"
      Reader.expression.issuer origin
  | noUnit =>
    .ofOrigin .error "Parser produced no compilation unit." "trellis.syntax.parse_source" .synthetic
  | incomplete issuer origin => .ofOrigin .error "Expected more inner pairs but found none." issuer origin
  | unexpected what rule issuer origin => .ofOrigin .error s!"Unexpected {what}: {rule.text}" issuer origin
  | missingOperand operator origin =>
    .ofOrigin .error s!"Missing right-hand operand for operator '{operator}'." chainIssuer origin
  | noOperand origin =>
    .ofOrigin .error "Unary expression without an operand." Reader.expression.issuer origin

/-- What is wrong with a node that its reader has no case for: parts are missing, or its rule is another. -/
def misread (reader : Reader) (rule : Rule) (origin : Origin) : SyntaxError :=
  match reader, rule with
  | .function, _ | .block, _
  | .statement, .letStmt | .statement, .varStmt | .statement, .assignStmt | .statement, .ifStmt
  | .statement, .whileStmt | .statement, .expressionStmt
  | .caseClause, .whenClause | .caseClause, .otherwiseClause
  | .matchClause, .matchWhen | .matchClause, .matchOtherwise
  | .expression, .expression | .expression, .call => .incomplete reader.issuer origin
  | .expression, .orExpr | .expression, .andExpr | .expression, .comparison | .expression, .additive
  | .expression, .multiplicative => .incomplete chainIssuer origin
  | .statement, rule => .unexpected "statement type" rule reader.issuer origin
  | .caseClause, rule => .unexpected "case clause" rule reader.issuer origin
  | .matchClause, rule => .unexpected "match clause" rule reader.issuer origin
  | .expression, rule => .unexpected "expression type" rule reader.issuer origin

/-- The text between the quotes of a string: a backslash makes `n`, `t` and `r` control characters
and leaves every other character as it is. -/
def unescape : List Char → List Char
  | [] => []
  | ['\\'] => ['\\']
  | '\\' :: c :: rest =>
    (if c = 'n' then '\n' else if c = 't' then '\t' else if c = 'r' then '\r' else c) ::
      unescape rest
  | c :: rest => c :: unescape rest

def maxInteger : Nat := Nat.pow 2 63 - 1

def floatOf (digits : List Char) : Float :=
  Decimal.ofParts (digits.takeWhile Char.isDigit) ((digits.dropWhile Char.isDigit).drop 1) 0

def paramsOf (list : Parse) : List String := list.children.map Parse.text

/-- The text of the first of some nodes, nothing if there is none. -/
def innerText (parts : List Parse) : String := (parts.head?.map Parse.text).getD ""

/-- The operators in front of an operand, the outermost first. -/
def prefixed (file : String) (operand : Node) (operators : List Parse) : Node :=
  operators.foldr (fun op node => .mk (.unary op.text) (op.origin file) [node]) operand

/-- How the body of a function or closure is read. -/
def Reader.body : Reader → Rule → Reader
  | function, _ | _, .block => .block
  | _, _ => .expression

/-- How the branch after `else` is read. -/
def elseReader : Rule → Reader
  | .ifStmt => .statement
  | _ => .block

mutual

/-- The syntax of a node. Parts behind those that are needed are passed over. -/
def read (file : String) (reader : Reader) : Parse → Except SyntaxError Node
  | .node rule start stop parts =>
    let self := Parse.node rule start stop []
    let origin := self.origin file
    match reader, rule, parts with
    | .function, _, name :: rest => do
      let (params, body) ← readBody file .function origin rest
      return .mk (.function name.text params) origin [body]
    | .block, _, parts => return .mk .block origin (← readAll file .statement parts)
    | .statement, .letStmt, name :: value :: _ =>
      return .mk (.letDecl name.text) origin [← read file .expression value]
    | .statement, .varStmt, name :: value :: _ =>
      return .mk (.varDecl name.text) origin [← read file .expression value]
    | .statement, .assignStmt, name :: value :: _ =>
      return .mk (.assign name.text) origin [← read file .expression value]
    | .statement, .returnStmt, [] => return .mk .returns origin []
    | .statement, .returnStmt, value :: _ => return .mk .returns origin [← read file .expression value]
    | .statement, .ifStmt, [condition, action] =>
      return .mk .conditional origin [← read file .expression condition, ← read file .block action]
    | .statement, .ifStmt, condition :: action :: other :: _ =>
      return .mk .conditional origin [← read file .expression condition, ← read file .block action,
        ← read file (elseReader other.rule) other]
    | .statement, .whileStmt, condition :: body :: _ =>
      return .mk .loop origin [← read file .expression condition, ← read file .block body]
    | .statement, .caseStmt, parts => return .mk .caseOf origin (← readAll file .caseClause parts)
    | .statement, .expressionStmt, inner :: _ => read file .expression inner
    | .caseClause, .whenClause, condition :: action :: _ =>
      return .mk .whenClause origin [← read file .expression condition, ← read file .block action]
    | .caseClause, .otherwiseClause, action :: _ => return .mk .otherwise origin [← read file .block action]
    | .matchClause, .matchWhen, condition :: action :: _ =>
      return .mk .whenClause origin [← read file .expression condition, ← read file .expression action]
    | .matchClause, .matchOtherwise, action :: _ =>
      return .mk .otherwise origin [← read file .expression action]
    | .expression, .expression, inner :: _ => read file .expression inner
    | .expression, .orExpr, first :: rest => do readChain file origin (← read file .expression first) rest
    | .expression, .andExpr, first :: rest => do readChain file origin (← read file .expression first) rest
    | .expression, .comparison, first :: rest => do readChain file origin (← read file .expression first) rest
    | .expression, .additive, first :: rest => do readChain file origin (← read file .expression first) rest
    | .expression, .multiplicative, first :: rest => do
      readChain file origin (← read file .expression first) rest
    | .expression, .unary, parts => readUnary file origin [] none parts
    | .expression, .matchExpr, parts => return .mk .matchOf origin (← readAll file .matchClause parts)
    | .expression, .closure, parts => do
      let (params, body) ← readBody file .expression origin parts
      return .mk (.closure params) origin [body]
    | .expression, .call, [name] => return .mk (.call name.text) origin []
    | .expression, .call, name :: .node _ _ _ arguments :: _ =>
      return .mk (.call name.text) origin (← readAll file .expression arguments)
    | .expression, .identifier, _ => return .mk (.identifier self.text) origin []
    | .expression, .integer, _ =>
      let value := Decimal.valueOf self.text.toList
      if value ≤ maxInteger then return .mk (.integer (.ofInt value)) origin []
      else .error (.integerTooLarge self.text origin)
    | .expression, .float, _ => return .mk (.float (floatOf self.text.toList)) origin []
    | .expression, .string, parts =>
      return .mk (.string (String.ofList (unescape (innerText parts).toList))) origin []
    | .expression, .boolean, _ => return .mk (.boolean (self.text = "true")) origin []
    | .expression, .null, _ => return .mk .null origin []
    | reader, rule, _ => .error (misread reader rule origin)

def readAll (file : String) (reader : Reader) : List Parse → Except SyntaxError (List Node)
  | [] => return []
  | p :: rest => return (← read file reader p) :: (← readAll file reader rest)

/-- The parameters of a function or closure, and its body. -/
def readBody (file : String) (reader : Reader) (origin : Origin) :
    List Parse → Except SyntaxError (List String × Node)
  | [] => .error (.incomplete reader.issuer origin)
  | [body] =>
    if body.rule = .paramList then .error (.incomplete reader.issuer origin)
    else return ([], ← read file (reader.body body.rule) body)
  | first :: second :: _ =>
    if first.rule = .paramList then return (paramsOf first, ← read file (reader.body second.rule) second)
    else return ([], ← read file (reader.body first.rule) first)

/-- Operators and operands after a first operand, grouped to the left. -/
def readChain (file : String) (origin : Origin) (left : Node) : List Parse → Except SyntaxError Node
  | [] => return left
  | [op] => .error (.missingOperand op.text origin)
  | op :: right :: rest => do
    let right ← read file .expression right
    readChain file origin (.mk (.binary op.text) (op.origin file) [left, right]) rest

/-- Operators in front of an operand; of several operands the last one counts. -/
def readUnary (file : String) (origin : Origin) (operators : List Parse) (operand : Option Node) :
    List Parse → Except SyntaxError Node
  | [] =>
    match operand with
    | none => .error (.noOperand origin)
    | some node => return prefixed file node operators
  | p :: rest =>
    if p.rule = .unaryOp then readUnary file origin (operators ++ [p]) operand rest
    else do readUnary file origin operators (some (← read file .expression p)) rest

end

/-- The functions of a unit; the end of the input closes the list. -/
def functionsOf (file : String) : List Parse → Except SyntaxError (List Node)
  | [] => return []
  | p :: rest =>
    if p.rule = .functionDecl then return (← read file .function p) :: (← functionsOf file rest)
    else if p.rule = .endOfInput then functionsOf file rest
    else .error (.unexpected "top-level rule" p.rule unitIssuer (p.origin file))

def unitOf (file : String) (p : Parse) : Except SyntaxError CompilationUnit :=
  match p.children with
  | [] => .error (.incomplete unitIssuer (p.origin file))
  | module :: rest =>
    return { file, name := innerText module.children, functions := ← functionsOf file rest
             location := (p.origin file).location }

def parse (source : SourceFile) : Except SyntaxError CompilationUnit :=
  if source.isEmpty then .error (.empty source.name)
  else match Grammar.parse .compilationUnit source.content with
    | .ok (p :: _) => unitOf source.name p
    | .ok [] => .error .noUnit
    | .error failure => .error (.mismatch source.name failure)

end Clausal.Ast
