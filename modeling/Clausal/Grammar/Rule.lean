/-! # The rules of the grammar, by name

Rules that leave a node in the parse, in the order of the grammar; the end of the input comes first.
Failures list rules in this order. -/

namespace Clausal.Grammar

/-- The name of a grammar rule. -/
inductive Rule where
  | endOfInput
  | keyword
  | identifier
  | qualifiedName
  | compilationUnit
  | moduleDecl
  | functionDecl
  | paramList
  | block
  | letStmt
  | varStmt
  | assignStmt
  | returnStmt
  | ifStmt
  | whileStmt
  | expressionStmt
  | caseStmt
  | whenClause
  | otherwiseClause
  | matchExpr
  | matchWhen
  | matchOtherwise
  | expression
  | orExpr
  | andExpr
  | comparison
  | additive
  | multiplicative
  | unary
  | orOp
  | andOp
  | notOp
  | comparisonOp
  | additiveOp
  | multiplicativeOp
  | unaryOp
  | closure
  | call
  | argList
  | float
  | integer
  | string
  | stringInner
  | boolean
  | null
deriving DecidableEq, Repr

namespace Rule

def all : List Rule :=
  [endOfInput, keyword, identifier, qualifiedName, compilationUnit, moduleDecl, functionDecl,
   paramList, block, letStmt, varStmt, assignStmt, returnStmt, ifStmt, whileStmt, expressionStmt,
   caseStmt, whenClause, otherwiseClause, matchExpr, matchWhen, matchOtherwise, expression, orExpr,
   andExpr, comparison, additive, multiplicative, unary, orOp, andOp, notOp, comparisonOp,
   additiveOp, multiplicativeOp, unaryOp, closure, call, argList, float, integer, string,
   stringInner, boolean, null]

def text : Rule → String
  | endOfInput => "EOI"
  | keyword => "keyword"
  | identifier => "identifier"
  | qualifiedName => "qualified_name"
  | compilationUnit => "compilation_unit"
  | moduleDecl => "module_decl"
  | functionDecl => "function_decl"
  | paramList => "param_list"
  | block => "block"
  | letStmt => "let_stmt"
  | varStmt => "var_stmt"
  | assignStmt => "assign_stmt"
  | returnStmt => "return_stmt"
  | ifStmt => "if_stmt"
  | whileStmt => "while_stmt"
  | expressionStmt => "expression_stmt"
  | caseStmt => "case_stmt"
  | whenClause => "when_clause"
  | otherwiseClause => "otherwise_clause"
  | matchExpr => "match_expr"
  | matchWhen => "match_when"
  | matchOtherwise => "match_otherwise"
  | expression => "expression"
  | orExpr => "or_expr"
  | andExpr => "and_expr"
  | comparison => "comparison"
  | additive => "additive"
  | multiplicative => "multiplicative"
  | unary => "unary"
  | orOp => "or_op"
  | andOp => "and_op"
  | notOp => "not_op"
  | comparisonOp => "comparison_op"
  | additiveOp => "additive_op"
  | multiplicativeOp => "multiplicative_op"
  | unaryOp => "unary_op"
  | closure => "closure"
  | call => "call"
  | argList => "arg_list"
  | float => "float"
  | integer => "integer"
  | string => "string"
  | stringInner => "string_inner"
  | boolean => "boolean"
  | null => "null"

end Rule

end Clausal.Grammar
