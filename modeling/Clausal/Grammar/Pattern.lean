import Clausal.Grammar.Rule

/-! # The grammar as data

A `Pattern` is a parsing expression: ordered choice, greedy repetition without backtracking, and lookahead
that reads nothing. -/

namespace Clausal.Grammar

/-- A parsing expression. -/
inductive Pattern where
  /-- These characters. -/
  | text (chars : List Char)
  /-- One character of a class. -/
  | one (accepts : Char → Bool)
  /-- The start of the input. -/
  | start
  /-- The end of the input. -/
  | finish
  /-- A named rule. -/
  | rule (name : Rule)
  /-- One pattern, then another. -/
  | seq (first second : Pattern)
  /-- The first pattern, and only if it fails the second. -/
  | choice (first second : Pattern)
  /-- The pattern, or nothing. -/
  | optional (p : Pattern)
  /-- The pattern as often as it matches. -/
  | many (p : Pattern)
  /-- Succeeds where the pattern would match, and reads nothing. -/
  | ahead (p : Pattern)
  /-- Succeeds where the pattern would fail, and reads nothing. -/
  | notAhead (p : Pattern)

/-- How a rule treats blanks between its parts. -/
inductive Spacing where
  /-- As the rule that uses it does; blanks are skipped at the top. -/
  | inherited
  /-- No blanks are skipped, and the rules used inside leave no nodes. -/
  | token
  /-- No blanks are skipped, and the rules used inside leave their nodes. -/
  | tight
deriving DecidableEq, Repr

namespace Pattern

def word (s : String) : Pattern := text s.toList

def sequence : Pattern → List Pattern → Pattern
  | p, [] => p
  | p, q :: rest => seq p (sequence q rest)

def firstOf : Pattern → List Pattern → Pattern
  | p, [] => p
  | p, q :: rest => choice p (firstOf q rest)

def atLeastOne (p : Pattern) : Pattern := seq p (many p)

def anything : Pattern := one fun _ => true

def letter : Pattern := one Char.isAlpha

def digit : Pattern := one Char.isDigit

def nameChar : Pattern := choice (one Char.isAlphanum) (word "_")

def wholeWord (s : String) : Pattern := seq (word s) (notAhead nameChar)

def keyword (s : String) : Pattern := seq (ahead (rule .keyword)) (word s)

/-- One phrase, or several with a separator between them. -/
def separated (separator item : Pattern) : Pattern := seq item (many (seq separator item))

end Pattern

namespace Rule

open Pattern

/-- The keywords after `module`, in the order in which they are tried. -/
def furtherKeywords : List String :=
  ["function", "let", "var", "return", "if", "else", "while", "case", "when", "otherwise", "match",
   "then", "true", "false", "null", "and", "or", "not"]

def statement : Pattern :=
  firstOf (rule letStmt) [rule varStmt, rule returnStmt, rule ifStmt, rule whileStmt, rule caseStmt,
    rule assignStmt, rule expressionStmt]

/-- The branch after `else`: another conditional or a block. -/
def elseClause : Pattern :=
  seq (Pattern.keyword "else") (choice (rule ifStmt) (rule block))

def constant : Pattern :=
  firstOf (rule float) [rule integer, rule string, rule boolean, rule null]

def primary : Pattern :=
  firstOf (rule matchExpr) [rule closure, rule call, constant, rule identifier,
    sequence (word "(") [rule expression, word ")"]]

def chain (operator operand : Rule) : Pattern :=
  seq (rule operand) (many (seq (rule operator) (rule operand)))

def body : Rule → Pattern
  | endOfInput => finish
  | keyword => seq (firstOf (word "module") (furtherKeywords.map word)) (notAhead nameChar)
  | identifier =>
    sequence (notAhead (rule keyword)) [choice letter (word "_"), many nameChar]
  | qualifiedName => separated (word ".") (rule identifier)
  | compilationUnit =>
    sequence start [rule moduleDecl, many (rule functionDecl), rule endOfInput]
  | moduleDecl => seq (Pattern.keyword "module") (rule qualifiedName)
  | functionDecl =>
    sequence (Pattern.keyword "function") [rule identifier, word "=", word "|",
      optional (rule paramList), word "|", rule block]
  | paramList => separated (word ",") (rule identifier)
  | block => sequence (word "\x7b") [many statement, word "\x7d"]
  | letStmt => sequence (Pattern.keyword "let") [rule identifier, word "=", rule expression]
  | varStmt => sequence (Pattern.keyword "var") [rule identifier, word "=", rule expression]
  | assignStmt =>
    sequence (rule identifier) [seq (word "=") (notAhead (word "=")), rule expression]
  | returnStmt =>
    seq (Pattern.keyword "return") (optional (seq (notAhead (word "\x7d")) (rule expression)))
  | ifStmt =>
    sequence (Pattern.keyword "if") [rule expression, rule block, optional elseClause]
  | whileStmt => sequence (Pattern.keyword "while") [rule expression, rule block]
  | expressionStmt => rule expression
  | caseStmt =>
    sequence (Pattern.keyword "case") [word "\x7b", many (rule whenClause),
      optional (rule otherwiseClause), word "\x7d"]
  | whenClause => sequence (Pattern.keyword "when") [rule expression, rule block]
  | otherwiseClause => seq (Pattern.keyword "otherwise") (rule block)
  | matchExpr =>
    sequence (Pattern.keyword "match") [word "\x7b", many (rule matchWhen),
      optional (rule matchOtherwise), word "\x7d"]
  | matchWhen =>
    sequence (Pattern.keyword "when") [rule expression, Pattern.keyword "then", rule expression]
  | matchOtherwise => seq (Pattern.keyword "otherwise") (rule expression)
  | expression => rule orExpr
  | orExpr => chain orOp andExpr
  | andExpr => chain andOp comparison
  | comparison =>
    seq (rule additive) (optional (seq (rule comparisonOp) (rule additive)))
  | additive => chain additiveOp multiplicative
  | multiplicative => chain multiplicativeOp unary
  | unary => seq (many (rule unaryOp)) primary
  | orOp => wholeWord "or"
  | andOp => wholeWord "and"
  | notOp => wholeWord "not"
  | comparisonOp =>
    firstOf (word "==") [word "!=", word "<=", word ">=", word "<", word ">"]
  | additiveOp => choice (word "+") (word "-")
  | multiplicativeOp => firstOf (word "*") [word "/", word "%"]
  | unaryOp => choice (word "-") (rule notOp)
  | closure =>
    sequence (word "|") [optional (rule paramList), word "|",
      choice (seq (word "->") (rule expression)) (rule block)]
  | call => sequence (rule identifier) [word "(", optional (rule argList), word ")"]
  | argList => separated (word ",") (rule expression)
  | float => sequence (atLeastOne digit) [word ".", atLeastOne digit]
  | integer => atLeastOne digit
  | string => sequence (word "\"") [rule stringInner, word "\""]
  | stringInner =>
    many (choice (seq (notAhead (choice (word "\"") (word "\\"))) anything)
      (seq (word "\\") anything))
  | boolean => seq (choice (word "true") (word "false")) (notAhead nameChar)
  | null => wholeWord "null"

def spacing : Rule → Spacing
  | keyword | identifier | qualifiedName | orOp | andOp | notOp | float | integer | stringInner
  | boolean | null => .token
  | string => .tight
  | _ => .inherited

end Rule

end Clausal.Grammar
