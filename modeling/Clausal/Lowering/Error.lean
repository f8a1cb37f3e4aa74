import Clausal.Ast.Node
import Clausal.Tree.Alternatives

/-! # Why a unit cannot be lowered -/

namespace Clausal

/-- The step of lowering that found a flaw. -/
inductive Stage where
  | node
  | block
  | statement
  | expression
  | alternatives
deriving DecidableEq, Repr

def Stage.issuer : Stage → String
  | node => "trellis.ir.lower.visit_node"
  | block => "trellis.ir.lower.lower_block"
  | statement => "trellis.ir.lower.lower_statement"
  | expression => "trellis.ir.lower.lower_expression"
  | alternatives => "trellis.ir.lower.lower_alternatives"

/-- What is wrong with a syntax node. -/
inductive Flaw where
  | noBody (function : String)
  | missingPart (form : Ast.Form) (index : Nat)
  | expectedBlock (found : Ast.Form)
  | unknownBinary (operator : String)
  | unknownUnary (operator : String)
  | strayClause (form : Ast.Form)
  | foreignPart (arm : Arm) (form : Ast.Form)
  | secondFallback (arm : Arm)
  | noClauses (arm : Arm)
  | noFallback (arm : Arm)

def Arm.description : Arm → String
  | statement => "Case statement"
  | value => "Match expression"

def Flaw.message : Flaw → String
  | noBody function => s!"Function '{function}' has no body."
  | missingPart form index => s!"{form.text} is missing child {index}."
  | expectedBlock found => s!"Expected a block, found {found.text}."
  | unknownBinary operator => s!"Unknown binary operator '{operator}'."
  | unknownUnary operator => s!"Unknown unary operator '{operator}'."
  | strayClause form => s!"'{form.text}' clause outside of a case or match."
  | foreignPart arm form => s!"{arm.description} cannot contain {form.text}."
  | secondFallback arm => s!"{arm.description}: {ConstructionFault.fallbackAlreadySet.message}"
  | noClauses arm => s!"{arm.description} has no 'when' clauses."
  | noFallback arm => s!"{arm.description} has no 'otherwise' branch."

/-- Why a syntax node cannot be lowered. -/
inductive BuildError where
  | malformed (origin : Origin) (stage : Stage) (flaw : Flaw)
  | rejected (fault : Fault)
  | construction (fault : ConstructionFault)

def BuildError.report : BuildError → Report
  | malformed origin stage flaw => .ofOrigin .error flaw.message stage.issuer origin
  | rejected fault => fault.report
  | construction fault => fault.report

end Clausal
