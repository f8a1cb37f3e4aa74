import Clausal.Report

/-! # Diagnostics

What name resolution finds to complain about. A diagnostic does not stop the compiler; one that is an
error keeps it from emitting a program. -/

namespace Clausal

/-- Something wrong with the names of a module. -/
inductive Problem where
  | repeatedFunction (name : String)
  | noMain
  | repeatedCapture (name : String)
  | repeatedParameter (name : String)
  | repeatedVariable (name : String)
  | frameFull (function name : String)
  | outsideFunction (name : String)
  | undeclaredTarget (name : String)
  | capturedTarget (name : String)
  | constantTarget (name : String)
  | undeclaredVariable (name : String)
  | wrongArity (function : String) (expected given : Nat)
  | unknownFunction (name : String)
  | captureOutOfScope (name : String)
deriving DecidableEq, Repr

def frameLimit : Nat := 65536

namespace Problem

def message : Problem → String
  | repeatedFunction name => s!"Function '{name}' is declared more than once."
  | noMain => "Module has no 'main' function."
  | repeatedCapture name => s!"Capture '{name}' is listed more than once."
  | repeatedParameter name => s!"Parameter '{name}' is declared more than once."
  | repeatedVariable name => s!"Variable '{name}' is already declared in this scope."
  | frameFull function name =>
    s!"Function '{function}' declares '{name}' past the limit of {frameLimit} frame slots."
  | outsideFunction name => s!"'{name}' is declared outside any function."
  | undeclaredTarget name => s!"Assignment to undeclared variable '{name}'."
  | capturedTarget name => s!"Cannot assign to captured variable '{name}' inside a closure."
  | constantTarget name => s!"Cannot assign to constant '{name}'."
  | undeclaredVariable name => s!"Undeclared variable '{name}'."
  | wrongArity function expected given =>
    s!"Function '{function}' expects {expected} argument(s) but {given} were given."
  | unknownFunction name => s!"Unknown function '{name}'."
  | captureOutOfScope name => s!"Captured variable '{name}' is not in scope."

def level : Problem → Level
  | noMain => .warning
  | _ => .error

end Problem

/-- A problem and where it was found. -/
structure Diagnostic where
  problem : Problem
  origin : Origin
deriving DecidableEq, Repr

namespace Diagnostic

def report (d : Diagnostic) : Report :=
  .ofOrigin d.problem.level d.problem.message "trellis.passes.resolve" d.origin

def isError (d : Diagnostic) : Bool := d.problem.level.isError

end Diagnostic

end Clausal
