import Clausal.Ast.Reading
import Clausal.Bytecode.Generate
import Clausal.Lowering.Lower
import Clausal.Passes.Pipeline

/-! # Compiling a source file

Reading, lowering, the passes and code generation in a row. What stops the compiler is a
`CompileError`; what name resolution finds is collected beside the tree, and an error among it keeps
the program from being emitted. -/

namespace Clausal

/-- Why a source file was not compiled. -/
inductive CompileError where
  | options (e : OptionsError)
  | notParsed (e : Ast.SyntaxError)
  | notLowered (e : BuildError)
  | brokenTree (f : Fault)
  | notGenerated (e : GenerateError)

def CompileError.report : CompileError → Report
  | options e => e.report
  | notParsed e => e.report
  | notLowered e => e.report
  | brokenTree f => f.report
  | notGenerated e => e.report

/-- What became of a source file. -/
structure Compilation where
  tree : Tree
  diagnostics : List Diagnostic
  /-- The program, when one was asked for and nothing stood in its way. -/
  program : Option Program

def Compilation.hasErrors (c : Compilation) : Bool := c.diagnostics.any Diagnostic.isError

/-- A step of compiling, which adds to the journal. -/
abbrev Compile := EStateM CompileError (Array Event)

namespace Compile

def note (e : Event) : Compile Unit := modify (·.push e)

def ofExcept {ε α : Type} (wrap : ε → CompileError) : Except ε α → Compile α
  | .ok a => return a
  | .error e => throw (wrap e)

def checkOptions (o : Options) : Compile Unit :=
  ofExcept (fun c => .options ⟨"<options>", .conflict c⟩) o.validate

def parse (source : SourceFile) : Compile Ast.CompilationUnit := do
  let unit ← ofExcept .notParsed (Ast.parse source)
  note (.parsed source.name unit.name unit.functions.length)
  return unit

def lower (unit : Ast.CompilationUnit) : Compile Tree := fun journal =>
  match Lower.unit unit { journal } with
  | .ok tree b => .ok tree b.journal
  | .error e b => .error (.notLowered e) b.journal

def passes (o : Options) (tree : Tree) : Compile (Tree × List Diagnostic) := fun journal =>
  match runPasses o { tree, journal } with
  | .ok diagnostics w => .ok (w.tree, diagnostics) w.journal
  | .error fault w => .error (.brokenTree fault) w.journal

def generate (tree : Tree) : Compile Program := do
  let program ← ofExcept .notGenerated (Program.ofTree tree)
  note (.generated program.functions.length program.module)
  return program

def source (file : SourceFile) (o : Options) : Compile Compilation := do
  checkOptions o
  let (tree, diagnostics) ← passes o (← lower (← parse file))
  ofExcept .brokenTree tree.validate
  let program ←
    if o.emitBytecode && !diagnostics.any Diagnostic.isError then some <$> generate tree
    else pure none
  note (.compiled file.name diagnostics.length)
  return { tree, diagnostics, program }

end Compile

def compile (file : SourceFile) (o : Options) : Except CompileError Compilation :=
  match Compile.source file o #[] with
  | .ok c _ => .ok c
  | .error e _ => .error e

end Clausal
