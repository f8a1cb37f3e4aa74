import Clausal.Bytecode.Exchange
import Clausal.Bytecode.Listing
import Clausal.Command.Disk
import Clausal.Command.Request
import Clausal.Compile
import Clausal.Tree.Table

/-! # The command line

`run` carries out a request on a disk and answers with an exit code and the text for both streams. -/

namespace Clausal

/-- What a run of the command line leaves behind, besides files. -/
structure Outcome where
  exit : UInt32
  out : String := ""
  err : String := ""
deriving DecidableEq, Repr

namespace Command

/-- What was printed so far. -/
structure Printed where
  out : String := ""
  err : String := ""

end Command

/-- A step of the command line; a report ends it. -/
abbrev Command (m : Type → Type) := ExceptT Report (StateT Command.Printed m)

namespace Command

variable {m : Type → Type} [Monad m]

def print (text : String) : Command m Unit := modify fun p => { p with out := p.out ++ text }

def notify (text : String) : Command m Unit := modify fun p => { p with err := p.err ++ text }

def disk {α : Type} (step : m α) : Command m α := liftM step

def ofExcept {ε α : Type} (report : ε → Report) : Except ε α → Command m α
  | .ok a => return a
  | .error e => throw (report e)

/-- A step of the compiler, whose journal is printed as far as the verbosity shows it. -/
def compiling {α : Type} (verbosity : Verbosity) (step : Compile α) : Command m α := do
  match step #[] with
  | .ok a journal =>
    notify (journalText verbosity journal.toList)
    return a
  | .error e journal =>
    notify (journalText verbosity journal.toList)
    throw e.report

def loadSource (d : Disk m) (path : String) : Command m SourceFile := do
  match ← disk (d.read path) with
  | .ok content => return { name := Path.fileName path, path, content }
  | .error reason => throw (MissingSource.report { path, reason })

/-- The file whose options apply: the one asked for, or `trellis.json` beside the source. -/
def optionsFile (d : Disk m) (source : SourceFile) (config : Option String) :
    Command m (Option String) := do
  match config, Path.parent? source.path with
  | some file, _ => return some file
  | none, none => return none
  | none, some directory =>
    let beside := Path.join directory "trellis.json"
    return if ← disk (d.isFile beside) then some beside else none

def loadOptions (d : Disk m) (verbosity : Verbosity) (source : SourceFile)
    (config : Option String) : Command m Options := do
  match ← optionsFile d source config with
  | none => return {}
  | some file =>
    notify (journalText verbosity [.optionsLoaded file])
    ofExcept OptionsError.report (Options.ofFile file (← disk (d.read file)))

def showDiagnostics (c : Compilation) : Command m Unit :=
  notify (String.join (c.diagnostics.map (·.report.notice)))

def unwritable (path reason : String) : Report where
  level := .error
  message := "write output: " ++ reason
  issuer := "trellis.cli"
  location := some ⟨path, 1, 1⟩

def writeProgram (d : Disk m) (path : String) (program : Program) : Command m Unit := do
  match ← disk (d.write path program.fileText) with
  | .ok _ => notify s!"wrote {path}\n"
  | .error reason => throw (unwritable path reason)

/-- Print a stage of a compilation; the outline is printed before compiling. -/
def printStage (c : Compilation) : Option Dump → Command m Unit
  | some .tree => print c.tree.dump
  | some .table => print (c.tree.table ++ "\n")
  | some .listing => print ((c.program.map Program.listing).getD "")
  | some .outline | none => return

def build (d : Disk m) (verbosity : Verbosity) (file : String) (output : Option String)
    (dump : Option Dump) (config : Option String) : Command m Bool := do
  let source ← loadSource d file
  let options ← loadOptions d verbosity source config
  if dump = some .outline then
    print (← compiling verbosity (Compile.parse source)).text
  let c ← compiling verbosity (Compile.source source options)
  showDiagnostics c
  printStage c dump
  match c.program, output with
  | none, _ => return !c.hasErrors
  | some _, none => return true
  | some program, some path =>
    writeProgram d path program
    return true

def check (d : Disk m) (verbosity : Verbosity) (file : String) (config : Option String) :
    Command m Bool := do
  let source ← loadSource d file
  let options ← loadOptions d verbosity source config
  let c ← compiling verbosity (Compile.source source { options with emitBytecode := false })
  showDiagnostics c
  if !c.hasErrors then
    notify s!"{source.name}: no errors\n"
  return !c.hasErrors

def helpText : String :=
  "Compile Trellis modules to stack bytecode\n\n" ++
  "Usage: trellis [-v...] build FILE [-o FILE] [-d syntax|ir|ir-table|bytecode] [--config FILE]\n" ++
  "       trellis [-v...] check FILE [--config FILE]\n"

def act (d : Disk m) (verbosity : Verbosity) : Action → Command m Bool
  | .build file output dump config => build d verbosity file output dump config
  | .check file config => check d verbosity file config
  | .nothing => do
    print "No valid subcommand was used. Use --help for more information.\n"
    return false
  | .showHelp => do
    print helpText
    return true
  | .showVersion => do
    print "Trellis CLI 0.1.0\n"
    return true

end Command

def runCommand {m : Type → Type} [Monad m] (d : Disk m) (args : List String) : m Outcome := do
  match Request.ofArguments 0 args with
  | none => return { exit := 2, err := "error: invalid arguments\n\nFor more information, try '--help'.\n" }
  | some request =>
    let (result, printed) ← (Command.act d (.ofCount request.verbose) request.action).run {}
    match result with
    | .ok true => return { exit := 0, out := printed.out, err := printed.err }
    | .ok false => return { exit := 1, out := printed.out, err := printed.err }
    | .error report => return { exit := 1, out := printed.out, err := printed.err ++ report.notice }

end Clausal
