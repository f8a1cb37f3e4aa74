import Clausal.Json.Document
import Clausal.Json.Reader
import Clausal.Report

/-! # Compile options

Options choose the passes to run. They are read from a JSON file; a field that is missing is on. -/

namespace Clausal

/-- Which passes run, and whether a program is emitted. -/
structure Options where
  expandMatches : Bool := true
  expandCases : Bool := true
  captureClosures : Bool := true
  resolveLocals : Bool := true
  emitBytecode : Bool := true
deriving DecidableEq, Repr

/-- A pass that is on while one that it needs is off. -/
inductive OptionConflict where
  | resolutionNeedsCaptures
  | bytecodeNeedsResolution
deriving DecidableEq, Repr

def OptionConflict.message : OptionConflict → String
  | resolutionNeedsCaptures => "resolve_locals requires capture_closures"
  | bytecodeNeedsResolution => "emit_bytecode requires resolve_locals"

/-- Why a file gave no options. -/
inductive OptionsFlaw where
  | unreadable (reason : String)
  | malformed (fault : Json.Fault)
  | conflict (conflict : OptionConflict)

def OptionsFlaw.message : OptionsFlaw → String
  | unreadable reason => "read config: " ++ reason
  | malformed fault => "parse config: " ++ fault.message
  | conflict c => c.message

/-- The options of a file cannot be used. -/
structure OptionsError where
  file : String
  flaw : OptionsFlaw

namespace OptionsError

def report (e : OptionsError) : Report where
  level := .error
  message := e.flaw.message
  issuer := "trellis.config"
  location := some ⟨e.file, 1, 1⟩

def text (e : OptionsError) : String := s!"{e.file}: {e.flaw.message}"

end OptionsError

namespace Options

def validate (o : Options) : Except OptionConflict Unit :=
  if o.resolveLocals && !o.captureClosures then .error .resolutionNeedsCaptures
  else if o.emitBytecode && !o.resolveLocals then .error .bytecodeNeedsResolution
  else .ok ()

def document (o : Options) : Json.Document :=
  .obj [("expand_matches", .bool o.expandMatches), ("expand_cases", .bool o.expandCases),
    ("capture_closures", .bool o.captureClosures), ("resolve_locals", .bool o.resolveLocals),
    ("emit_bytecode", .bool o.emitBytecode)]

/-- Options under construction: the fields that were given. -/
structure Given where
  expandMatches : Option Bool := none
  expandCases : Option Bool := none
  captureClosures : Option Bool := none
  resolveLocals : Option Bool := none
  emitBytecode : Option Bool := none

def fields : List (Json.Reader.Field Given) :=
  [⟨"expand_matches", (·.expandMatches.isSome),
      fun g => return { g with expandMatches := some (← .boolean) }⟩,
    ⟨"expand_cases", (·.expandCases.isSome),
      fun g => return { g with expandCases := some (← .boolean) }⟩,
    ⟨"capture_closures", (·.captureClosures.isSome),
      fun g => return { g with captureClosures := some (← .boolean) }⟩,
    ⟨"resolve_locals", (·.resolveLocals.isSome),
      fun g => return { g with resolveLocals := some (← .boolean) }⟩,
    ⟨"emit_bytecode", (·.emitBytecode.isSome),
      fun g => return { g with emitBytecode := some (← .boolean) }⟩]

/-- Options with the fields that were given; the others are on. -/
def ofGiven (g : Given) : Options where
  expandMatches := g.expandMatches.getD true
  expandCases := g.expandCases.getD true
  captureClosures := g.captureClosures.getD true
  resolveLocals := g.resolveLocals.getD true
  emitBytecode := g.emitBytecode.getD true

def reader : Json.Reader Options :=
  .record "struct CompileOptions" fields {} fun g => .ok (ofGiven g)

/-- The options of a file with some content, or of one that could not be read. -/
def ofFile (file : String) (content : Except String String) : Except OptionsError Options :=
  match content with
  | .error reason => .error ⟨file, .unreadable reason⟩
  | .ok text =>
    match reader.run text with
    | .error fault => .error ⟨file, .malformed fault⟩
    | .ok o =>
      match o.validate with
      | .error c => .error ⟨file, .conflict c⟩
      | .ok _ => .ok o

end Options

end Clausal
