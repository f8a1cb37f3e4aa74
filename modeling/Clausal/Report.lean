import Clausal.Source.Location

/-! # Reports

Every error and every diagnostic of the compiler can be shown as a `Report`: how grave it is, what
it says, which part of the compiler raised it, and where it belongs. The two one-line renderings and
the two ways of naming the place behind a message are the only places where that text is laid out. -/

namespace Clausal

/-- How grave a report is, in ascending order. -/
inductive Level where
  | info
  | warning
  | error
  | critical
deriving DecidableEq, Repr

namespace Level

def text : Level → String
  | info => "INFO"
  | warning => "WARNING"
  | error => "ERROR"
  | critical => "CRITICAL"

/-- Levels from `error` upwards keep a program from being emitted. -/
def isError : Level → Bool
  | info | warning => false
  | error | critical => true

end Level

/-- One error or diagnostic, ready to be shown. -/
structure Report where
  level : Level
  message : String
  issuer : String
  location : Option Location := none
  span : Option Span := none
deriving DecidableEq, Repr

namespace Report

def ofOrigin (level : Level) (message issuer : String) (origin : Origin) : Report :=
  { level, message, issuer, location := origin.location, span := origin.span }

def summary (r : Report) : String :=
  let place := (r.location.map Location.text).getD "unknown location"
  s!"TRELLIS | {r.level.text} | {place} | {r.message}"

/-- The full line: level, place, issuer, span and message. -/
def detail (r : Report) : String :=
  let place := (r.location.map Location.text).getD "unknown"
  let extent := (r.span.map Span.text).getD "span:none"
  s!"TRELLIS | {r.level.text} | {place} | {r.issuer} | {extent} | {r.message}"

/-- The two lines shown to the user of the command line: the report, and who raised it. -/
def notice (r : Report) : String :=
  let place := (r.location.map Location.text).getD "unknown location"
  s!"{r.level.text} {place}: {r.message}\n  raised by {r.issuer}\n"

/-- The message followed by its place, as syntax errors are shown. -/
def withPlaceInParens (r : Report) : String :=
  match r.location with
  | some l => s!"{r.message} (at {l.text})"
  | none => r.message

/-- The message followed by its place, as all later stages show it. -/
def withPlace (r : Report) : String :=
  match r.location with
  | some l => s!"{r.message} at {l.text}"
  | none => r.message

end Report

end Clausal
