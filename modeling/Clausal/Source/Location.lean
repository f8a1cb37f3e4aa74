/-! # Positions in a source file

Lines and columns start at one; a column counts characters. An `Origin` is what an element of the
program remembers about the text it came from; an element made by the compiler itself has none. -/

namespace Clausal

/-- A place in a named file. -/
structure Location where
  file : String
  line : Nat
  column : Nat
deriving DecidableEq, Repr, Inhabited

def Location.text (l : Location) : String :=
  s!"{l.file}:{l.line}:{l.column}"

def Location.place (l : Location) : String :=
  s!"{l.line}:{l.column}"

/-- A stretch of text between two places. -/
structure Span where
  start : Location
  stop : Location
deriving DecidableEq, Repr, Inhabited

def Span.text (s : Span) : String :=
  s!"{s.start.text} - {s.stop.text}"

/-- Where something came from, as far as that is known. -/
structure Origin where
  location : Option Location := none
  span : Option Span := none
deriving DecidableEq, Repr, Inhabited

/-- The origin of what has no counterpart in the source text. -/
def Origin.synthetic : Origin := {}

/-- The origin of a stretch of text: its start and its extent. -/
def Origin.ofSpan (s : Span) : Origin := ⟨some s.start, some s⟩

end Clausal
