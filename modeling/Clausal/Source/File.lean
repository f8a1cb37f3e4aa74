import Clausal.Report
import Clausal.Text.Blank
import Clausal.Text.Quoted

/-! # Source files -/

namespace Clausal

/-- A source file: the name used in positions, the path it was read from and its text. -/
structure SourceFile where
  name : String
  path : String
  content : String
deriving DecidableEq, Repr

namespace SourceFile

def ofText (name content : String) : SourceFile := ⟨name, name, content⟩

def isEmpty (s : SourceFile) : Bool := s.content.toList.all Text.isBlank

def text (s : SourceFile) : String :=
  s!"Source: {s.name} at {Text.quoted s.path}"

end SourceFile

/-- A source file that could not be read. -/
structure MissingSource where
  path : String
  reason : String
deriving DecidableEq, Repr

def MissingSource.report (e : MissingSource) : Report where
  level := .error
  message := s!"Missing source at {Text.quoted e.path}: {e.reason}"
  issuer := "trellis.source"

end Clausal
