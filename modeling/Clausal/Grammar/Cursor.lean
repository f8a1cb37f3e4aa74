import Clausal.Source.Location

/-! # Cursors

A cursor is a position in a text together with what remains to be read there. Line and column move
with it: a line feed ends a line, every other character (a carriage return included) is one column. -/

namespace Clausal.Grammar

/-- What remains of a text, and how far it has been read. -/
structure Cursor where
  rest : List Char
  offset : Nat := 0
  line : Nat := 1
  column : Nat := 1
deriving DecidableEq, Repr

namespace Cursor

def ofText (text : String) : Cursor := { rest := text.toList }

/-- The cursor behind the character `c`, in front of `rest`. -/
def past (k : Cursor) (c : Char) (rest : List Char) : Cursor :=
  if c = '\n' then ⟨rest, k.offset + 1, k.line + 1, 1⟩
  else ⟨rest, k.offset + 1, k.line, k.column + 1⟩

def read? (k : Cursor) (accepts : Char → Bool) : Option Cursor :=
  match k.rest with
  | [] => none
  | c :: rest => if accepts c then some (k.past c rest) else none

def readAll? (k : Cursor) : List Char → Option Cursor
  | [] => some k
  | c :: cs =>
    match k.read? (· == c) with
    | some k' => k'.readAll? cs
    | none => none

/-- The blanks that may stand between two parts of a phrase. -/
def isSpace (c : Char) : Bool :=
  c == ' ' || c == '\t' || c == '\r' || c == '\n'

/-- Skip characters that are blanks or belong to a comment; a comment runs from `#` to the end of
its line. -/
def skipFrom (k : Cursor) (comment : Bool) : List Char → Cursor
  | [] => k
  | c :: rest =>
    if comment then (k.past c rest).skipFrom (c != '\n') rest
    else if isSpace c then (k.past c rest).skipFrom false rest
    else if c == '#' then (k.past c rest).skipFrom true rest
    else k

def skip (k : Cursor) : Cursor := k.skipFrom false k.rest

def location (k : Cursor) (file : String) : Location := ⟨file, k.line, k.column⟩

def textTo (k stop : Cursor) : List Char := k.rest.take (stop.offset - k.offset)

end Cursor

end Clausal.Grammar
