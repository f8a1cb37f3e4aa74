import Clausal.Text.Quoted

/-! # Text for a terminal

A terminal acts upon some control characters instead of showing them. Lines of the journal hold names
of files, which may have any character, so there these are written by number. Blanks and line ends are
left alone, and so are the control characters that no terminal takes for a command. -/

namespace Clausal.Text

/-- The control characters below U+0080 that start a command or move the cursor: bell, backspace,
form feed, escape and delete. -/
def commandChars : List Nat := [0x07, 0x08, 0x0C, 0x1B, 0x7F]

def hexPair (n : Nat) : String :=
  String.ofList ((if n < 16 then ['0'] else []) ++ Nat.toDigits 16 n)

/-- How one character is written for a terminal. The control characters from U+0080 on are commands
as well. -/
def harmlessChar (c : Char) : String :=
  if commandChars.contains c.toNat then "\\x" ++ hexPair c.toNat
  else if 0x80 ≤ c.toNat && c.toNat ≤ 0x9F then "\\u\x7b" ++ hexadecimal c.toNat ++ "\x7d"
  else c.toString

def harmless (s : String) : String := String.join (s.toList.map harmlessChar)

end Clausal.Text
