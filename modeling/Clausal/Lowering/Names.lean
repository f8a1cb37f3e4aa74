import Std.Data.HashMap

/-! # Names of closures

A closure becomes a function of its own, named after the function it is written in and its number
there: the second closure of `main` is `main$closure$1`. Numbers are counted for each name of an
enclosing function and never go back. -/

namespace Clausal

/-- The functions being lowered, and how many closures were named after each function. -/
structure Names where
  /-- Enclosing functions, innermost first. -/
  enclosing : List String := []
  counters : Std.HashMap String Nat := {}

namespace Names

def enter (n : Names) (function : String) : Names := { n with enclosing := function :: n.enclosing }

def exit (n : Names) : Names := { n with enclosing := n.enclosing.tail }

def current? (n : Names) : Option String := n.enclosing.head?

def closureName (function : String) (number : Nat) : String := s!"{function}$closure${number}"

def next (n : Names) : String × Names :=
  let function := n.current?.getD "<module>"
  let number := n.counters.getD function 0
  (closureName function number, { n with counters := n.counters.insert function (number + 1) })

end Names

end Clausal
