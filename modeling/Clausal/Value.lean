import Clausal.Decimal.Layout
import Clausal.Text.Quoted

/-! # Constants and operators -/

namespace Clausal

/-- A constant of the program. -/
inductive Value where
  | int (value : Int64)
  | float (value : Float)
  | bool (value : Bool)
  | str (value : String)
  | null
deriving BEq, Repr

def Value.text : Value → String
  | int v => toString v.toInt
  | float v => Decimal.listing.text v
  | bool v => toString v
  | str v => Text.quoted v
  | null => "null"

/-- The operators between two operands. -/
inductive BinaryOperator where
  | add
  | sub
  | mul
  | div
  | mod
  | eq
  | ne
  | lt
  | le
  | gt
  | ge
  | and
  | or
deriving DecidableEq, Repr

namespace BinaryOperator

def all : List BinaryOperator := [add, sub, mul, div, mod, eq, ne, lt, le, gt, ge, and, or]

def symbol : BinaryOperator → String
  | add => "+"
  | sub => "-"
  | mul => "*"
  | div => "/"
  | mod => "%"
  | eq => "=="
  | ne => "!="
  | lt => "<"
  | le => "<="
  | gt => ">"
  | ge => ">="
  | and => "and"
  | or => "or"

def ofSymbol? (s : String) : Option BinaryOperator := all.find? (·.symbol = s)

end BinaryOperator

/-- The operators in front of one operand. -/
inductive UnaryOperator where
  | neg
  | not
deriving DecidableEq, Repr

namespace UnaryOperator

def all : List UnaryOperator := [neg, not]

def symbol : UnaryOperator → String
  | neg => "-"
  | not => "not"

def ofSymbol? (s : String) : Option UnaryOperator := all.find? (·.symbol = s)

end UnaryOperator

end Clausal
