import Clausal.Proofs.Grammar.Lexemes

/-! # Printing expressions

An `Expr` is an expression with nothing that depends on the place where it is written.  `Expr.words` prints it
with as few brackets as the levels of operators allow, and `Expr.node` is its syntax.  A closure reaches as
far to the right as it can. -/

namespace Clausal.Printing

open Grammar (Name Glyph Word digitsWord isSolid)
open Ast (Node)

/-! ### Levels -/

/-- The levels of operators between two operands, from the loosest to the tightest. -/
inductive Tier where
  | disjunction
  | conjunction
  | comparison
  | sum
  | product
deriving DecidableEq

/-- The levels of expressions, from the loosest to the tightest. -/
inductive Level where
  | whole
  | binary (t : Tier)
  | sign
  | atom
deriving DecidableEq

namespace Level

def rank : Level → Nat
  | whole => 0
  | binary .disjunction => 1
  | binary .conjunction => 2
  | binary .comparison => 3
  | binary .sum => 4
  | binary .product => 5
  | sign => 6
  | atom => 7

def next : Level → Level
  | whole => binary .disjunction
  | binary .disjunction => binary .conjunction
  | binary .conjunction => binary .comparison
  | binary .comparison => binary .sum
  | binary .sum => binary .product
  | binary .product => sign
  | sign | atom => atom

instance : LE Level := ⟨fun a b => a.rank ≤ b.rank⟩

instance (a b : Level) : Decidable (a ≤ b) := inferInstanceAs (Decidable (a.rank ≤ b.rank))

variable {a b : Level}

theorem le_iff : a ≤ b ↔ a.rank ≤ b.rank := Iff.rfl

theorem rank_injective (h : a.rank = b.rank) : a = b := by
  rcases a with _ | (_ | _ | _ | _ | _) | _ | _ <;> rcases b with _ | (_ | _ | _ | _ | _) | _ | _ <;>
    first | rfl | cases h

theorem rank_le_atom (a : Level) : a.rank ≤ atom.rank := by
  rcases a with _ | (_ | _ | _ | _ | _) | _ | _ <;> decide

theorem rank_next (h : a ≠ atom) : a.next.rank = a.rank + 1 := by
  rcases a with _ | (_ | _ | _ | _ | _) | _ | _ <;> first | rfl | exact absurd rfl h

theorem descend {P : Level → Prop} {low high : Level} (hle : low ≤ high) (hhigh : P high)
    (hstep : ∀ L, low ≤ L → ¬ high ≤ L → P L.next → P L) : P low := by
  obtain ⟨d, hd⟩ : ∃ d, high.rank = low.rank + d := Nat.exists_eq_add_of_le hle
  induction d generalizing low with
  | zero => exact rank_injective hd ▸ hhigh
  | succ d ih =>
    have hne : low ≠ atom := by
      rintro rfl
      have := high.rank_le_atom
      omega
    have hrank := rank_next hne
    refine hstep low (Nat.le_refl _) ?_ (ih ?_ (fun L hL => hstep L ?_) ?_)
    · rw [le_iff]; omega
    · rw [le_iff]; omega
    · rw [le_iff] at hL ⊢; omega
    · omega

end Level

/-! ### Operators -/

/-- The operators between two operands. -/
inductive Operator where
  | or | and | equal | unequal | atMost | atLeast | less | greater | plus | minus | times | divided | modulo
deriving DecidableEq

namespace Operator

def all : List Operator :=
  [or, and, equal, unequal, atMost, atLeast, less, greater, plus, minus, times, divided, modulo]

theorem mem_all (op : Operator) : op ∈ all := by cases op <;> decide

def symbol : Operator → String
  | or => "or"
  | and => "and"
  | equal => "=="
  | unequal => "!="
  | atMost => "<="
  | atLeast => ">="
  | less => "<"
  | greater => ">"
  | plus => "+"
  | minus => "-"
  | times => "*"
  | divided => "/"
  | modulo => "%"

def tier : Operator → Tier
  | or => .disjunction
  | and => .conjunction
  | equal | unequal | atMost | atLeast | less | greater => .comparison
  | plus | minus => .sum
  | times | divided | modulo => .product

/-- The level that a left operand must have; comparisons do not follow each other. -/
def leftLevel (op : Operator) : Level :=
  if op.tier = .comparison then (Level.binary op.tier).next else .binary op.tier

def rightLevel (op : Operator) : Level := (Level.binary op.tier).next

def word (op : Operator) : Word := ⟨op.symbol.toList, by cases op <;> rfl⟩

end Operator

/-- The operators in front of an operand. -/
inductive Sign where
  | minus | not
deriving DecidableEq

namespace Sign

def symbol : Sign → String
  | minus => "-"
  | not => "not"

def word (s : Sign) : Word := ⟨s.symbol.toList, by cases s <;> rfl⟩

end Sign

/-! ### Expressions -/

mutual

/-- An expression.  A string is given as it is written. -/
inductive Expr where
  | integer (n : Nat) (h : n ≤ Ast.maxInteger)
  | string (spelling : List Glyph)
  | boolean (b : Bool)
  | null
  | identifier (x : Name)
  | call (f : Name) (arguments : List Expr)
  | unary (op : Sign) (operand : Expr)
  | binary (op : Operator) (left right : Expr)
  | closure (params : List Name) (body : Expr)
  | matchOf (clauses : Clauses)

/-- The clauses of a match: conditions with values, and at the end perhaps a value for all other cases. -/
inductive Clauses where
  | done
  | otherwise (value : Expr)
  | when (condition value : Expr) (more : Clauses)

end

def Expr.level : Expr → Level
  | closure .. => .whole
  | binary op .. => .binary op.tier
  | unary .. => .sign
  | _ => .atom

def fixed (s : String) (h : isSolid s.toList = true) : Word := ⟨s.toList, h⟩

/-- Words in brackets, if their level is lower than the one that is needed. -/
def bracketed (needed given : Level) (ws : List Word) : List Word :=
  if needed ≤ given then ws else fixed "(" rfl :: (ws ++ [fixed ")" rfl])

def furtherNames : List Name → List Word
  | [] => []
  | x :: xs => fixed "," rfl :: x.word :: furtherNames xs

def namesWords : List Name → List Word
  | [] => []
  | x :: xs => x.word :: furtherNames xs

mutual

def Expr.words : Expr → List Word
  | .integer n _ => [digitsWord n]
  | .string gs => [Glyph.word gs]
  | .boolean true => [fixed "true" rfl]
  | .boolean false => [fixed "false" rfl]
  | .null => [fixed "null" rfl]
  | .identifier x => [x.word]
  | .call f es => f.word :: fixed "(" rfl :: (argumentsWords es ++ [fixed ")" rfl])
  | .unary op e => op.word :: bracketed .sign e.level e.words
  | .binary op l r => bracketed op.leftLevel l.level l.words ++ op.word :: bracketed op.rightLevel r.level r.words
  | .closure ps e => fixed "|" rfl :: (namesWords ps ++ fixed "|" rfl :: fixed "->" rfl :: e.words)
  | .matchOf cs => fixed "match" rfl :: fixed "\x7b" rfl :: (cs.words ++ [fixed "\x7d" rfl])

def argumentsWords : List Expr → List Word
  | [] => []
  | e :: es => e.words ++ furtherWords es

def furtherWords : List Expr → List Word
  | [] => []
  | e :: es => fixed "," rfl :: (e.words ++ furtherWords es)

def Clauses.words : Clauses → List Word
  | .done => []
  | .otherwise e => fixed "otherwise" rfl :: e.words
  | .when c e cs => fixed "when" rfl :: (c.words ++ fixed "then" rfl :: (e.words ++ cs.words))

end

/-! ### Syntax -/

def built (form : Ast.Form) (parts : List Node) : Node := .mk form .synthetic parts

mutual

def Expr.node : Expr → Node
  | .integer n _ => built (.integer (.ofInt n)) []
  | .string gs => built (.string (String.ofList (gs.map Glyph.value))) []
  | .boolean b => built (.boolean b) []
  | .null => built .null []
  | .identifier x => built (.identifier x.text) []
  | .call f es => built (.call f.text) (nodesOf es)
  | .unary op e => built (.unary op.symbol) [e.node]
  | .binary op l r => built (.binary op.symbol) [l.node, r.node]
  | .closure ps e => built (.closure (ps.map Name.text)) [e.node]
  | .matchOf cs => built .matchOf cs.nodes

def nodesOf : List Expr → List Node
  | [] => []
  | e :: es => e.node :: nodesOf es

def Clauses.nodes : Clauses → List Node
  | .done => []
  | .otherwise e => [built .otherwise [e.node]]
  | .when c e cs => built .whenClause [c.node, e.node] :: cs.nodes

end

end Clausal.Printing

namespace Clausal.Ast.Node

mutual

def bare : Node → Node
  | mk form _ parts => mk form .synthetic (bareAll parts)

def bareAll : List Node → List Node
  | [] => []
  | n :: ns => bare n :: bareAll ns

end

end Clausal.Ast.Node
