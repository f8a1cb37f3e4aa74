import Clausal.Grammar.Attempts
import Clausal.Grammar.Cursor
import Clausal.Grammar.Pattern

/-! # Matching a text against the grammar

`Pattern.run` matches a pattern at a cursor. It carries a `Mode`, which says whether the match is a lookahead
and how blanks are treated, and the record of `Attempts`. A failed match leaves nothing behind but that
record. -/

namespace Clausal.Grammar

/-- The text matched by a rule, from its start to its end, with the nodes inside. -/
inductive Parse where
  | node (rule : Rule) (start stop : Cursor) (children : List Parse)

namespace Parse

def rule : Parse → Rule
  | node r _ _ _ => r

def start : Parse → Cursor
  | node _ k _ _ => k

def stop : Parse → Cursor
  | node _ _ k _ => k

def children : Parse → List Parse
  | node _ _ _ ps => ps

def text (p : Parse) : String := String.ofList (p.start.textTo p.stop)

def origin (p : Parse) (file : String) : Origin :=
  .ofSpan ⟨p.start.location file, p.stop.location file⟩

end Parse

/-- Whether a match is part of a lookahead, and of which kind. -/
inductive Lookahead where
  | none
  | positive
  | negative
deriving DecidableEq, Repr

namespace Lookahead

def affirm : Lookahead → Lookahead
  | none | positive => positive
  | negative => negative

def negate : Lookahead → Lookahead
  | none | positive => negative
  | negative => positive

end Lookahead

/-- The circumstances of a match. -/
structure Mode where
  lookahead : Lookahead := .none
  spacing : Spacing := .inherited
deriving DecidableEq, Repr

namespace Mode

def skip (m : Mode) (k : Cursor) : Cursor :=
  if m.spacing = .inherited then k.skip else k

def around (m : Mode) (r : Rule) : Mode :=
  if r.spacing = .tight then { m with spacing := .tight } else m

def inside (m : Mode) (r : Rule) : Mode :=
  match r.spacing with
  | .inherited => m
  | s => { m with spacing := s }

def leavesNodes (m : Mode) : Bool :=
  m.lookahead = .none && m.spacing ≠ .token

/-- Note in the record a rule that failed, or that matched where it must not. -/
def note (m : Mode) (r : Rule) (position : Nat) (matched : Bool) (before after : Attempts) :
    Attempts :=
  let negative := m.lookahead = .negative
  if m.spacing = .token || matched != negative then after
  else after.note before r position negative

end Mode

/-- The outcome of a match. -/
inductive Outcome where
  | matched (stop : Cursor) (nodes : List Parse)
  | failed
  | exhausted

def Mode.finish (m : Mode) (r : Rule) (start : Cursor) (before : Attempts) :
    Outcome × Attempts → Outcome × Attempts
  | (.matched stop nodes, after) =>
    (.matched stop (if m.leavesNodes then [.node r start stop nodes] else nodes),
      m.note r start.offset true before after)
  | (.failed, after) => (.failed, m.note r start.offset false before after)
  | (.exhausted, after) => (.exhausted, after)

/-- The outcome of an attempt that reads no further than the cursor it returns. -/
def Outcome.ofCursor : Option Cursor → Outcome
  | some k => .matched k []
  | none => .failed

namespace Pattern

mutual

def run : Nat → Pattern → Mode → Cursor → Attempts → Outcome × Attempts
  | 0, _, _, _, a => (.exhausted, a)
  | _ + 1, .text chars, _, k, a => (.ofCursor (k.readAll? chars), a)
  | _ + 1, .one accepts, _, k, a => (.ofCursor (k.read? accepts), a)
  | _ + 1, .start, _, k, a => (if k.offset = 0 then .matched k [] else .failed, a)
  | _ + 1, .finish, _, k, a => (if k.rest.isEmpty then .matched k [] else .failed, a)
  | fuel + 1, .rule r, m, k, a =>
    (m.around r).finish r k a (run fuel r.body ((m.around r).inside r) k a)
  | fuel + 1, .seq p q, m, k, a =>
    match run fuel p m k a with
    | (.matched k₁ ps, a₁) =>
      match run fuel q m (m.skip k₁) a₁ with
      | (.matched k₂ qs, a₂) => (.matched k₂ (ps ++ qs), a₂)
      | other => other
    | other => other
  | fuel + 1, .choice p q, m, k, a =>
    match run fuel p m k a with
    | (.failed, a₁) => run fuel q m k a₁
    | other => other
  | fuel + 1, .optional p, m, k, a =>
    match run fuel p m k a with
    | (.failed, a₁) => (.matched k [], a₁)
    | other => other
  | fuel + 1, .many p, m, k, a =>
    match run fuel p m k a with
    | (.failed, a₁) => (.matched k [], a₁)
    | (.matched k₁ ps, a₁) => runMore fuel p m k₁ a₁ ps.reverse
    | other => other
  | fuel + 1, .ahead p, m, k, a =>
    match run fuel p { m with lookahead := m.lookahead.affirm } k a with
    | (.matched _ _, a₁) => (.matched k [], a₁)
    | other => other
  | fuel + 1, .notAhead p, m, k, a =>
    match run fuel p { m with lookahead := m.lookahead.negate } k a with
    | (.matched _ _, a₁) => (.failed, a₁)
    | (.failed, a₁) => (.matched k [], a₁)
    | other => other

/-- Further rounds of a repetition; `nodes` holds those of the rounds so far, the last one first. -/
def runMore : Nat → Pattern → Mode → Cursor → Attempts → List Parse → Outcome × Attempts
  | 0, _, _, _, a, _ => (.exhausted, a)
  | fuel + 1, p, m, k, a, nodes =>
    match run fuel p m (m.skip k) a with
    | (.failed, a₁) => (.matched k nodes.reverse, a₁)
    | (.matched k₁ ps, a₁) => runMore fuel p m k₁ a₁ (ps.reverseAux nodes)
    | other => other

end

end Pattern

/-- Enough fuel for a text of this length: no rule of the grammar nests 128 patterns deep without
reading a character. -/
def fuelFor (length : Nat) : Nat := 128 * (length + 1)

/-- Where and why a text does not match. -/
structure Failure where
  line : Nat
  column : Nat
  message : String
deriving DecidableEq, Repr

def Cursor.atOffset (text : String) (offset : Nat) : Cursor :=
  (text.toList.take offset).foldl (fun k c => k.past c k.rest.tail) (.ofText text)

def parse (r : Rule) (text : String) : Except Failure (List Parse) :=
  let start := Cursor.ofText text
  match Pattern.run (fuelFor start.rest.length) (.rule r) {} start {} with
  | (.matched _ nodes, _) => .ok nodes
  | (_, attempts) =>
    let place := Cursor.atOffset text attempts.position
    .error ⟨place.line, place.column, attempts.message⟩

end Clausal.Grammar
