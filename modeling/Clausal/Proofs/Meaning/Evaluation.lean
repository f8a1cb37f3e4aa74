import Clausal.Proofs.Meaning.Machine
import Clausal.Tree.Unfolding

/-! # Structured evaluation

The meaning of the body of a function, read off its structure and knowing nothing of code.  The value of an
expression is a function of the store (`value`): an expression always comes to an end. -/

namespace Clausal

namespace Meaning

variable {V : Type}

mutual

def value (I : Interpretation V) : Unfolding → Store V → Option (V × Store V)
  | .node _ kind _ children, s =>
    match kind, children with
    | .constant v, _ => some (I.constant v, s)
    | .reference _ (some b), _ => some (s.frame b.slot, s)
    | .binary .and _ _, [left, right] => do
      let (a, s) ← value I left s
      if I.truthy a then value I right s else some (a, s)
    | .binary .or _ _, [left, right] => do
      let (a, s) ← value I left s
      if I.truthy a then some (a, s) else value I right s
    | .binary operator _ _, [left, right] => do
      let (a, s) ← value I left s
      let (b, s) ← value I right s
      some (I.binary operator a b, s)
    | .unary operator _, [operand] => do
      let (a, s) ← value I operand s
      some (I.unary operator a, s)
    | .invocation name _ (some target), arguments => do
      let (vs, s) ← values I arguments s
      some (I.ask s (s.query name vs target))
    | .closure _ captured, [.node _ (.function name _ _ _ _) _ _] =>
      some (I.ask s (.make name (captured.map fun b => s.frame b.slot)))
    | .matchOf _ _, arms => choice I arms s
    | _, _ => none

def values (I : Interpretation V) : List Unfolding → Store V → Option (List V × Store V)
  | [], s => some ([], s)
  | u :: us, s => do
    let (v, s) ← value I u s
    let (vs, s) ← values I us s
    some (v :: vs, s)

/-- The value of the first clause whose condition is true, or else of the fallback, which comes last. -/
def choice (I : Interpretation V) : List Unfolding → Store V → Option (V × Store V)
  | [fallback], s => value I fallback s
  | .node _ (.whenClause ..) _ [condition, result] :: rest, s => do
    let (a, s) ← value I condition s
    if I.truthy a then value I result s else choice I rest s
  | _, _ => none

end

/-- How statements end. -/
inductive Outcome (V : Type) where
  /-- What comes after them is next. -/
  | falls (s : Store V)
  /-- Their function returns a value. -/
  | returns (v : V) (s : Store V)

/-- What there is to run. -/
inductive Task where
  /-- One statement. -/
  | statement (u : Unfolding)
  /-- Statements in order. -/
  | sequence (us : List Unfolding)
  /-- The clauses of a case and its fallback, which comes last. -/
  | arms (us : List Unfolding)

/-- Running to an end. -/
inductive Runs (I : Interpretation V) : Task → Store V → Outcome V → Prop
  | expression {u s s1 v} : u.kind.isExpression = true → value I u s = some (v, s1) →
      Runs I (.statement u) s (.falls s1)
  | block {i ids o us s r} : Runs I (.sequence us) s r → Runs I (.statement (.node i (.block ids) o us)) s r
  | assignment {i x name d b f o u s s1 v} : value I u s = some (v, s1) →
      Runs I (.statement (.node i (.assignment name d x (some b) f) o [u])) s (.falls (s1.write b.slot v))
  | bareReturn {i o us s} : Runs I (.statement (.node i (.returns none) o us)) s (.returns (I.constant .null) s)
  | valueReturn {i x o u s s1 v} : value I u s = some (v, s1) →
      Runs I (.statement (.node i (.returns (some x)) o [u])) s (.returns v s1)
  | thenBranch {i c a e o condition action rest s s1 v r} :
      value I condition s = some (v, s1) → I.truthy v = true → Runs I (.statement action) s1 r →
      Runs I (.statement (.node i (.conditional c a e) o (condition :: action :: rest))) s r
  | elseBranch {i c a e o condition action other s s1 v r} :
      value I condition s = some (v, s1) → I.truthy v = false → Runs I (.statement other) s1 r →
      Runs I (.statement (.node i (.conditional c a e) o [condition, action, other])) s r
  | noElse {i c a e o condition action s s1 v} : value I condition s = some (v, s1) → I.truthy v = false →
      Runs I (.statement (.node i (.conditional c a e) o [condition, action])) s (.falls s1)
  | loopAgain {i c a o condition body s s1 s2 v r} : value I condition s = some (v, s1) → I.truthy v = true →
      Runs I (.statement body) s1 (.falls s2) →
      Runs I (.statement (.node i (.loop c a) o [condition, body])) s2 r →
      Runs I (.statement (.node i (.loop c a) o [condition, body])) s r
  | loopReturn {i c a o condition body s s1 s2 v w} : value I condition s = some (v, s1) → I.truthy v = true →
      Runs I (.statement body) s1 (.returns w s2) →
      Runs I (.statement (.node i (.loop c a) o [condition, body])) s (.returns w s2)
  | loopEnd {i c a o condition body s s1 v} : value I condition s = some (v, s1) → I.truthy v = false →
      Runs I (.statement (.node i (.loop c a) o [condition, body])) s (.falls s1)
  | caseOf {i ids x o us s r} : Runs I (.arms us) s r → Runs I (.statement (.node i (.caseOf ids x) o us)) s r
  | clause {i c a arm o condition action rest s s1 v r} :
      value I condition s = some (v, s1) → I.truthy v = true → Runs I (.statement action) s1 r →
      Runs I (.arms (.node i (.whenClause c a arm) o [condition, action] :: rest)) s r
  | nextClause {i c a arm o condition action rest s s1 v r} :
      value I condition s = some (v, s1) → I.truthy v = false → Runs I (.arms rest) s1 r →
      Runs I (.arms (.node i (.whenClause c a arm) o [condition, action] :: rest)) s r
  | fallback {u s r} : Runs I (.statement u) s r → Runs I (.arms [u]) s r
  | done {s} : Runs I (.sequence []) s (.falls s)
  | next {u us s s1 r} : Runs I (.statement u) s (.falls s1) → Runs I (.sequence us) s1 r →
      Runs I (.sequence (u :: us)) s r
  | stop {u us s s1 v} :
      Runs I (.statement u) s (.returns v s1) → Runs I (.sequence (u :: us)) s (.returns v s1)

/-- The value that a function returns whose body has ended, and its last store. -/
def Outcome.result (I : Interpretation V) : Outcome V → V × Store V
  | falls s => (I.constant .null, s)
  | returns v s => (v, s)

/-- Running the body of a function from a store comes to an end and returns a value. -/
def Returns (I : Interpretation V) (f : Unfolding) (s : Store V) (v : V) (s1 : Store V) : Prop :=
  ∃ body r, f.children = [body] ∧ Runs I (.statement body) s r ∧ r.result I = (v, s1)

end Meaning

end Clausal
