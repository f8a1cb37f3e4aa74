import Clausal.Bytecode.Program
import Clausal.Tree.Kind
import Mathlib

/-! # The stack machine

What operators, truth and calls mean is left open: an `Interpretation` gives them over any type of values.  A
call and the making of a closure are queries to the surroundings, which answer with regard to everything asked
before; the queries with their answers are the trace of a run. -/

namespace Clausal

namespace Meaning

/-- What a function asks of its surroundings. -/
inductive Query (V : Type) where
  /-- Call a function of the module. -/
  | call (function : String) (arguments : List V)
  /-- Call a function of the run-time system. -/
  | builtin (name : String) (arguments : List V)
  /-- Call what a slot holds. -/
  | apply (callee : V) (arguments : List V)
  /-- Make a closure. -/
  | make (function : String) (captured : List V)

/-- The queries so far, with their answers. -/
abbrev Trace (V : Type) := List (Query V × V)

/-- What constants, operators, truth and queries mean. -/
structure Interpretation (V : Type) where
  constant : Value → V
  binary : BinaryOperator → V → V → V
  unary : UnaryOperator → V → V
  truthy : V → Bool
  answer : Trace V → Query V → V

/-- The slots of a running function, and what it has asked. -/
structure Store (V : Type) where
  frame : UInt16 → V
  trace : Trace V

variable {V : Type} {I : Interpretation V} {code : List Op} {m n : Nat} {op : Op}

def Store.write (s : Store V) (slot : UInt16) (v : V) : Store V :=
  { s with frame := fun x => if x = slot then v else s.frame x }

def Store.query (s : Store V) (name : String) (arguments : List V) : CallTarget → Query V
  | .module => .call name arguments
  | .builtin => .builtin name arguments
  | .slot b => .apply (s.frame b.slot) arguments

def Interpretation.ask (I : Interpretation V) (s : Store V) (q : Query V) : V × Store V :=
  let v := I.answer s.trace q
  (v, { s with trace := s.trace ++ [(q, v)] })

/-- The operator that an operation applies to the two topmost values. -/
def operator? : Op → Option BinaryOperator
  | .add => some .add
  | .sub => some .sub
  | .mul => some .mul
  | .div => some .div
  | .mod => some .mod
  | .eq => some .eq
  | .neq => some .ne
  | .lt => some .lt
  | .lte => some .le
  | .gt => some .gt
  | .gte => some .ge
  | _ => none

/-- A machine between two operations. -/
structure Config (V : Type) where
  counter : Nat
  stack : List V
  store : Store V

def Interpretation.push (I : Interpretation V) (counter : Nat) (stack : List V) (s : Store V)
    (q : Query V) : Config V :=
  ⟨counter, (I.ask s q).1 :: stack, (I.ask s q).2⟩

/-- Take arguments off a stack, the last one on top, and ask with them. -/
def Interpretation.invoke (I : Interpretation V) (counter argc : Nat) (stack : List V) (s : Store V)
    (q : List V → Query V) : Option (Config V) :=
  if argc ≤ stack.length then
    some (I.push counter (stack.drop argc) s (q (stack.take argc).reverse))
  else none

def exec (I : Interpretation V) : Op → Config V → Option (Config V)
  | .const v, ⟨n, st, s⟩ => some ⟨n + 1, I.constant v :: st, s⟩
  | .load x, ⟨n, st, s⟩ => some ⟨n + 1, s.frame x :: st, s⟩
  | .store x, ⟨n, v :: st, s⟩ => some ⟨n + 1, st, s.write x v⟩
  | .not, ⟨n, a :: st, s⟩ => some ⟨n + 1, I.unary .not a :: st, s⟩
  | .neg, ⟨n, a :: st, s⟩ => some ⟨n + 1, I.unary .neg a :: st, s⟩
  | .dup, ⟨n, v :: st, s⟩ => some ⟨n + 1, v :: v :: st, s⟩
  | .pop, ⟨n, _ :: st, s⟩ => some ⟨n + 1, st, s⟩
  | .jump target, ⟨_, st, s⟩ => some ⟨target, st, s⟩
  | .brTrue target, ⟨n, v :: st, s⟩ => some ⟨if I.truthy v then target else n + 1, st, s⟩
  | .brFalse target, ⟨n, v :: st, s⟩ => some ⟨if I.truthy v then n + 1 else target, st, s⟩
  | .call f argc, ⟨n, st, s⟩ => I.invoke (n + 1) argc st s (.call f)
  | .callBuiltin f argc, ⟨n, st, s⟩ => I.invoke (n + 1) argc st s (.builtin f)
  | .callClosure x argc, ⟨n, st, s⟩ => I.invoke (n + 1) argc st s (.apply (s.frame x))
  | .makeClosure f captures, ⟨n, st, s⟩ =>
    some (I.push (n + 1) st s (.make f (captures.map s.frame)))
  | .ret, _ => none
  | op, ⟨n, b :: a :: st, s⟩ => (operator? op).map fun o => ⟨n + 1, I.binary o a b :: st, s⟩
  | _, _ => none

def step (I : Interpretation V) (code : List Op) (c : Config V) : Option (Config V) :=
  code[c.counter]?.bind fun op => exec I op c

/-- A run of so many steps. -/
inductive Steps (I : Interpretation V) (code : List Op) : Nat → Config V → Config V → Prop
  | refl (c : Config V) : Steps I code 0 c c
  | head {n c d e} : step I code c = some d → Steps I code n d e → Steps I code (n + 1) c e

/-- A run of so many steps up to a return. -/
inductive Halts (I : Interpretation V) (code : List Op) : Nat → Config V → V → Store V → Prop
  | ret {n v st s} : code[n]? = some .ret → Halts I code 0 ⟨n, v :: st, s⟩ v s
  | head {n c d v s} : step I code c = some d → Halts I code n d v s → Halts I code (n + 1) c v s

/-! ### Runs -/

theorem Steps.single {c d : Config V} (h : step I code c = some d) : Steps I code 1 c d :=
  .head h (.refl d)

theorem Steps.trans {c d e : Config V} (h1 : Steps I code m c d) (h2 : Steps I code n d e) :
    Steps I code (m + n) c e := by
  induction h1 with
  | refl => rwa [Nat.zero_add]
  | head hs _ ih =>
    rw [Nat.add_right_comm]
    exact .head hs (ih h2)

theorem Steps.halts {c d : Config V} {v : V} {s : Store V} (h1 : Steps I code m c d)
    (h2 : Halts I code n d v s) : Halts I code (m + n) c v s := by
  induction h1 with
  | refl => rwa [Nat.zero_add]
  | head hs _ ih =>
    rw [Nat.add_right_comm]
    exact .head hs (ih h2)

theorem Halts.cut {c d : Config V} {v : V} {s : Store V} (h : Halts I code n c v s) (hs : Steps I code m c d) :
    ∃ k, n = m + k ∧ Halts I code k d v s := by
  induction hs generalizing n with
  | refl => exact ⟨n, (Nat.zero_add n).symm, h⟩
  | @head m c d e hstep _ ih =>
    cases h with
    | ret hret => simp [step, hret, exec] at hstep
    | @head n _ d' _ _ hstep' hrest =>
      rw [hstep] at hstep'
      cases hstep'
      obtain ⟨k, rfl, hk⟩ := ih hrest
      exact ⟨k, by omega, hk⟩

theorem Halts.unique {c : Config V} {v w : V} {s s1 : Store V} (h : Halts I code m c v s)
    (h' : Halts I code n c w s1) : v = w ∧ s = s1 := by
  induction h generalizing n with
  | ret hret =>
    cases h' with
    | ret _ => exact ⟨rfl, rfl⟩
    | head hstep _ => simp [step, hret, exec] at hstep
  | head hstep _ ih =>
    cases h' with
    | ret hret => simp [step, hret, exec] at hstep
    | head hstep' hrest =>
      rw [hstep] at hstep'
      cases hstep'
      exact ih hrest

theorem step_of_op {st : List V} {s : Store V} (h : code[n]? = some op) :
    step I code ⟨n, st, s⟩ = exec I op ⟨n, st, s⟩ := by
  simp [step, h]

theorem exec_operator {o : BinaryOperator} (h : operator? op = some o) (n : Nat) (a b : V) (st : List V)
    (s : Store V) : exec I op ⟨n, b :: a :: st, s⟩ = some ⟨n + 1, I.binary o a b :: st, s⟩ := by
  cases op <;> simp_all [operator?, exec]

theorem invoke_reverse_append (n : Nat) (vs st : List V) (s : Store V) (q : List V → Query V) :
    I.invoke n vs.length (vs.reverse ++ st) s q = some (I.push n st s (q vs)) := by
  have hdrop : (vs.reverse ++ st).drop vs.length = st := List.drop_left' (by simp)
  have htake : (vs.reverse ++ st).take vs.length = vs.reverse := List.take_left' (by simp)
  unfold Interpretation.invoke
  rw [hdrop, htake, List.reverse_reverse, if_pos (by simp)]

/-! ### Code in its place -/

def Placed (code : List Op) (base : Nat) (ops : List Op) : Prop :=
  ∃ before after, code = before ++ ops ++ after ∧ before.length = base

namespace Placed

variable {base : Nat} {ops ops' : List Op} {op : Op}

theorem left (h : Placed code base (ops ++ ops')) : Placed code base ops := by
  obtain ⟨before, after, rfl, hlen⟩ := h
  exact ⟨before, ops' ++ after, by simp, hlen⟩

theorem right (h : Placed code base (ops ++ ops')) : Placed code (base + ops.length) ops' := by
  obtain ⟨before, after, rfl, rfl⟩ := h
  exact ⟨before ++ ops, after, by simp, by simp⟩

theorem head (h : Placed code base (op :: ops)) : code[base]? = some op := by
  obtain ⟨before, after, rfl, rfl⟩ := h
  simp

theorem tail (h : Placed code base (op :: ops)) : Placed code (base + 1) ops := by
  rw [← List.singleton_append] at h
  exact h.right

end Placed

end Meaning

end Clausal
