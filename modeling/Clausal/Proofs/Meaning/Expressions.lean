import Clausal.Proofs.Bytecode.Emission
import Clausal.Proofs.Meaning.Evaluation

/-! # The code of expressions

An expression that fits together has a value in every store, and its code, wherever it is placed, pushes that
value and leaves the store that evaluation leaves (`computes`). -/

namespace Clausal

open Unfolding

namespace Meaning

open Generate

variable {V : Type} {I : Interpretation V} {code : List Op} {base next : Nat} {op : Op}
  {condition action : Unfolding} {us : List Unfolding} {operator : BinaryOperator} {a e : Emission}

attribute [local simp] emit emitAll emitStatements emitArms value values choice exec

theorem Placed.after {b : Emission} (h : Placed code base (a ++ b).code) : Placed code (base + a.size) b.code :=
  h.right

theorem Placed.op_after {ops : List Op} (h : Placed code base (e ++ .ofOps (op :: ops)).code) :
    code[base + e.size]? = some op :=
  h.after.head

/-! ### Expressions -/

/-- The code of an expression, wherever it stands, pushes the value of the expression. -/
def Computes (I : Interpretation V) (code : List Op) (u : Unfolding) : Prop :=
  ∀ ⦃base : Nat⦄ ⦃e : Emission⦄, emit base u = .ok e → Placed code base e.code →
    ∀ (st : List V) (s : Store V), ∃ v s1 k, value I u s = some (v, s1) ∧
      Steps I code k ⟨base, st, s⟩ ⟨base + e.size, v :: st, s1⟩

/-- A test of a condition and an action under it stand in the code: after the action it goes on at
`target`, and at `next` if the condition is false. -/
def Guards (code : List Op) (base : Nat) (condition action : Unfolding) (next target : Nat) : Prop :=
  ∃ c a, emit base condition = .ok c ∧ emit (base + c.size + 1) action = .ok a ∧
    next = base + c.size + 1 + a.size + 1 ∧
    Placed code base (c.code ++ [.brFalse next] ++ a.code ++ [.jump target])

theorem Guards.test {target : Nat} (h : Guards code base condition action next target)
    (hc : Computes I code condition) (st : List V) (s : Store V) :
    ∃ v s1 k start a, value I condition s = some (v, s1) ∧
      Steps I code (k + 1) ⟨base, st, s⟩ ⟨if I.truthy v then start else next, st, s1⟩ ∧
      emit start action = .ok a ∧ Placed code start a.code ∧
      code[start + a.size]? = some (.jump target) := by
  obtain ⟨c, a, hcode, haction, rfl, hplaced⟩ := h
  obtain ⟨v, s1, k, hv, hsteps⟩ := hc hcode hplaced.left.left.left st s
  have hbranch := hplaced.left.left.right.head
  have ha : Placed code (base + c.size + 1) a.code := by
    have := hplaced.left.right
    simpa [Emission.size, Nat.add_assoc] using this
  have hjump : code[base + c.size + 1 + a.size]? = some (.jump target) := by
    have := hplaced.right.head
    simpa [Emission.size, Nat.add_assoc, Nat.add_comm, Nat.add_left_comm] using this
  refine ⟨v, s1, k, _, a, hv, hsteps.trans (.single ?_), haction, ha, hjump⟩
  exact step_of_op hbranch

theorem values_of_emitAll (hus : ∀ u ∈ us, Computes I code u) (he : emitAll base us = .ok e)
    (hp : Placed code base e.code) (st : List V) (s : Store V) :
    ∃ vs s1 k, values I us s = some (vs, s1) ∧ vs.length = us.length ∧
      Steps I code k ⟨base, st, s⟩ ⟨base + e.size, vs.reverse ++ st, s1⟩ := by
  induction us generalizing base e st s with
  | nil =>
    cases he
    exact ⟨[], s, 0, rfl, rfl, .refl _⟩
  | cons u us ih =>
    simp only [emitAll, bind_eq_ok_iff] at he
    obtain ⟨first, hfirst, rest, hrest, ⟨⟩⟩ := he
    obtain ⟨v, s1, k, hv, hsteps⟩ := hus u (.head _) hfirst hp.left st s
    obtain ⟨vs, s2, k', hvs, hlen, hsteps'⟩ := ih (fun u hu => hus u (.tail _ hu)) hrest hp.right (v :: st) s1
    refine ⟨v :: vs, s2, k + k', ?_, ?_, ?_⟩
    · simp [values, hv, hvs]
    · simp [hlen]
    · have := hsteps.trans hsteps'
      simpa [Nat.add_assoc] using this

theorem guards_of_placed {c r : Emission} (hc : emit base condition = .ok c)
    (ha : emit (base + c.size + 1) action = .ok a) (hn : next = base + c.size + 1 + a.size + 1)
    (hp : Placed code base (c ++ .ofOps [.brFalse next] ++ a ++ .ofOps [.jump (next + r.size)] ++ r).code) :
    Guards code base condition action next (next + r.size) ∧ Placed code next r.code ∧ next + r.size =
      base + (c ++ .ofOps [.brFalse next] ++ a ++ .ofOps [.jump (next + r.size)] ++ r).size := by
  refine ⟨⟨c, a, hc, ha, hn, hp.left⟩, ?_, ?_⟩
  · have := hp.right
    rw [hn]
    simpa [Emission.size, Nat.add_assoc, Nat.add_comm, Nat.add_left_comm] using this
  · simp only [hn, Emission.size_append, Emission.size_ofOps, List.length_singleton]
    omega

theorem guards_of_emitArms {i c a : ElementId} {arm : Arm} {o : Origin} {rest : List Unfolding}
    (he : emitArms base (.node i (.whenClause c a arm) o [condition, action] :: rest) = .ok e)
    (hp : Placed code base e.code) :
    ∃ next r, Guards code base condition action next (next + r.size) ∧
      emitArms next rest = .ok r ∧ Placed code next r.code ∧ next + r.size = base + e.size := by
  simp only [emitArms, bind_eq_ok_iff] at he
  obtain ⟨c, hc, a, ha, r, hr, ⟨⟩⟩ := he
  obtain ⟨hguards, hrest, hsize⟩ := guards_of_placed hc ha rfl hp
  exact ⟨_, r, hguards, hr, hrest, hsize⟩

theorem choice_of_emitArms (harms : Arms .value us)
    (ih : ∀ u ∈ us, u.Fits → u.kind.isExpression = true → Computes I code u)
    (ih' : ∀ u ∈ us, ∀ v ∈ u.children, v.Fits → v.kind.isExpression = true → Computes I code v)
    (he : emitArms base us = .ok e) (hp : Placed code base e.code) (st : List V) (s : Store V) :
    ∃ v s1 k, choice I us s = some (v, s1) ∧ Steps I code k ⟨base, st, s⟩ ⟨base + e.size, v :: st, s1⟩ := by
  induction harms generalizing base e st s with
  | @fallback u hfits haccepts =>
    rw [emitArms_fallback haccepts] at he
    have hu := ih u (.head _) hfits haccepts he hp st s
    have hchoice : choice I [u] s = value I u s := by rw [choice]
    rwa [← hchoice] at hu
  | @clause i c a o condition action rest hc hce ha hae hrest ihrest =>
    obtain ⟨next, r, hguards, hr, hplaced, hsize⟩ := guards_of_emitArms he hp
    have hcond := ih' _ (.head _) condition (by simp [children]) hc hce
    have hact := ih' _ (.head _) action (by simp [children]) ha hae
    obtain ⟨v, s1, k, start, e', hv, hsteps, haction, hpa, hjump⟩ := hguards.test hcond st s
    have hchoice : choice I (.node i (.whenClause c a .value) o [condition, action] :: rest) s =
        if I.truthy v then value I action s1 else choice I rest s1 := by
      cases hrest <;> simp [choice, hv]
    rw [hchoice]
    by_cases ht : I.truthy v
    · rw [if_pos ht] at hsteps ⊢
      obtain ⟨w, s2, k', hw, hsteps'⟩ := hact haction hpa st s1
      refine ⟨w, s2, _, hw, (hsteps.trans hsteps').trans (.single ?_)⟩
      rw [step_of_op hjump, exec, hsize]
    · rw [if_neg ht] at hsteps ⊢
      obtain ⟨w, s2, k', hw, hsteps'⟩ := ihrest (fun u hu => ih u (.tail _ hu))
        (fun u hu => ih' u (.tail _ hu)) hr hplaced st s1
      rw [hsize] at hsteps'
      exact ⟨w, s2, _, hw, hsteps.trans hsteps'⟩

theorem operator?_of_strictOp? (h : strictOp? operator = some op) : operator? op = some operator := by
  cases operator <;> cases h <;> rfl

theorem value_of_strictOp? (h : strictOp? operator = some op) (i l r : ElementId) (o : Origin)
    (left right : Unfolding) (s : Store V) :
    value I (.node i (.binary operator l r) o [left, right]) s =
      (value I left s).bind fun p => (value I right p.2).bind fun q =>
        some (I.binary operator p.1 q.1, q.2) := by
  cases operator <;> first | rfl | cases h

theorem value_of_shortcut (h : strictOp? operator = none) (i l r : ElementId) (o : Origin)
    (left right : Unfolding) (s : Store V) :
    value I (.node i (.binary operator l r) o [left, right]) s =
      (value I left s).bind fun p =>
        if (I.truthy p.1 == (operator == .or)) = true then some p else value I right p.2 := by
  cases operator <;> cases h <;> simp only [value] <;> cases value I left s with
  | none => rfl
  | some p => cases ht : I.truthy p.1 <;> simp [ht]

theorem steps_shortcut (h : strictOp? operator = none) {n stop : Nat}
    (hp : Placed code n [.dup, shortcut operator stop, .pop]) (a : V) (st : List V) (s : Store V) :
    if (I.truthy a == (operator == .or)) = true then
      Steps I code 2 ⟨n, a :: st, s⟩ ⟨stop, a :: st, s⟩
    else Steps I code 3 ⟨n, a :: st, s⟩ ⟨n + 3, st, s⟩ := by
  have hdup : step I code ⟨n, a :: st, s⟩ = some ⟨n + 1, a :: a :: st, s⟩ := step_of_op hp.head
  have hshort : step I code ⟨n + 1, a :: a :: st, s⟩ =
      exec I (shortcut operator stop) ⟨n + 1, a :: a :: st, s⟩ := step_of_op hp.tail.head
  have hpop : step I code ⟨n + 1 + 1, a :: st, s⟩ = some ⟨n + 1 + 1 + 1, st, s⟩ :=
    step_of_op hp.tail.tail.head
  cases operator <;> cases h <;> cases ht : I.truthy a <;>
    simp only [shortcut, exec, ht] at hshort
  · exact .head hdup (.single hshort)
  · exact .head hdup (.head hshort (.single hpop))
  · exact .head hdup (.head hshort (.single hpop))
  · exact .head hdup (.single hshort)

section

variable {i x : ElementId} {o : Origin} {name : String}

variable {us : List Unfolding}

theorem computes_constant {v : Value} : Computes I code (.node i (.constant v) o us) := by
  intro base e he hp st s
  cases he
  exact ⟨I.constant v, s, 1, by simp [value], .single (step_of_op hp.head)⟩

theorem computes_reference {binding : Option Binding} :
    Computes I code (.node i (.reference name binding) o us) := by
  intro base e he hp st s
  simp only [emit, bind_eq_ok_iff, resolved_eq_ok_iff] at he
  obtain ⟨b, rfl, ⟨⟩⟩ := he
  exact ⟨s.frame b.slot, s, 1, by simp [value], .single (step_of_op hp.head)⟩

variable {operator : BinaryOperator} {l r : ElementId} {left right : Unfolding}

theorem computes_strict {op : Op}
    (hop : strictOp? operator = some op) (hl : Computes I code left) (hr : Computes I code right) :
    Computes I code (.node i (.binary operator l r) o [left, right]) := by
  intro base e he hp st s
  simp only [emit, hop, bind_eq_ok_iff] at he
  obtain ⟨el, hel, er, her, ⟨⟩⟩ := he
  obtain ⟨a, s1, k1, ha, hsteps1⟩ := hl hel hp.left.left st s
  obtain ⟨b, s2, k2, hb, hsteps2⟩ := hr her hp.left.after (a :: st) s1
  have hlast := hp.op_after
  rw [Emission.size_append, ← Nat.add_assoc] at hlast
  refine ⟨I.binary operator a b, s2, k1 + k2 + 1, ?_, (hsteps1.trans hsteps2).trans (.single ?_)⟩
  · simp [value_of_strictOp? hop, ha, hb]
  · rw [step_of_op hlast, exec_operator (operator?_of_strictOp? hop)]
    simp [Nat.add_assoc]

theorem computes_shortcut (hop : strictOp? operator = none)
    (hl : Computes I code left) (hr : Computes I code right) :
    Computes I code (.node i (.binary operator l r) o [left, right]) := by
  intro base e he hp st s
  simp only [emit, hop, bind_eq_ok_iff] at he
  obtain ⟨el, hel, er, her, ⟨⟩⟩ := he
  obtain ⟨a, s1, k1, ha, hsteps1⟩ := hl hel hp.left.left st s
  have hlast := hp.after
  have hshort := steps_shortcut (I := I) hop hp.left.after a st s1
  simp only [Emission.size_append, Emission.size_ofOps, List.length_cons, List.length_nil,
    ← Nat.add_assoc, Nat.zero_add] at hlast ⊢
  rw [value_of_shortcut hop, ha, Option.bind_some]
  split_ifs at hshort ⊢
  · exact ⟨a, s1, _, rfl, hsteps1.trans hshort⟩
  · obtain ⟨b, s2, k2, hb, hsteps2⟩ := hr her hlast st s1
    exact ⟨b, s2, _, hb, (hsteps1.trans hshort).trans hsteps2⟩

theorem computes_unary {operator : UnaryOperator} {u : Unfolding} (hu : Computes I code u) :
    Computes I code (.node i (.unary operator x) o [u]) := by
  intro base e he hp st s
  simp only [emit, emitAll_singleton, bind_eq_ok_iff] at he
  obtain ⟨eu, heu, ⟨⟩⟩ := he
  obtain ⟨a, s1, k, ha, hsteps⟩ := hu heu hp.left st s
  refine ⟨I.unary operator a, s1, k + 1, by simp [value, ha], hsteps.trans (.single ?_)⟩
  rw [step_of_op hp.op_after, Emission.size_append]
  cases operator <;> rfl

theorem computes_invocation {arguments : List ElementId} {target : Option CallTarget}
    (hlen : us.length = arguments.length) (hus : ∀ u ∈ us, Computes I code u) :
    Computes I code (.node i (.invocation name arguments target) o us) := by
  intro base e he hp st s
  simp only [emit, bind_eq_ok_iff, resolved_eq_ok_iff] at he
  obtain ⟨eus, heus, target, rfl, ⟨⟩⟩ := he
  obtain ⟨vs, s1, k, hvs, hvlen, hsteps⟩ := values_of_emitAll hus heus hp.left st s
  have hvalue : value I (.node i (.invocation name arguments (some target)) o us) s =
      some (I.ask s1 (s1.query name vs target)) := by
    simp [value, hvs]
  refine ⟨_, _, k + 1, hvalue, hsteps.trans (.single ?_)⟩
  rw [step_of_op hp.op_after, ← hlen, ← hvlen, Emission.size_append]
  cases target <;> exact invoke_reverse_append ..

theorem computes_closure {captured : List Binding} {f : Unfolding} (hf : Role.function.accepts f.kind = true) :
    Computes I code (.node i (.closure x captured) o [f]) := by
  intro base e he hp st s
  obtain ⟨i', k, o', us⟩ := f
  cases k <;> simp only [kind, Role.accepts, Bool.false_eq_true] at hf
  simp only [emit, closureOp, emitAll_singleton, bind_eq_ok_iff] at he
  obtain ⟨op, hop, he⟩ := he
  split_ifs at hop
  cases hop
  simp only [bind_eq_ok_iff] at he
  obtain ⟨ef, ⟨body, -, ⟨⟩⟩, ⟨⟩⟩ := he
  refine ⟨_, _, 1, by rw [value], .single ?_⟩
  rw [step_of_op hp.left.head, Emission.size_append, exec, List.map_map]
  rfl

end

theorem computes (u : Unfolding) (hfits : u.Fits) (hexpr : u.kind.isExpression = true) :
    Computes I code u := by
  induction u using induct₂ with
  | node i k o us ih ih' =>
    cases k with
    | constant v => exact computes_constant
    | reference name binding => exact computes_reference
    | binary operator l r =>
      obtain ⟨left, right, rfl, hl, hle, hr, hre⟩ := hfits.two rfl
      have hleft := ih left (by simp) hl hle
      have hright := ih right (by simp) hr hre
      cases hop : strictOp? operator with
      | some op => exact computes_strict hop hleft hright
      | none => exact computes_shortcut hop hleft hright
    | unary operator x =>
      obtain ⟨u, rfl, hu, hue⟩ := hfits.one rfl
      exact computes_unary (ih u (by simp) hu hue)
    | invocation name arguments target =>
      have hus := hfits.all (r := .expression) rfl
      have hlen := hfits.slots.length_eq
      rw [Kind.slots, List.length_map] at hlen
      exact computes_invocation hlen.symm fun u hu => ih u hu (hus u hu).1 (hus u hu).2
    | closure x captured =>
      obtain ⟨f, rfl, -, hf⟩ := hfits.one rfl
      exact computes_closure hf
    | matchOf clauses otherwise =>
      have harms : Arms .value us := hfits.arms rfl
      intro base e he hp st s
      rw [emit] at he
      obtain ⟨v, s1, k, hv, hsteps⟩ := choice_of_emitArms harms ih ih' he hp st s
      exact ⟨v, s1, k, by rwa [value], hsteps⟩
    | module | function | block | caseOf | whenClause | conditional | loop | assignment | returns =>
      cases hexpr

end Meaning

end Clausal
