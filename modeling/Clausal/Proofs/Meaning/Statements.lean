import Clausal.Proofs.Meaning.Expressions

/-! # The code of statements

Statements run by rules and may not come to an end, so that the two directions are proved apart.

* `Runs.reached`: what evaluation does, the machine does.  By induction on the rules: the machine gets
  to the end of the code, or to a return with the same value.
* `accounts`: what the machine does, evaluation accounts for.  By induction on the statement: a run of
  the machine that halts has passed through an outcome of the statement, with fewer steps to go; the
  steps bound the rounds of a loop (`accounts_loop`). -/

namespace Clausal

namespace Meaning

open Generate

variable {V : Type} {I : Interpretation V} {code : List Op} {u condition action body : Unfolding}
  {i a c x : ElementId} {base n : Nat} {us : List Unfolding} {o : Origin} {e : Emission} {s : Store V}
  {st : List V} {v : V} {s1 : Store V}

/-! ### Tasks and their code -/

/-- The code of a statement of a block; the value of an expression is dropped. -/
def emitStatement (base : Nat) (u : Unfolding) : Except GenerateError Emission := do
  let e ← emit base u
  return if u.kind.isExpression then e ++ .ofOps [.pop] else e

theorem emitStatement_of_statement (h : u.kind.isExpression = false) (base : Nat) :
    emitStatement base u = emit base u := by
  simp [emitStatement, h]

theorem emitStatements_cons (base : Nat) (u : Unfolding) (us : List Unfolding) :
    emitStatements base (u :: us) = (do
      let first ← emitStatement base u
      let rest ← emitStatements (base + first.size) us
      return first ++ rest) := by
  simp [emitStatements, emitStatement]

namespace Task

def emit (base : Nat) : Task → Except GenerateError Emission
  | statement u => emitStatement base u
  | sequence us => emitStatements base us
  | arms us => emitArms base us

theorem emit_statement (h : u.kind.isExpression = false) (base : Nat) :
    (statement u).emit base = Generate.emit base u := emitStatement_of_statement h base

def Fits : Task → Prop
  | statement u => u.Fits ∧ Role.statement.accepts u.kind = true
  | sequence us => ∀ u ∈ us, u.Fits ∧ Role.statement.accepts u.kind = true
  | arms us => Unfolding.Arms .statement us

end Task

theorem statement_of_block (h : Role.block.accepts u.kind = true) :
    Role.statement.accepts u.kind = true ∧ u.kind.isExpression = false := by
  obtain ⟨i, k, o, us⟩ := u
  cases k <;> first | exact ⟨rfl, rfl⟩ | cases h

theorem statement_of_elseBranch (h : Role.elseBranch.accepts u.kind = true) :
    Role.statement.accepts u.kind = true ∧ u.kind.isExpression = false := by
  obtain ⟨i, k, o, us⟩ := u
  cases k <;> first | exact ⟨rfl, rfl⟩ | cases h

/-! ### From evaluation to the machine -/

/-- A machine gets where an outcome says: to the end of the code, or to a return. -/
def Outcome.Reached (I : Interpretation V) (code : List Op) (c : Config V) (stop : Nat) (st : List V) :
    Outcome V → Prop
  | falls s => ∃ k, Steps I code k c ⟨stop, st, s⟩
  | returns v s => ∃ k, Halts I code k c v s

namespace Outcome.Reached

variable {r : Outcome V} {c d : Config V} {stop target k : Nat} {st : List V}

theorem after (hs : Steps I code k c d) (h : r.Reached I code d stop st) :
    r.Reached I code c stop st := by
  cases r with
  | falls s =>
    obtain ⟨m, hm⟩ := h
    exact ⟨k + m, hs.trans hm⟩
  | returns v s =>
    obtain ⟨m, hm⟩ := h
    exact ⟨k + m, hs.halts hm⟩

theorem jump (hj : code[stop]? = some (.jump target)) (h : r.Reached I code c stop st) :
    r.Reached I code c target st := by
  cases r with
  | falls s =>
    obtain ⟨m, hm⟩ := h
    exact ⟨m + 1, hm.trans (.single (step_of_op hj))⟩
  | returns v s => exact h

end Outcome.Reached

theorem guards_of_conditional {e : Option ElementId} {rest : List Unfolding}
    {em : Emission} (he : emit base (.node i (.conditional c a e) o (condition :: action :: rest)) = .ok em)
    (hp : Placed code base em.code) :
    ∃ next r, Guards code base condition action next (next + r.size) ∧
      emitAll next rest = .ok r ∧ Placed code next r.code ∧ next + r.size = base + em.size := by
  simp only [emit, bind_eq_ok_iff] at he
  obtain ⟨c, hc, a, ha, r, hr, ⟨⟩⟩ := he
  obtain ⟨hguards, hrest, hsize⟩ := guards_of_placed hc ha rfl hp
  exact ⟨_, r, hguards, hr, hrest, hsize⟩

theorem guards_of_loop
    (he : emit base (.node i (.loop c a) o [condition, body]) = .ok e) (hp : Placed code base e.code) :
    Guards code base condition body (base + e.size) base := by
  simp only [emit, bind_eq_ok_iff] at he
  obtain ⟨c, hc, b, hb, ⟨⟩⟩ := he
  have hsize : base + (c ++ .ofOps [.brFalse (base + c.size + 1 + b.size + 1)] ++ b ++
      .ofOps [.jump base]).size = base + c.size + 1 + b.size + 1 := by
    simp [Nat.add_assoc]
  rw [hsize]
  exact ⟨c, b, hc, hb, rfl, hp⟩

namespace Guards

variable {base next target : Nat} {condition action : Unfolding}
  (h : Guards code base condition action next target) (hc : Computes I code condition)
  {s s1 : Store V} {v : V} (hv : value I condition s = some (v, s1)) (st : List V)
include h hc hv

theorem reached {r : Outcome V} (ht : I.truthy v = true) (hab : Role.block.accepts action.kind = true)
    (ha : ∀ ⦃start e⦄, (Task.statement action).emit start = .ok e → Placed code start e.code →
      r.Reached I code ⟨start, st, s1⟩ (start + e.size) st) : r.Reached I code ⟨base, st, s⟩ target st := by
  obtain ⟨v', s₁', k, start, e, hv', hsteps, he, hp, hj⟩ := h.test hc st s
  rw [hv] at hv'
  cases hv'
  rw [if_pos ht] at hsteps
  exact ((ha (by rwa [Task.emit_statement (statement_of_block hab).2]) hp).jump hj).after hsteps

theorem passed (ht : I.truthy v = false) :
    ∃ k, Steps I code (k + 1) ⟨base, st, s⟩ ⟨next, st, s1⟩ := by
  obtain ⟨v', s₁', k, start, a, hv', hsteps, -, -, -⟩ := h.test hc st s
  rw [hv] at hv'
  cases hv'
  rw [if_neg (by simp [ht])] at hsteps
  exact ⟨k, hsteps⟩

end Guards

theorem steps_of_expression (hu : u.kind.isExpression = true) (hfits : u.Fits)
    (he : emitStatement base u = .ok e) (hp : Placed code base e.code) (st : List V) (s : Store V) :
    ∃ v s1 k, value I u s = some (v, s1) ∧ Steps I code k ⟨base, st, s⟩ ⟨base + e.size, st, s1⟩ := by
  simp only [emitStatement, hu, if_true, bind_eq_ok_iff] at he
  obtain ⟨eu, heu, ⟨⟩⟩ := he
  obtain ⟨v, s1, k, hv, hsteps⟩ := computes u hfits hu heu hp.left st s
  refine ⟨v, s1, k + 1, hv, hsteps.trans (.single ?_)⟩
  rw [step_of_op hp.op_after, Emission.size_append]
  rfl

theorem steps_of_assignment {name : String} {d : Option Declaration} {b : Option Binding}
    {f : Bool} (hu : u.kind.isExpression = true) (hfits : u.Fits)
    (he : emit base (.node i (.assignment name d x b f) o [u]) = .ok e) (hp : Placed code base e.code)
    (st : List V) (s : Store V) :
    ∃ v s1 k c, b = some c ∧ value I u s = some (v, s1) ∧
      Steps I code k ⟨base, st, s⟩ ⟨base + e.size, st, s1.write c.slot v⟩ := by
  simp only [emit, emitAll_singleton, bind_eq_ok_iff, resolved_eq_ok_iff] at he
  obtain ⟨eu, heu, c, rfl, ⟨⟩⟩ := he
  obtain ⟨v, s1, k, hv, hsteps⟩ := computes u hfits hu heu hp.left st s
  refine ⟨v, s1, k + 1, c, rfl, hv, hsteps.trans (.single ?_)⟩
  rw [step_of_op hp.op_after, Emission.size_append]
  rfl

theorem halts_of_bareReturn
    (he : emit base (.node i (.returns none) o us) = .ok e) (hp : Placed code base e.code) (st : List V)
    (s : Store V) : Halts I code 1 ⟨base, st, s⟩ (I.constant .null) s := by
  cases he
  exact .head (step_of_op hp.head) (.ret hp.tail.head)

theorem halts_of_valueReturn (hu : u.kind.isExpression = true) (hfits : u.Fits)
    (he : emit base (.node i (.returns (some x)) o [u]) = .ok e) (hp : Placed code base e.code)
    (st : List V) (s : Store V) :
    ∃ v s1 k, value I u s = some (v, s1) ∧ Halts I code k ⟨base, st, s⟩ v s1 := by
  simp only [emit, emitAll_singleton, bind_eq_ok_iff] at he
  obtain ⟨eu, heu, ⟨⟩⟩ := he
  obtain ⟨v, s1, k, hv, hsteps⟩ := computes u hfits hu heu hp.left st s
  exact ⟨v, s1, k + 0, hv, hsteps.halts (.ret hp.op_after)⟩

theorem Runs.reached {task : Task} {r : Outcome V} (h : Runs I task s r)
    (he : task.emit base = .ok e) (hfits : task.Fits) (hp : Placed code base e.code) (st : List V) :
    r.Reached I code ⟨base, st, s⟩ (base + e.size) st := by
  induction h generalizing base e st with
  | @expression u s s1 v hu hv =>
    obtain ⟨v', s₁', k, hv', hsteps⟩ := steps_of_expression hu hfits.1 he hp st s
    rw [hv] at hv'
    cases hv'
    exact ⟨k, hsteps⟩
  | block _ ih =>
    rw [Task.emit_statement rfl, Generate.emit] at he
    exact ih he (hfits.1.all rfl) hp st
  | @assignment i x name d b f o u s s1 v hv =>
    rw [Task.emit_statement rfl] at he
    obtain ⟨_, ⟨⟩, huf, hue⟩ := hfits.1.one rfl
    obtain ⟨v', s₁', k, c, hc, hv', hsteps⟩ := steps_of_assignment hue huf he hp st s
    rw [hv] at hv'
    cases hv'
    cases hc
    exact ⟨k, hsteps⟩
  | bareReturn =>
    rw [Task.emit_statement rfl] at he
    exact ⟨1, halts_of_bareReturn he hp st _⟩
  | @valueReturn i x o u s s1 v hv =>
    rw [Task.emit_statement rfl] at he
    obtain ⟨_, ⟨⟩, huf, hue⟩ := hfits.1.one rfl
    obtain ⟨v', s₁', k, hv', hhalts⟩ := halts_of_valueReturn hue huf he hp st s
    rw [hv] at hv'
    cases hv'
    exact ⟨k, hhalts⟩
  | thenBranch hv ht _ ih =>
    rw [Task.emit_statement rfl] at he
    obtain ⟨_, _, _, ⟨⟩, hc, hce, ha, hab, -⟩ := hfits.1.conditional
    obtain ⟨next, r, hg, -, -, hsize⟩ := guards_of_conditional he hp
    rw [← hsize]
    exact hg.reached (computes _ hc hce) hv st ht hab fun _ _ he hp =>
      ih he ⟨ha, (statement_of_block hab).1⟩ hp st
  | elseBranch hv ht _ ih =>
    rw [Task.emit_statement rfl] at he
    obtain ⟨_, _, _, ⟨⟩, hc, hce, -, -, hrest⟩ := hfits.1.conditional
    obtain hnil | ⟨_, hother, ho, hoe⟩ := hrest
    · cases hnil
    · cases hother
      obtain ⟨next, r, hg, hr, hpr, hsize⟩ := guards_of_conditional he hp
      obtain ⟨k, hsteps⟩ := hg.passed (computes _ hc hce) hv st ht
      obtain ⟨hs, hne⟩ := statement_of_elseBranch hoe
      rw [emitAll_singleton] at hr
      have helse := ih (by rwa [Task.emit_statement hne]) ⟨ho, hs⟩ hpr st
      rw [← hsize]
      exact helse.after hsteps
  | noElse hv ht =>
    rw [Task.emit_statement rfl] at he
    obtain ⟨_, _, _, ⟨⟩, hc, hce, -, -, -⟩ := hfits.1.conditional
    obtain ⟨next, r, hg, hr, -, hsize⟩ := guards_of_conditional he hp
    cases hr
    obtain ⟨k, hsteps⟩ := hg.passed (computes _ hc hce) hv st ht
    rw [← hsize]
    exact ⟨k + 1, hsteps⟩
  | loopAgain hv ht _ _ ihbody ihloop =>
    have he' := he
    rw [Task.emit_statement rfl] at he'
    obtain ⟨_, _, ⟨⟩, hc, hce, hb, hbb⟩ := hfits.1.two rfl
    obtain ⟨m, hm⟩ := (guards_of_loop he' hp).reached (computes _ hc hce) hv st ht hbb fun _ _ he hp =>
      ihbody he ⟨hb, (statement_of_block hbb).1⟩ hp st
    exact (ihloop he hfits hp st).after hm
  | loopReturn hv ht _ ih =>
    rw [Task.emit_statement rfl] at he
    obtain ⟨_, _, ⟨⟩, hc, hce, hb, hbb⟩ := hfits.1.two rfl
    exact (guards_of_loop he hp).reached (computes _ hc hce) hv st ht hbb fun _ _ he hp =>
      ih he ⟨hb, (statement_of_block hbb).1⟩ hp st
  | loopEnd hv ht =>
    rw [Task.emit_statement rfl] at he
    obtain ⟨_, _, ⟨⟩, hc, hce, -, -⟩ := hfits.1.two rfl
    obtain ⟨k, hsteps⟩ := (guards_of_loop he hp).passed (computes _ hc hce) hv st ht
    exact ⟨k + 1, hsteps⟩
  | caseOf _ ih =>
    rw [Task.emit_statement rfl, Generate.emit] at he
    exact ih he (hfits.1.arms rfl) hp st
  | clause hv ht _ ih =>
    rw [Task.emit] at he
    cases hfits with
    | fallback _ hub => cases hub
    | clause hc hce ha hab _ =>
      obtain ⟨next, r, hg, -, -, hsize⟩ := guards_of_emitArms he hp
      rw [← hsize]
      exact hg.reached (computes _ hc hce) hv st ht hab fun _ _ he hp =>
        ih he ⟨ha, (statement_of_block hab).1⟩ hp st
  | nextClause hv ht _ ih =>
    rw [Task.emit] at he
    cases hfits with
    | fallback _ hub => cases hub
    | clause hc hce _ _ hrest =>
      obtain ⟨next, r, hg, hr, hpr, hsize⟩ := guards_of_emitArms he hp
      obtain ⟨k, hsteps⟩ := hg.passed (computes _ hc hce) hv st ht
      rw [← hsize]
      exact (ih hr hrest hpr st).after hsteps
  | fallback _ ih =>
    cases hfits with
    | fallback hu hub =>
      obtain ⟨hs, hne⟩ := statement_of_block hub
      rw [Task.emit, emitArms_fallback hub, ← emitStatement_of_statement hne] at he
      exact ih he ⟨hu, hs⟩ hp st
    | clause _ _ _ _ hrest => cases hrest
  | done =>
    cases he
    exact ⟨0, .refl _⟩
  | next _ _ ihu ihus =>
    rw [Task.emit, emitStatements_cons] at he
    simp only [bind_eq_ok_iff] at he
    obtain ⟨first, hfirst, rest, hrest, ⟨⟩⟩ := he
    obtain ⟨k, hsteps⟩ := ihu hfirst (hfits _ (.head _)) hp.left st
    rw [Emission.size_append, ← Nat.add_assoc]
    exact (ihus hrest (fun u hu => hfits u (.tail _ hu)) hp.after st).after hsteps
  | stop _ ih =>
    rw [Task.emit, emitStatements_cons] at he
    simp only [bind_eq_ok_iff] at he
    obtain ⟨first, hfirst, rest, -, ⟨⟩⟩ := he
    exact ih hfirst (hfits _ (.head _)) hp.left st

/-! ### From the machine to evaluation -/

/-- A machine that halts with a result within some steps does so by way of an outcome: from the end of
the code on, or with the value returned. -/
def Outcome.Continues (I : Interpretation V) (code : List Op) (n stop : Nat) (st : List V) (v : V)
    (s1 : Store V) : Outcome V → Prop
  | falls s => ∃ m ≤ n, Halts I code m ⟨stop, st, s⟩ v s1
  | returns w s => w = v ∧ s = s1

namespace Outcome.Continues

variable {r : Outcome V} {n n' stop target : Nat} {st : List V} {v : V} {s1 : Store V}

theorem mono (h : r.Continues I code n stop st v s1) (hn : n ≤ n') :
    r.Continues I code n' stop st v s1 := by
  cases r with
  | falls s =>
    obtain ⟨m, hm, hhalts⟩ := h
    exact ⟨m, hm.trans hn, hhalts⟩
  | returns w s => exact h

theorem jump (hj : code[stop]? = some (.jump target)) (h : r.Continues I code n stop st v s1) :
    r.Continues I code n target st v s1 := by
  cases r with
  | falls s =>
    obtain ⟨m, hm, hhalts⟩ := h
    obtain ⟨k, rfl, hk⟩ := hhalts.cut (.single (step_of_op hj))
    exact ⟨k, by omega, hk⟩
  | returns w s => exact h

end Outcome.Continues

/-- Every run of the code of a task that halts does so by way of an outcome of the task. -/
def Task.Accounts (I : Interpretation V) (code : List Op) (task : Task) : Prop :=
  ∀ ⦃base : Nat⦄ ⦃e : Emission⦄, task.emit base = .ok e → Placed code base e.code →
    ∀ (n : Nat) (st : List V) (s : Store V) (v : V) (s1 : Store V), Halts I code n ⟨base, st, s⟩ v s1 →
      ∃ r, Runs I task s r ∧ r.Continues I code n (base + e.size) st v s1

theorem accounts_sequence (hus : ∀ u ∈ us, Task.Accounts I code (.statement u)) :
    Task.Accounts I code (.sequence us) := by
  induction us with
  | nil =>
    intro base e he hp n st s v s1 hhalts
    cases he
    exact ⟨.falls s, .done, n, Nat.le_refl n, hhalts⟩
  | cons u us ih =>
    intro base e he hp n st s v s1 hhalts
    rw [Task.emit, emitStatements_cons] at he
    simp only [bind_eq_ok_iff] at he
    obtain ⟨first, hfirst, rest, hrest, ⟨⟩⟩ := he
    obtain ⟨r, hr, hcont⟩ := hus u (.head _) hfirst hp.left n st s v s1 hhalts
    cases r with
    | falls s2 =>
      obtain ⟨m, hm, hhalts'⟩ := hcont
      obtain ⟨r', hr', hcont'⟩ := ih (fun u hu => hus u (.tail _ hu)) hrest hp.after m st s2 v s1 hhalts'
      rw [Nat.add_assoc, ← Emission.size_append] at hcont'
      exact ⟨r', .next hr hr', hcont'.mono hm⟩
    | returns w s2 => exact ⟨.returns w s2, .stop hr, hcont⟩

theorem accounts_block (h : Role.block.accepts u.kind = true) (hu : Task.Accounts I code (.statement u))
    (he : emit base u = .ok e) (hp : Placed code base e.code) (hhalts : Halts I code n ⟨base, st, s⟩ v s1) :
    ∃ r, Runs I (.statement u) s r ∧ r.Continues I code n (base + e.size) st v s1 :=
  hu (by rwa [Task.emit_statement (statement_of_block h).2]) hp n st s v s1 hhalts

theorem Guards.halts {next target : Nat} (h : Guards code base condition action next target)
    (hc : Computes I code condition) (ha : Task.Accounts I code (.statement action))
    (hab : Role.block.accepts action.kind = true)
    (hhalts : Halts I code n ⟨base, st, s⟩ v s1) :
    ∃ g s2, value I condition s = some (g, s2) ∧
      ((I.truthy g = true ∧ ∃ r m, m < n ∧ Runs I (.statement action) s2 r ∧
          r.Continues I code m target st v s1) ∨
        (I.truthy g = false ∧ ∃ m < n, Halts I code m ⟨next, st, s2⟩ v s1)) := by
  obtain ⟨g, s2, k, start, a, hg, hsteps, hea, hpa, hj⟩ := h.test hc st s
  refine ⟨g, s2, hg, ?_⟩
  obtain ⟨m, rfl, hm⟩ := hhalts.cut hsteps
  cases ht : I.truthy g with
  | true =>
    rw [if_pos ht] at hm
    obtain ⟨r, hr, hcont⟩ := accounts_block hab ha hea hpa hm
    exact .inl ⟨rfl, r, m, by omega, hr, hcont.jump hj⟩
  | false =>
    rw [if_neg (by simp [ht])] at hm
    exact .inr ⟨rfl, m, by omega, hm⟩

theorem accounts_arms (harms : Unfolding.Arms .statement us)
    (ih : ∀ u ∈ us, (Task.statement u).Fits → Task.Accounts I code (.statement u))
    (ih' : ∀ u ∈ us, ∀ v ∈ u.children, (Task.statement v).Fits → Task.Accounts I code (.statement v)) :
    Task.Accounts I code (.arms us) := by
  induction harms with
  | @fallback u hu hub =>
    intro base e he hp n st s v s1 hhalts
    rw [Task.emit, emitArms_fallback hub] at he
    have hacc := ih u (.head _) ⟨hu, (statement_of_block hub).1⟩
    obtain ⟨r, hr, hcont⟩ := accounts_block hub hacc he hp hhalts
    exact ⟨r, .fallback hr, hcont⟩
  | @clause i c a o condition action rest hc hce ha hab _ ihrest =>
    intro base e he hp n st s v s1 hhalts
    rw [Task.emit] at he
    obtain ⟨next, er, hg, her, hpr, hsize⟩ := guards_of_emitArms he hp
    have hacc := ih' _ (.head _) action (by simp [Unfolding.children]) ⟨ha, (statement_of_block hab).1⟩
    rw [← hsize]
    obtain ⟨g, s2, hgv, ⟨ht, r, m, hm, hr, hcont⟩ | ⟨ht, m, hm, hhalts'⟩⟩ :=
      hg.halts (computes condition hc hce) hacc hab hhalts
    · exact ⟨r, .clause hgv ht hr, hcont.mono hm.le⟩
    · obtain ⟨r, hr, hcont⟩ := ihrest (fun u hu => ih u (.tail _ hu))
        (fun u hu => ih' u (.tail _ hu)) her hpr m st s2 v s1 hhalts'
      exact ⟨r, .nextClause hgv ht hr, hcont.mono hm.le⟩

theorem accounts_conditional {e : Option ElementId} (hfits : Unfolding.Fits (.node i (.conditional c a e) o us))
    (ih : ∀ u ∈ us, (Task.statement u).Fits → Task.Accounts I code (.statement u)) :
    Task.Accounts I code (.statement (.node i (.conditional c a e) o us)) := by
  intro base e he hp n st s v s1 hhalts
  rw [Task.emit_statement rfl] at he
  obtain ⟨condition, action, rest, rfl, hc, hce, ha, hab, hrest⟩ := hfits.conditional
  obtain ⟨next, er, hg, her, hpr, hsize⟩ := guards_of_conditional he hp
  have hacc := ih action (by simp) ⟨ha, (statement_of_block hab).1⟩
  rw [← hsize]
  obtain ⟨g, s2, hgv, ⟨ht, r, m, hm, hr, hcont⟩ | ⟨ht, m, hm, hhalts'⟩⟩ :=
    hg.halts (computes condition hc hce) hacc hab hhalts
  · exact ⟨r, .thenBranch hgv ht hr, hcont.mono hm.le⟩
  · obtain rfl | ⟨other, rfl, ho, hoe⟩ := hrest
    · cases her
      exact ⟨.falls s2, .noElse hgv ht, m, hm.le, hhalts'⟩
    · obtain ⟨hs, hne⟩ := statement_of_elseBranch hoe
      rw [emitAll_singleton, ← emitStatement_of_statement hne] at her
      obtain ⟨r, hr, hcont⟩ := ih other (by simp) ⟨ho, hs⟩ her hpr m st s2 v s1 hhalts'
      exact ⟨r, .elseBranch hgv ht hr, hcont.mono hm.le⟩

theorem accounts_loop (hc : condition.Fits)
    (hce : condition.kind.isExpression = true) (hbb : Role.block.accepts body.kind = true)
    (hb : Task.Accounts I code (.statement body)) :
    Task.Accounts I code (.statement (.node i (.loop c a) o [condition, body])) := by
  intro base e he hp n st s v s1 hhalts
  rw [Task.emit_statement rfl] at he
  have hg := guards_of_loop he hp
  induction n using Nat.strong_induction_on generalizing s with
  | _ n ih =>
    obtain ⟨g, s2, hgv, ⟨ht, r, m, hm, hr, hcont⟩ | ⟨ht, m, hm, hhalts'⟩⟩ :=
      hg.halts (computes condition hc hce) hb hbb hhalts
    · cases r with
      | falls s3 =>
        obtain ⟨m', hm', hhalts'⟩ := hcont
        obtain ⟨r', hr', hcont'⟩ := ih m' (by omega) s3 hhalts'
        exact ⟨r', .loopAgain hgv ht hr hr', hcont'.mono (by omega)⟩
      | returns w s3 => exact ⟨.returns w s3, .loopReturn hgv ht hr, hcont⟩
    · exact ⟨.falls s2, .loopEnd hgv ht, m, hm.le, hhalts'⟩

theorem accounts_expression (hu : u.kind.isExpression = true) (hfits : u.Fits) :
    Task.Accounts I code (.statement u) := by
  intro base e he hp n st s v s1 hhalts
  obtain ⟨w, s2, k, hw, hsteps⟩ := steps_of_expression hu hfits he hp st s
  obtain ⟨m, rfl, hm⟩ := hhalts.cut hsteps
  exact ⟨.falls s2, .expression hu hw, m, Nat.le_add_left m k, hm⟩

theorem accounts (u : Unfolding) (hfits : (Task.statement u).Fits) :
    Task.Accounts I code (.statement u) := by
  induction u using Unfolding.induct₂ with
  | node i k o us ih ih' =>
    obtain ⟨hfits, hrole⟩ := hfits
    cases k with
    | block ids =>
      have hus := accounts_sequence fun u hu => ih u hu (hfits.all rfl u hu)
      intro base e he hp n st s v s1 hhalts
      rw [Task.emit_statement rfl, Generate.emit] at he
      obtain ⟨r, hr, hcont⟩ := hus he hp n st s v s1 hhalts
      exact ⟨r, .block hr, hcont⟩
    | caseOf clauses otherwise =>
      have hus := accounts_arms (hfits.arms rfl) ih ih'
      intro base e he hp n st s v s1 hhalts
      rw [Task.emit_statement rfl, Generate.emit] at he
      obtain ⟨r, hr, hcont⟩ := hus he hp n st s v s1 hhalts
      exact ⟨r, .caseOf hr, hcont⟩
    | conditional c a e => exact accounts_conditional hfits ih
    | loop c b =>
      obtain ⟨condition, body, rfl, hc, hce, hb, hbb⟩ := hfits.two rfl
      exact accounts_loop hc hce hbb (ih body (by simp) ⟨hb, (statement_of_block hbb).1⟩)
    | assignment name d x b f =>
      obtain ⟨u, rfl, hu, hue⟩ := hfits.one rfl
      intro base e he hp n st s v s1 hhalts
      rw [Task.emit_statement rfl] at he
      obtain ⟨w, s2, k, c, rfl, hw, hsteps⟩ := steps_of_assignment hue hu he hp st s
      obtain ⟨m, rfl, hm⟩ := hhalts.cut hsteps
      exact ⟨_, .assignment hw, m, Nat.le_add_left m k, hm⟩
    | returns x =>
      intro base e he hp n st s v s1 hhalts
      rw [Task.emit_statement rfl] at he
      cases x with
      | none =>
        obtain ⟨rfl, rfl⟩ := hhalts.unique (halts_of_bareReturn he hp st s)
        exact ⟨_, .bareReturn, rfl, rfl⟩
      | some x =>
        obtain ⟨u, rfl, hu, hue⟩ := hfits.one rfl
        obtain ⟨w, s2, k, hw, hret⟩ := halts_of_valueReturn hue hu he hp st s
        obtain ⟨rfl, rfl⟩ := hhalts.unique hret
        exact ⟨_, .valueReturn hw, rfl, rfl⟩
    | constant | reference | binary | unary | invocation | closure | matchOf =>
      exact accounts_expression rfl hfits
    | module | function | whenClause => cases hrole

end Meaning

end Clausal
