import Clausal.Passes.Resolution
import Clausal.Proofs.Bytecode.Assembly
import Clausal.Proofs.Bytecode.Emission

/-! # Scripts

Code is written with labels, and each label is marked once.  So what is written for an element comes out with the
targets that `Generate.emit` gives it (`Generate.follows`), every function can be finished, and no branch is left
unresolved (`Generate.outside_function`). -/

namespace Clausal

open List Unfolding

namespace Assembler

/-! ### Labels that are marked once -/

/-- The labels that calls mark, in order. -/
def marked : List Call → List Nat
  | [] => []
  | .mark label :: rest => label.number :: marked rest
  | _ :: rest => marked rest

/-- The places agree with the marks of calls that start at some size of the code. -/
def Settles (p : Places) (size : Nat) : List Call → Prop
  | [] => True
  | .newLabel :: rest => Settles p size rest
  | .mark label :: rest => p label = some size ∧ Settles p size rest
  | .emit _ :: rest | .branch _ _ :: rest => Settles p (size + 1) rest

variable {a : Assembler} {calls cs ds : List Call} {code code' : List Op} {op : Op} {p : Places}
  {n size place : Nat}

@[simp] theorem made_append (cs ds : List Call) : made (cs ++ ds) = made cs + made ds := by
  induction cs with
  | nil => simp [made]
  | cons call cs ih => cases call <;> simp [made, ih, Nat.add_right_comm]

@[simp] theorem marked_append (cs ds : List Call) : marked (cs ++ ds) = marked cs ++ marked ds := by
  induction cs with
  | nil => rfl
  | cons call cs ih => cases call <;> simp [marked, ih]

theorem mem_marked {l : Nat} (h : .mark ⟨l⟩ ∈ calls) : l ∈ marked calls := by
  obtain ⟨before, after, rfl⟩ := append_of_mem h
  simp [marked]

theorem allowed_append : Allowed n (cs ++ ds) ↔ Allowed n cs ∧ Allowed (n + made cs) ds := by
  induction cs generalizing n with
  | nil => simp [Allowed, made]
  | cons call cs ih => cases call <;> simp [Allowed, ih, made, and_assoc, Nat.add_assoc, Nat.add_comm 1]

theorem settles_append :
    Settles p size (cs ++ ds) ↔ Settles p size cs ∧ Settles p (size + (written cs).length) ds := by
  induction cs generalizing size with
  | nil => simp [Settles]
  | cons call cs ih =>
    cases call <;> simp [Settles, ih, Call.line?, and_assoc, Nat.add_assoc, Nat.add_comm 1]

theorem lt_of_mem_marked (h : Allowed n calls) : ∀ l ∈ marked calls, l < n + made calls := by
  induction calls generalizing n with
  | nil => exact fun _ => nofun
  | cons call rest ih =>
    intro l hl
    cases call with
    | newLabel =>
      have hrest := ih h l hl
      rw [made]
      omega
    | mark label =>
      rcases mem_cons.mp hl with rfl | hl
      · exact Nat.lt_of_lt_of_le h.1 (Nat.le_add_right ..)
      · exact ih h.2 l hl
    | emit | branch => exact ih h.2 l hl

/-- Labels that are marked once keep their places. -/
theorem settles_run (h : Allowed a.places.size calls) (honce : (marked calls).Nodup) :
    Settles (a.run calls).place? a.code.size calls := by
  induction calls generalizing a with
  | nil => trivial
  | cons call rest ih =>
    have hrest : (marked rest).Nodup := by
      rw [← singleton_append, marked_append] at honce
      exact honce.of_append_right
    have hsettles := ih h.tail hrest
    rw [size_apply] at hsettles
    cases call with
    | newLabel => exact hsettles
    | mark label =>
      have hnot : .mark label ∉ rest := fun hmem => (nodup_cons.mp honce).1 (mem_marked hmem)
      exact ⟨(place?_run_of_not_mem hnot).trans (place?_mark h.1), hsettles⟩
    | emit | branch => exact hsettles

/-! ### What was written -/

/-- The calls write this code, where `n` labels were made before and the code has some size, if the labels of other
elements have the places that `Q` says.  Only new labels are marked. -/
structure Wrote (Q : Places → Prop) (n size : Nat) (calls : List Call) (code : List Op) : Prop where
  allowed : Allowed n calls
  once : (marked calls).Nodup
  own : ∀ l ∈ marked calls, n ≤ l
  length : (written calls).length = code.length
  resolves : ∀ p, Q p → Settles p size calls → Forall₂ (Resolves p) (written calls) code

namespace Wrote

variable {Q Q' : Places → Prop}

theorem nil : Wrote Q n size [] [] := ⟨trivial, .nil, nofun, rfl, fun _ _ _ => .nil⟩

theorem mono (h : Wrote Q n size cs code) (hQ : ∀ p, Q' p → Q p) : Wrote Q' n size cs code :=
  ⟨h.allowed, h.once, h.own, h.length, fun p hp => h.resolves p (hQ p hp)⟩

theorem shift {n' size' : Nat} (h : Wrote Q n size cs code) (hn : n' = n) (hsize : size' = size) :
    Wrote Q n' size' cs code := by
  subst hn hsize
  exact h

theorem emit (h : op.branchTarget? = none) : Wrote Q n size [.emit op] [op] :=
  ⟨⟨h, trivial⟩, .nil, nofun, rfl, fun _ _ _ => .cons rfl .nil⟩

theorem branch {label : Label} (kind : Branch) (h : label.number < n) (hp : ∀ p, Q p → p label = some place) :
    Wrote Q n size [.branch kind label] [kind.op place] :=
  ⟨⟨h, trivial⟩, .nil, nofun, rfl, fun p hQ _ => .cons ⟨place, hp p hQ, rfl⟩ .nil⟩

theorem append (h : Wrote Q n size cs code) (h' : Wrote Q (n + made cs) (size + code.length) ds code') :
    Wrote Q n size (cs ++ ds) (code ++ code') where
  allowed := allowed_append.mpr ⟨h.allowed, h'.allowed⟩
  once := by
    rw [marked_append]
    refine h.once.append h'.once fun l hl hl' => ?_
    have hlt := lt_of_mem_marked h.allowed l hl
    have hle := h'.own l hl'
    omega
  own := by
    rw [marked_append]
    exact forall_mem_append.mpr ⟨h.own, fun l hl => Nat.le_trans (Nat.le_add_right ..) (h'.own l hl)⟩
  length := by rw [written_append, length_append, length_append, h.length, h'.length]
  resolves := by
    intro p hQ hp
    obtain ⟨hcs, hds⟩ := settles_append.mp hp
    rw [h.length] at hds
    rw [written_append]
    exact rel_append (h.resolves p hQ hcs) (h'.resolves p hQ hds)

theorem emits (ops : List Op) (h : ∀ op ∈ ops, op.branchTarget? = none) : Wrote Q n size (ops.map .emit) ops := by
  induction ops generalizing size with
  | nil => exact nil
  | cons op ops ih => exact (emit (h op (.head _))).append (ih fun op' hop => h op' (.tail _ hop))

/-- Two new labels, one marked within the code and one behind it. -/
theorem labels (hQ : ∀ p, Q p → p ⟨n⟩ = some (size + code.length) →
      p ⟨n + 1⟩ = some (size + code.length + code'.length) → Q' p)
    (h : Wrote Q' (n + 2) size cs code) (h' : Wrote Q' (n + 2 + made cs) (size + code.length) ds code') :
    Wrote Q n size (.newLabel :: .newLabel :: (cs ++ .mark ⟨n⟩ :: (ds ++ [.mark ⟨n + 1⟩]))) (code ++ code') where
  allowed := by
    refine allowed_append.mpr ⟨h.allowed, ?_, allowed_append.mpr ⟨h'.allowed, ?_, trivial⟩⟩
    · show n < n + 2 + made cs
      omega
    · show n + 1 < n + 2 + made cs + made ds
      omega
  once := by
    have hown := h.own
    have hlt := lt_of_mem_marked h.allowed
    have hown' := h'.own
    have honce := h.once
    have honce' := h'.once
    simp only [marked, marked_append]
    grind
  own := by
    have hown := h.own
    have hown' := h'.own
    simp only [marked, marked_append]
    grind
  length := by simp [Call.line?, h.length, h'.length]
  resolves := by
    intro p hp hsettles
    obtain ⟨hcs, hfirst, hrest⟩ := settles_append.mp hsettles
    obtain ⟨hds, hsecond, -⟩ := settles_append.mp hrest
    rw [h.length] at hfirst hds hsecond
    rw [h'.length] at hsecond
    have hQ' := hQ p hp hfirst hsecond
    simpa [Call.line?] using rel_append (h.resolves p hQ' hcs) (h'.resolves p hQ' hds)

/-- A new label that is marked behind the code. -/
theorem behind (h : Wrote (fun p => Q p ∧ p ⟨n⟩ = some (size + code.length)) (n + 1) size cs code) :
    Wrote Q n size (.newLabel :: (cs ++ [.mark ⟨n⟩])) code where
  allowed := allowed_append.mpr ⟨h.allowed, Nat.lt_of_lt_of_le n.lt_succ_self (Nat.le_add_right ..), trivial⟩
  once := by
    have hown := h.own
    have honce := h.once
    simp only [marked, marked_append]
    grind
  own := by
    have hown := h.own
    simp only [marked, marked_append]
    grind
  length := by simp [Call.line?, h.length]
  resolves := by
    intro p hQ hp
    obtain ⟨hcs, hmark, -⟩ := settles_append.mp hp
    rw [h.length] at hmark
    simpa [Call.line?] using h.resolves p ⟨hQ, hmark⟩ hcs

/-! ### Elements with branches -/

section
variable {es : List Call} {c r : List Op} {next last : Nat} {stop : Label}

/-- Nothing is asked of other labels. -/
theorem free (h : Wrote (fun _ => True) n size cs code) : Wrote Q n size cs code := h.mono fun _ _ => trivial

/-- Code that is skipped by a branch in front of it, with a jump behind it. -/
theorem guarded (label stop : Label) (next last : Nat) (hlabel : label.number < n) (hstop : stop.number < n)
    (h : Wrote (fun _ => True) n (size + 1) ds code) (hQ : ∀ p, Q p → p label = some next ∧ p stop = some last) :
    Wrote Q n size (.branch .ifFalse label :: (ds ++ [.branch .always stop]))
      (.brFalse next :: (code ++ [.jump last])) :=
  (branch .ifFalse hlabel fun p hp => (hQ p hp).1).append
    (h.free.append (branch .always (by omega) fun p hp => (hQ p hp).2))

theorem clause (hstop : stop.number < n) (hc : Wrote (fun _ => True) n size cs c)
    (ha : Wrote (fun _ => True) (n + made cs + 1) (size + c.length + 1) ds code)
    (hr : Wrote (fun p => p stop = some last) (n + made cs + 1 + made ds) next es r)
    (hnext : next = size + c.length + 1 + code.length + 1) :
    Wrote (fun p => p stop = some last) n size
      (cs ++ .newLabel :: .branch .ifFalse ⟨n + made cs⟩ :: (ds ++ .branch .always stop :: .mark ⟨n + made cs⟩ :: es))
      (c ++ .brFalse next :: (code ++ .jump last :: r)) := by
  have hguard := behind (Q := fun p => p stop = some last) (guarded ⟨n + made cs⟩ stop next last
    (by simp) (by omega) ha fun p hp => ⟨by rw [hp.2]; simp; omega, hp.1⟩)
  have hrest := hguard.append (hr.shift (by simp [made]; omega) (by simp [hnext]; omega))
  simpa using hc.free.append hrest

theorem conditional (hc : Wrote (fun _ => True) n size cs c)
    (ha : Wrote (fun _ => True) (n + made cs + 2) (size + c.length + 1) ds code)
    (hr : Wrote (fun _ => True) (n + made cs + 2 + made ds) next es r)
    (hnext : next = size + c.length + 1 + code.length + 1) :
    Wrote Q n size
      (cs ++ .newLabel :: .newLabel :: .branch .ifFalse ⟨n + made cs⟩ :: (ds ++ .branch .always ⟨n + made cs + 1⟩ ::
        .mark ⟨n + made cs⟩ :: (es ++ [.mark ⟨n + made cs + 1⟩])))
      (c ++ .brFalse next :: (code ++ .jump (next + r.length) :: r)) := by
  have hlabels := labels (Q := Q) (fun p _ hp hp' => ⟨by rw [hp]; simp; omega, by rw [hp']; simp; omega⟩)
    (guarded ⟨n + made cs⟩ ⟨n + made cs + 1⟩ next (next + r.length) (by simp) (by simp) ha fun _ => id)
    (hr.free.shift (by simp [made]) (by simp [hnext]; omega))
  simpa using hc.free.append hlabels

theorem loop (hc : Wrote (fun _ => True) (n + 2) size cs c)
    (hb : Wrote (fun _ => True) (n + 2 + made cs) (size + c.length + 1) ds code)
    (hlast : last = size + c.length + 1 + code.length + 1) :
    Wrote Q n size
      (.newLabel :: .newLabel :: .mark ⟨n⟩ :: (cs ++ .branch .ifFalse ⟨n + 1⟩ ::
        (ds ++ [.branch .always ⟨n⟩, .mark ⟨n + 1⟩])))
      (c ++ .brFalse last :: (code ++ [.jump size])) := by
  have hall := labels (Q := Q) (fun p _ hp hp' => ⟨by rw [hp']; simp; omega, hp⟩) nil
    (hc.free.append (guarded ⟨n + 1⟩ ⟨n⟩ last size (by simp; omega) (by simp; omega) hb fun _ => id))
  simpa using hall

theorem shortcut (kind : Branch) (hl : Wrote (fun _ => True) n size cs c)
    (hr : Wrote (fun _ => True) (n + made cs + 1) (size + c.length + 3) ds code)
    (hlast : last = size + c.length + 3 + code.length) :
    Wrote Q n size
      (cs ++ .newLabel :: .emit .dup :: .branch kind ⟨n + made cs⟩ :: .emit .pop :: (ds ++ [.mark ⟨n + made cs⟩]))
      (c ++ .dup :: kind.op last :: .pop :: code) := by
  let Q' : Places → Prop := fun p => p ⟨n + made cs⟩ = some last
  have hdup : Wrote Q' (n + made cs + 1) (size + c.length) [.emit .dup] [.dup] := emit rfl
  have hbranch : Wrote Q' (n + made cs + 1) (size + c.length + 1) [.branch kind ⟨n + made cs⟩] [kind.op last] :=
    branch kind (Nat.lt_succ_self _) fun p hp => hp
  have hpop : Wrote Q' (n + made cs + 1) (size + c.length + 2) [.emit .pop] [.pop] := emit rfl
  have hskip := behind (Q := Q) ((hdup.append (hbranch.append (hpop.append hr.free))).mono fun p hp => by
    show p ⟨n + made cs⟩ = some last
    rw [hp.2]
    simp
    omega)
  simpa using hl.free.append hskip

end

end Wrote

/-- What is written from the start can be finished. -/
theorem Wrote.finish {name : String} {arity captures : Nat} (h : Wrote (fun _ => True) 0 0 calls code) :
    (run { name, arity, captures } calls).finish = .ok (.ofCode name arity captures code) := by
  have hstart : Holds { name, arity, captures } [] := ⟨rfl, rfl, rfl⟩
  have hholds : Holds (run { name, arity, captures } calls) (written calls) := hstart.run calls
  have hsettles : Settles (run { name, arity, captures } calls).place? 0 calls :=
    settles_run (a := { name, arity, captures }) h.allowed h.once
  obtain ⟨hname, harity, hcaptures⟩ := run_frame { name, arity, captures } calls
  have hresolves := h.resolves _ trivial hsettles
  rcases hholds.finish_cases with ⟨code', hcode, hrows⟩ | ⟨n, -, hfirst⟩
  · rw [hcode, hname, harity, hcaptures, right_unique_forall₂' rightUnique_resolves hrows hresolves]
  · obtain ⟨kind, label, hline, hlacks⟩ := hfirst.lacks
    exact absurd (isSome_of_resolves hresolves (mem_of_getElem? hline)) hlacks

end Assembler

open Assembler

namespace Script

@[simp] theorem calls_append (s t : Script) : (s ++ t).calls = s.calls ++ t.calls := rfl

@[simp] theorem functions_append (s t : Script) : (s ++ t).functions = s.functions ++ t.functions := rfl

@[simp] theorem calls_ofCalls (calls : List Call) : (ofCalls calls).calls = calls := rfl

@[simp] theorem functions_ofCalls (calls : List Call) : (ofCalls calls).functions = [] := rfl

@[simp] theorem functions_ofOps (ops : List Op) : (ofOps ops).functions = [] := rfl

@[simp] theorem append_empty (s : Script) : s ++ ({} : Script) = s := by
  have h : s ++ ({} : Script) = ⟨s.calls ++ [], s.functions ++ []⟩ := rfl
  rw [h, append_nil, append_nil]

end Script

/-! ### Resolved names -/

namespace Unfolding

/-- What an element names is resolved. -/
def bound : Unfolding → Bool
  | .node _ (.assignment _ _ _ binding _) _ _ => binding.isSome
  | .node _ (.reference _ binding) _ _ => binding.isSome
  | .node _ (.invocation _ _ target) _ _ => target.isSome
  | .node _ (.closure _ captured) _ us => (Resolution.capturesOf us).length = captured.length
  | _ => true

/-- All names in an unfolding are resolved. -/
inductive Complete : Unfolding → Prop
  | node {i k o us} : bound (.node i k o us) = true → (∀ u ∈ us, Complete u) → Complete (.node i k o us)

theorem Complete.bound {u : Unfolding} (h : u.Complete) : u.bound = true := by
  cases h with
  | node hbound _ => exact hbound

theorem Complete.child {i : ElementId} {k : Kind} {o : Origin} {us : List Unfolding}
    (h : Complete (.node i k o us)) : ∀ u ∈ us, u.Complete := by
  cases h with
  | node _ hus => exact hus

end Unfolding

namespace Generate

/-! ### Scripts and emissions -/

/-- What is emitted for a row of elements, and what is written for it; `Q` says where the labels of other elements
are for the code. -/
structure Made (row : Row) (Q : List Op → Places → Prop) (n base : Nat) (us : List Unfolding)
    (e : Emission) (s : Script) : Prop where
  emitted : Emitted row base us e
  functions : s.functions = e.functions
  wrote : Wrote (Q e.code) n base s.calls e.code

/-- What is written comes to what is emitted, or both fail alike, which `c` rules out. -/
def Follows (c : Prop) (row : Row) (Q : List Op → Places → Prop) (n base : Nat) (us : List Unfolding)
    (x : Except GenerateError Emission) (y : Except GenerateError Script) : Prop :=
  match x with
  | .ok e => ∃ s, y = .ok s ∧ Made row Q n base us e s
  | .error cause => y = .error cause ∧ ¬ c

abbrev free : List Op → Places → Prop := fun _ _ => True

/-- What is written for an element comes to what is emitted for it, wherever it stands. -/
def Agrees (c : Prop) (u : Unfolding) : Prop := ∀ n base, Follows c .operands free n base [u] (emit base u) (write n u)

section
variable {c c' : Prop} {row row' : Row} {Q Q' : List Op → Places → Prop} {n n' base base' : Nat}
  {us us' : List Unfolding} {e : Emission} {s : Script} {x : Except GenerateError Emission}
  {y : Except GenerateError Script} {i : ElementId} {k : Kind} {o : Origin}

theorem Follows.mono (h : Follows c row Q n base us x y) (hc : c' → c)
    (hmade : ∀ e s, Made row Q n base us e s → Made row' Q' n base us' e s) : Follows c' row' Q' n base us' x y := by
  cases x with
  | error cause => exact ⟨h.1, fun hc' => h.2 (hc hc')⟩
  | ok e =>
    obtain ⟨s, hs, hmade'⟩ := h
    exact ⟨s, hs, hmade e s hmade'⟩

theorem Follows.bind {f : Emission → Except GenerateError Emission} {g : Script → Except GenerateError Script}
    (h : Follows c row' Q' n' base' us' x y)
    (hnext : ∀ e s, x = .ok e → Made row' Q' n' base' us' e s → Follows c row Q n base us (f e) (g s)) :
    Follows c row Q n base us (x >>= f) (y >>= g) := by
  cases x with
  | error cause =>
    obtain ⟨rfl, hc⟩ := h
    exact ⟨rfl, hc⟩
  | ok e =>
    obtain ⟨s, rfl, hmade⟩ := h
    exact hnext e s rfl hmade

theorem Follows.resolved {α : Type} {cause : Unresolved} {b : Option α} {f : α → Except GenerateError Emission}
    {g : α → Except GenerateError Script} (hb : c → b.isSome = true)
    (h : ∀ a, b = some a → Follows c row Q n base us (f a) (g a)) :
    Follows c row Q n base us (resolved o cause b >>= f) (resolved o cause b >>= g) := by
  cases b with
  | none => exact ⟨rfl, fun hc => Bool.false_ne_true (hb hc)⟩
  | some a => exact h a rfl

theorem closureOp_cases {x : ElementId} {captured : List Binding} (hfits : Fits (.node i (.closure x captured) o us)) :
    (∃ j name params b lifted captures o' vs, us = [.node j (.function name params b lifted captures) o' vs] ∧
      closureOp o captured us = .ok (some (.makeClosure name (captured.map (·.slot))))) ∨
    ∃ cause, closureOp o captured us = .error cause ∧ ¬ Complete (.node i (.closure x captured) o us) := by
  obtain ⟨⟨j, k, o', vs⟩, rfl, -, hk⟩ := hfits.one rfl
  cases k <;> simp only [kind, Role.accepts, Bool.false_eq_true] at hk
  rename_i name params b lifted captures
  by_cases hlength : captures.length = captured.length
  · exact .inl ⟨j, name, params, b, lifted, captures, o', vs, rfl, if_pos hlength⟩
  · exact .inr ⟨_, if_neg hlength, fun h => hlength (of_decide_eq_true h.bound)⟩

theorem branchTarget?_closing {ops : List Op} (h : closing? k = some ops) : ∀ op ∈ ops, op.branchTarget? = none := by
  cases k with
  | assignment | reference =>
    obtain ⟨b, -, rfl⟩ := Option.map_eq_some_iff.mp h
    simp [Op.branchTarget?]
  | invocation =>
    obtain ⟨target, -, rfl⟩ := Option.map_eq_some_iff.mp h
    cases target <;> simp [callOp, Op.branchTarget?]
  | binary operator | unary operator => cases operator <;> cases h <;> simp [unaryOp, Op.branchTarget?]
  | returns x => cases x <;> cases h <;> simp [Op.branchTarget?]
  | constant | module | whenClause =>
    cases h
    simp [Op.branchTarget?]
  | _ => cases h

theorem made_nil : Made .operands free n base [] {} {} := ⟨.nil, rfl, .nil⟩

theorem follows_closing {ops : List Op} (hk : closing? k = some ops) (hfits : Fits (.node i k o us))
    (h : Made .operands free n base us e s) :
    Follows c .operands free n base [.node i k o us] (pure (e ++ .ofOps ops)) (pure (s ++ .ofOps ops)) :=
  ⟨_, rfl, .closing hk hfits h.emitted, by simp [h.functions], h.wrote.append (.emits _ (branchTarget?_closing hk))⟩

theorem follows_all (h : ∀ u ∈ us, Agrees c u) (n base : Nat) :
    Follows c .operands free n base us (emitAll base us) (writeAll n us) := by
  induction us generalizing n base with
  | nil =>
    simp only [emitAll, writeAll]
    exact ⟨_, rfl, made_nil⟩
  | cons u us ih =>
    obtain ⟨hu, hus⟩ := forall_mem_cons.mp h
    simp only [emitAll, writeAll]
    exact (hu n base).bind fun e s _ hu => (ih hus _ _).bind fun e' s' _ hus =>
      ⟨_, rfl, .cons hu.emitted hus.emitted, by simp [hu.functions, hus.functions], hu.wrote.append hus.wrote⟩

theorem follows_statements (h : ∀ u ∈ us, Agrees c u) (hall : ∀ u ∈ us, Role.statement.accepts u.kind = true)
    (n base : Nat) : Follows c .statements free n base us (emitStatements base us) (writeStatements n us) := by
  induction us generalizing n base with
  | nil =>
    simp only [emitStatements, writeStatements]
    exact ⟨_, rfl, .done, rfl, .nil⟩
  | cons u us ih =>
    obtain ⟨hu, hus⟩ := forall_mem_cons.mp h
    obtain ⟨haccepts, hall⟩ := forall_mem_cons.mp hall
    simp only [emitStatements, writeStatements]
    refine (hu n base).bind fun e s _ hu => ?_
    split_ifs with hk
    · exact (ih hus hall _ _).bind fun e' s' _ hus =>
        ⟨_, rfl, .statement haccepts hu.emitted (by rw [if_pos hk]) hus.emitted,
          by simp [hu.functions, hus.functions], (hu.wrote.append (.emit rfl)).append hus.wrote⟩
    · exact (ih hus hall _ _).bind fun e' s' _ hus =>
        ⟨_, rfl, .statement haccepts hu.emitted (by rw [if_neg hk]) hus.emitted,
          by simp [hu.functions, hus.functions], hu.wrote.append hus.wrote⟩

/-- The label stands behind code that starts at `base`. -/
def behind (stop : Label) (base : Nat) (code : List Op) (p : Places) : Prop :=
  p stop = some (base + code.length)

theorem follows_arms {arm : Arm} (harms : Arms arm us)
    (h : ∀ u, u ∈ us ∨ (∃ v ∈ us, u ∈ v.children) → Agrees c u) {stop : Label} (hstop : stop.number < n) :
    Follows c (.arms arm) (behind stop base) n base us (emitArms base us) (writeArms stop n us) := by
  induction harms generalizing n base with
  | @fallback u _ hu =>
    have hfallback : Follows c (.arms arm) (behind stop base) n base [u]
        (do
          let first ← emit base u
          return first ++ ({} : Emission))
        (do
          let first ← write n u
          return first ++ ({} : Script)) := by
      refine (h u (.inl (.head _)) n base).bind fun e s _ he => ?_
      rw [Emission.append_empty, Script.append_empty]
      exact ⟨_, rfl, .fallback hu he.emitted, he.functions, he.wrote.free⟩
    obtain ⟨i, k, o, vs⟩ := u
    cases arm <;> cases k <;> first | exact hfallback | cases hu
  | @clause i c a o condition action rest _ hc _ ha _ ih =>
    have hcondition := h condition (.inr ⟨_, .head _, .head _⟩)
    have haction := h action (.inr ⟨_, .head _, .tail _ (.head _)⟩)
    have hrest : ∀ u, u ∈ rest ∨ (∃ v ∈ rest, u ∈ v.children) → Agrees _ u := fun u hu =>
      h u (hu.imp (.tail _) fun ⟨v, hv, hu⟩ => ⟨v, .tail _ hv, hu⟩)
    simp only [emitArms, writeArms]
    refine (hcondition n base).bind fun ec sc _ hec => (haction _ _).bind fun ea sa _ hea =>
      (ih hrest (by omega)).bind fun er sr _ her => ⟨_, rfl, .clause hc ha hec.emitted hea.emitted rfl her.emitted,
        by simp [hec.functions, hea.functions, her.functions], ?_⟩
    refine Wrote.mono (Q := fun p => p stop = some (base + ec.size + 1 + ea.size + 1 + er.size)) ?_ fun p hp => ?_
    · simpa [Script.labels, Emission.size] using Wrote.clause hstop hec.wrote hea.wrote her.wrote rfl
    · rw [behind] at hp
      rw [hp]
      simp [Emission.size]
      omega

theorem complete_of_made {name : String} {params captures : List String} (h : Made .operands free 0 0 us e s) :
    s.complete name params captures o = .ok (e.functions ++
      [.ofCode name params.length captures.length (e.code ++ [.const .null, .ret])]) := by
  have hall : Wrote (fun _ => True) 0 0 (s.calls ++ [.emit (.const .null), .emit .ret])
      (e.code ++ [.const .null, .ret]) := h.wrote.append (.emits [.const .null, .ret] (by simp [Op.branchTarget?]))
  rw [Script.complete, hall.finish, h.functions]
  rfl

end

/-- Elements that fit are written as they are emitted, and their code is put together as `Emitted` says. -/
theorem follows {u : Unfolding} (hfits : u.Fits) : Agrees u.Complete u := by
  induction u using induct₂ with
  | node i k o us ih ih' =>
    have hus : ∀ u ∈ us, Agrees (Complete (.node i k o us)) u := fun u hu n base =>
      (ih u hu (hfits.child u hu) n base).mono (fun h => h.child u hu) fun _ _ h => h
    have harms {arm : Arm} (h : Arms arm us) {stop : Label} {n base : Nat} (hstop : stop.number < n) :
        Follows (Complete (.node i k o us)) (.arms arm) (behind stop base) n base us (emitArms base us)
          (writeArms stop n us) := by
      refine follows_arms h (fun u hu n base => ?_) hstop
      rcases hu with hu | ⟨⟨_, _, _, _⟩, hv, hu⟩
      · exact hus u hu n base
      · exact (ih' _ hv u hu ((hfits.child _ hv).child u hu) n base).mono (fun h => (h.child _ hv).child u hu)
          fun _ _ h => h
    have hall := follows_all hus
    intro n base
    cases k with
    | function name params b lifted captures =>
      obtain ⟨body, rfl, hb, hbb⟩ := hfits.one rfl
      simp only [emit, write]
      refine (hall 0 0).bind fun e s he hbody => ?_
      rw [emitAll_singleton] at he
      rw [complete_of_made hbody]
      exact ⟨_, rfl, .function hb hbb he hbody.emitted, rfl, .nil⟩
    | block ids =>
      simp only [emit, write]
      exact (follows_statements hus (fun u hu => (hfits.all rfl u hu).2) n base).mono id fun _ _ h =>
        ⟨.block h.emitted, h.functions, h.wrote⟩
    | caseOf | matchOf =>
      simp only [emit, write]
      rw [← bind_pure (emitArms base us)]
      refine (harms (hfits.arms rfl) (Nat.lt_succ_self n)).bind fun e s _ h => ⟨_, rfl, ?_, by simp [h.functions], ?_⟩
      · first | exact .caseOf h.emitted | exact .matchOf h.emitted
      · simpa using Wrote.behind (h.wrote.mono fun p hp => hp.2)
    | conditional c a x =>
      obtain ⟨condition, action, rest, rfl, -, hcondition, -, haction, hrest⟩ := hfits.conditional
      simp only [emit, write]
      refine (hus condition (by simp) _ _).bind fun ec sc _ hc => (hus action (by simp) _ _).bind fun ea sa _ ha =>
        (follows_all (fun u hu => hus u (by simp [hu])) _ _).bind fun er sr _ hr => ⟨_, rfl,
          .conditional hcondition (isStatement_of_block haction) (fun u hu => ?_) hc.emitted ha.emitted rfl hr.emitted,
          by simp [hc.functions, ha.functions, hr.functions], ?_⟩
      · rcases hrest with rfl | ⟨other, rfl, -, hother⟩
        · cases hu
        · cases mem_singleton.mp hu
          exact isStatement_of_elseBranch hother
      · simpa [Script.labels, Emission.size] using Wrote.conditional hc.wrote ha.wrote hr.wrote rfl
    | loop c b =>
      obtain ⟨condition, body, rfl, -, hcondition, -, hbody⟩ := hfits.two rfl
      simp only [emit, write]
      refine (hus condition (by simp) _ _).bind fun ec sc _ hc => (hus body (by simp) _ _).bind fun eb sb _ hb =>
        ⟨_, rfl, .loop hcondition (isStatement_of_block hbody) hc.emitted hb.emitted rfl,
          by simp [hc.functions, hb.functions], ?_⟩
      simpa [Emission.size] using Wrote.loop hc.wrote hb.wrote rfl
    | assignment | invocation =>
      simp only [emit, write]
      exact (hall n base).bind fun e s _ h => Follows.resolved (fun h => h.bound) fun b hb =>
        follows_closing (by simp [closing?, hb]) hfits h
    | reference name binding =>
      obtain rfl := hfits.none rfl
      simp only [emit, write]
      exact Follows.resolved (fun h => h.bound) fun b hb => follows_closing (by simp [closing?, hb]) hfits made_nil
    | constant value =>
      obtain rfl := hfits.none rfl
      simp only [emit, write]
      exact follows_closing rfl hfits made_nil
    | returns x =>
      cases x with
      | none =>
        obtain rfl := hfits.none rfl
        simp only [emit, write]
        exact follows_closing rfl hfits made_nil
      | some x =>
        simp only [emit, write]
        exact (hall n base).bind fun e s _ h => follows_closing rfl hfits h
    | unary operator x =>
      simp only [emit, write]
      exact (hall n base).bind fun e s _ h => follows_closing rfl hfits h
    | binary operator l r =>
      obtain ⟨left, right, rfl, -, hleft, -, hright⟩ := hfits.two rfl
      cases hop : strictOp? operator with
      | some op =>
        simp only [emit, write, hop]
        exact (hus left (by simp) _ _).bind fun el sl _ hl => (hus right (by simp) _ _).bind fun er sr _ hr =>
          follows_closing (by simp [closing?, hop]) hfits ⟨.cons hl.emitted hr.emitted,
            by simp [hl.functions, hr.functions], hl.wrote.append hr.wrote⟩
      | none =>
        have hshort : ∀ n, (skipping operator).op n = shortcut operator n := by cases operator <;> exact fun _ => rfl
        simp only [emit, write, hop]
        refine (hus left (by simp) _ _).bind fun el sl _ hl => (hus right (by simp) _ _).bind fun er sr _ hr =>
          ⟨_, rfl, .shortcut hleft hright hl.emitted hr.emitted rfl, by simp [hl.functions, hr.functions], ?_⟩
        simpa [← hshort, Script.labels, Emission.size] using Wrote.shortcut (skipping operator) hl.wrote hr.wrote rfl
    | closure x captured =>
      rcases closureOp_cases hfits with ⟨_, _, _, _, _, _, _, _, rfl, hop⟩ | ⟨cause, hop, hc⟩
      · simp only [emit, write, hop]
        refine (hall n (base + 1)).bind fun e s he h => ⟨_, rfl, .closure ?_ h.emitted, by simp [h.functions],
          Wrote.append (.emit rfl) h.wrote⟩
        simp only [emitAll_singleton, emit, bind_eq_ok_iff] at he
        obtain ⟨_, -, ⟨⟩⟩ := he
        rfl
      · simp only [emit, write, hop]
        exact ⟨rfl, hc⟩
    | module | whenClause =>
      simp only [emit, write]
      refine (hall n base).mono id fun e s h => ⟨?_, h.functions, h.wrote⟩
      rw [← Emission.append_empty e]
      exact .closing rfl hfits h.emitted

section
variable {u : Unfolding} {base : Nat} {e : Emission}

/-- Code that was generated is put together as `Emitted` says. -/
theorem emitted (hfits : u.Fits) (h : emit base u = .ok e) : Emitted .operands base [u] e := by
  have hu := follows hfits 0 base
  rw [h] at hu
  obtain ⟨s, -, hmade⟩ := hu
  exact hmade.emitted

/-- There is code for everything that is resolved. -/
theorem emits (hfits : u.Fits) (hcomplete : u.Complete) (base : Nat) : ∃ e, emit base u = .ok e := by
  have hu := follows hfits 0 base
  cases h : emit base u with
  | error cause =>
    rw [h] at hu
    exact absurd hcomplete hu.2
  | ok e => exact ⟨e, rfl⟩

end

/-- The functions that a function makes are the same with and without labels, so each of them can be finished. -/
theorem outside_function {i b : ElementId} {name : String} {params captures : List String} {lifted : Bool} {o : Origin}
    {us : List Unfolding} (hfits : Fits (.node i (.function name params b lifted captures) o us)) :
    outside (.node i (.function name params b lifted captures) o us) = (do
      return (← emit 0 (.node i (.function name params b lifted captures) o us)).functions) := by
  have hall := follows_all (fun u hu n base => (follows (hfits.child u hu) n base).mono
    (fun h : ∀ u ∈ us, u.Complete => h u hu) fun _ _ h => h) 0 0
  simp only [outside, emit]
  cases hemit : emitAll 0 us with
  | error cause =>
    rw [hemit] at hall
    rw [hall.1]
    rfl
  | ok e =>
    rw [hemit] at hall
    obtain ⟨s, hs, hmade⟩ := hall
    rw [hs]
    exact complete_of_made hmade

end Generate

end Clausal
