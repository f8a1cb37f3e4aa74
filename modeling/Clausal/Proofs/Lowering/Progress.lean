import Clausal.Proofs.Grammar.Roles
import Clausal.Proofs.Tree.Histories

/-! # What stops lowering

A syntax node that has the parts it needs (`Ast.Fills`) is lowered, unless a case or a match in it has no
clause or no fallback (`Node.lack?`). -/

namespace Clausal

open List Option

open Ast (Form Node Fills fallbackPart)

@[elab_as_elim, induction_eliminator]
theorem Ast.Node.inductOn {P : Node → Prop}
    (mk : ∀ form origin parts, (∀ n ∈ parts, P n) → P (.mk form origin parts)) : ∀ n, P n
  | .mk form origin parts => mk form origin parts fun n _ => inductOn mk n

@[elab_as_elim]
theorem Ast.Node.induct₂ {P : Node → Prop}
    (mk : ∀ form origin parts, (∀ n ∈ parts, P n) → (∀ n ∈ parts, ∀ part ∈ n.parts, P part) →
      P (.mk form origin parts)) (n : Node) : P n := by
  have h : P n ∧ ∀ part ∈ n.parts, P part := by
    induction n with
    | mk form origin parts ih =>
      exact ⟨mk form origin parts (fun n hn => (ih n hn).1) fun n hn => (ih n hn).2, fun n hn => (ih n hn).1⟩
  exact h.1

/-! ### What is missing -/

def Ast.Form.arm? : Form → Option Arm
  | .caseOf => some .statement
  | .matchOf => some .value
  | _ => none

def Ast.Form.isWhen : Form → Bool
  | .whenClause => true
  | _ => false

def Ast.Form.isOtherwise : Form → Bool
  | .otherwise => true
  | _ => false

namespace Ast.Node

/-- What a case or a match itself lacks: a clause, or else a fallback. -/
def lack? (n : Node) : Option BuildError :=
  n.form.arm?.bind fun arm =>
    if n.parts.any (·.form.isWhen) = false then some (.malformed n.origin .alternatives (.noClauses arm))
    else if n.parts.any (·.form.isOtherwise) = false then
      some (.malformed n.origin .alternatives (.noFallback arm))
    else none

def Incomplete (n : Node) : Prop :=
  n.form.arm?.isSome = true ∧
    ((∀ part ∈ n.parts, part.form.isWhen = false) ∨ ∀ part ∈ n.parts, part.form.isOtherwise = false)

variable {n : Node}

theorem incomplete_iff : n.Incomplete ↔ ∃ e, n.lack? = some e := by
  have hany (p : Node → Bool) : n.parts.any p = false ↔ ∀ part ∈ n.parts, p part = false := by
    simp only [List.any_eq_false, Bool.not_eq_true]
  rw [Incomplete, lack?, ← hany, ← hany]
  cases n.form.arm? with
  | none => simp
  | some arm =>
    rw [bind_some, isSome_some]
    split_ifs with hwhen hotherwise
    · simp [hwhen]
    · simp [hotherwise]
    · simp [hwhen, hotherwise]

mutual

/-- The first thing that something in a node lacks, where a node comes after its parts. -/
def flaw? : Node → Option BuildError
  | mk form origin parts => (flawAll? parts).or (lack? (mk form origin parts))

def flawAll? : List Node → Option BuildError
  | [] => none
  | n :: rest => n.flaw?.or (flawAll? rest)

end

@[simp] theorem flawAll?_singleton (n : Node) : flawAll? [n] = n.flaw? := by
  rw [flawAll?, flawAll?, or_none]

theorem flaw?_eq_flawAll? {form : Form} (h : form.arm? = none) (origin : Origin) (parts : List Node) :
    flaw? (mk form origin parts) = flawAll? parts := by
  have hlack : lack? (mk form origin parts) = none := by
    rw [lack?, Node.form, h, bind_none]
  rw [flaw?, hlack, or_none]

theorem preorderAll_eq_flatMap (ns : List Node) : preorderAll ns = ns.flatMap preorder := by
  induction ns with
  | nil => rw [preorderAll, flatMap_nil]
  | cons n ns ih => rw [preorderAll, ih, flatMap_cons]

theorem flawAll?_eq_findSome? (ns : List Node) : flawAll? ns = ns.findSome? flaw? := by
  induction ns with
  | nil => rw [flawAll?, findSome?_nil]
  | cons n ns ih =>
    rw [flawAll?, ih, findSome?_cons]
    cases n.flaw? <;> rfl

theorem exists_lack_of_flaw? {e : BuildError} (h : n.flaw? = some e) :
    ∃ m ∈ n.preorder, m.lack? = some e := by
  induction n with
  | mk form origin parts ih =>
    rw [preorder, preorderAll_eq_flatMap]
    rw [flaw?, or_eq_some_iff, flawAll?_eq_findSome?] at h
    rcases h with h | ⟨-, h⟩
    · obtain ⟨part, hpart, hflaw⟩ := exists_of_findSome?_eq_some h
      obtain ⟨m, hm, hlack⟩ := ih part hpart hflaw
      exact ⟨m, .tail _ (mem_flatMap.mpr ⟨part, hpart, hm⟩), hlack⟩
    · exact ⟨_, .head _, h⟩

theorem lack?_of_flaw?_eq_none (h : n.flaw? = none) : ∀ m ∈ n.preorder, m.lack? = none := by
  induction n with
  | mk form origin parts ih =>
    rw [flaw?, or_eq_none_iff, flawAll?_eq_findSome?, findSome?_eq_none_iff] at h
    rw [preorder, preorderAll_eq_flatMap]
    intro m hm
    rcases mem_cons.mp hm with rfl | hm
    · exact h.2
    · obtain ⟨part, hpart, hm⟩ := mem_flatMap.mp hm
      exact ih part hpart (h.1 part hpart) m hm

end Ast.Node

/-! ### Steps that come to something -/

namespace Lower

open Clausal.Tree
open Alternatives (armSlots roleOf exists_allocAll build_eq_ok_iff)

variable {α β : Type} {t : Tree}

/-- From a tree, the step comes to the error, or if there is none it succeeds with a result that is as `Q`
says. -/
def Settles (flaw? : Option BuildError) (t : Tree) (step : Lower α) (Q : Tree → α → Prop) : Prop :=
  ∀ b : Builder, b.tree = t →
    match flaw? with
    | none => ∃ a b', step b = .ok a b' ∧ Q b'.tree a
    | some e => ∃ b', step b = .error e b'

variable {f g : Option BuildError} {Q : Tree → α → Prop} {R : Tree → β → Prop} {b b' : Builder}

theorem Settles.bind {x : Lower α} {k : α → Lower β} (hx : Settles f t x Q)
    (hk : ∀ t' a, Q t' a → Settles g t' (k a) R) : Settles (f.or g) t (x >>= k) R := by
  intro b hb
  have hxb := hx b hb
  cases f with
  | some e =>
    obtain ⟨b', herror⟩ := hxb
    exact ⟨b', by rw [bind_apply, herror]⟩
  | none =>
    obtain ⟨a, b', hok, hq⟩ := hxb
    have hkb := hk b'.tree a hq b' rfl
    rw [none_or]
    rwa [bind_apply, hok]

theorem Settles.stored {x : Lower α} {k : α → Lower β} (hx : Settles f t x Q)
    (hk : ∀ t' a, Q t' a → Settles none t' (k a) R) : Settles f t (x >>= k) R := by
  rw [← or_none (o := f)]
  exact hx.bind hk

theorem Settles.first {x : Lower α} {k : α → Lower β} (hx : Settles none t x Q)
    (hk : ∀ t' a, Q t' a → Settles g t' (k a) R) : Settles g t (x >>= k) R := by
  rw [← none_or (o := g)]
  exact hx.bind hk

theorem settles_pure {a : α} (h : Q t a) : Settles none t (pure a) Q := by
  rintro b rfl
  exact ⟨a, b, rfl, h⟩

variable {origin : Origin}

theorem settles_malformed {stage : Stage} {flaw : Flaw} :
    Settles (some (.malformed origin stage flaw)) t (malformed origin stage flaw) Q :=
  fun b _ => ⟨b, rfl⟩

theorem Settles.imp {step : Lower α} {Q' : Tree → α → Prop} (h : Settles f t step Q)
    (himp : ∀ t' a, Q t' a → Q' t' a) : Settles f t step Q' := by
  intro b hb
  have hstep := h b hb
  cases f with
  | some e => exact hstep
  | none =>
    obtain ⟨a, b', hok, hq⟩ := hstep
    exact ⟨a, b', hok, himp _ _ hq⟩

theorem settles_modifyNames (f : Names → Names) : Settles none t (modifyNames f) fun t' _ => t' = t := by
  rintro b rfl
  exact ⟨(), _, rfl, rfl⟩

theorem settles_closureName : Settles none t closureName fun t' _ => t' = t := by
  rintro b rfl
  exact ⟨_, _, rfl, rfl⟩

theorem settles_leaving {step : Lower ElementId} {Q : Tree → ElementId → Prop} (h : Settles f t step Q) :
    Settles f t (leaving step) Q := by
  intro b hb
  have hstep := h b hb
  cases f with
  | some e =>
    obtain ⟨b', herror⟩ := hstep
    exact ⟨_, by rw [leaving, herror]⟩
  | none =>
    obtain ⟨a, b', hok, hq⟩ := hstep
    exact ⟨a, { b' with names := b'.names.exit }, by rw [leaving, hok], hq⟩

/-! ### The stack -/

variable {S : List (Role × ElementId)} {role : Role} {id : ElementId} {k : Kind}

theorem settles_adopt (h : t.Adoptable k.slots) (o : Origin) :
    Settles none t (alloc k o) fun t' id => t' = t.adopt k o ∧ id = t.size := by
  rintro b rfl
  have halloc : b.tree.alloc k o = Except.ok (b.tree.adopt k o, b.tree.size) := alloc_eq_ok_iff.mpr ⟨h, rfl⟩
  refine ⟨b.tree.size, { b with tree := b.tree.adopt k o }, ?_, rfl, rfl⟩
  rw [alloc_apply, halloc]

theorem settles_alloc (h : Pending t (S ++ k.slots)) (hrole : role.accepts k = true) (o : Origin) :
    Settles none t (alloc k o) fun t' id => Pending t' (S ++ [(role, id)]) := by
  obtain ⟨hadoptable, hpending⟩ := h.adopt role hrole o
  refine (settles_adopt hadoptable o).imp ?_
  rintro _ _ ⟨rfl, rfl⟩
  exact hpending

/-! ### Cases and matches -/

def complete (arm : Arm) (origin : Origin) (pairs : List (ElementId × ElementId))
    (fallback : Option ElementId) : Alternatives :=
  ⟨arm, origin, pairs.map fun p => (p.1, some p.2), fallback⟩

@[simp] theorem arm_complete (arm : Arm) (origin : Origin) (pairs : List (ElementId × ElementId))
    (fallback : Option ElementId) : (complete arm origin pairs fallback).arm = arm := rfl

variable {arm : Arm} {pairs : List (ElementId × ElementId)}

theorem settles_build {fallback : ElementId} (hpairs : pairs ≠ [])
    (h : Pending t (S ++ armSlots arm pairs (some fallback))) :
    Settles none t (build (complete arm origin pairs (some fallback))) fun t' id =>
      Pending t' (S ++ [(roleOf arm, id)]) := by
  rintro b rfl
  obtain ⟨t', hall, hpending, -⟩ := exists_allocAll origin h
  have hbuild : (complete arm origin pairs (some fallback)).build b.tree = .ok (t', _, fallback) :=
    build_eq_ok_iff.mpr ⟨pairs, hpairs, rfl, rfl, h.right.adoptable, hall⟩
  exact ⟨_, _, by rw [build_apply, hbuild], hpending⟩

theorem settles_finishAlternatives {fallback : Option ElementId}
    (h : Pending t (S ++ armSlots arm pairs fallback)) :
    Settles (if pairs.isEmpty = true then some (.malformed origin .alternatives (.noClauses arm))
        else if fallback.isNone = true then some (.malformed origin .alternatives (.noFallback arm))
        else none) t (finishAlternatives (complete arm origin pairs fallback)) fun t' id =>
      Pending t' (S ++ [(roleOf arm, id)]) := by
  have hempty : (complete arm origin pairs fallback).clauses.isEmpty = pairs.isEmpty := by
    cases pairs <;> rfl
  rw [finishAlternatives, hempty]
  by_cases hpairs : pairs.isEmpty = true
  · rw [if_pos hpairs, if_pos hpairs]
    exact settles_malformed
  rw [if_neg hpairs, if_neg hpairs]
  cases fallback with
  | none => exact settles_malformed
  | some f => exact settles_build (by simpa using hpairs) h

/-! ### Nodes -/

/-- Lowering the node comes to what it lacks, or it puts one more element on the stack. -/
def Pushes (role : Role) (n : Node) : Prop :=
  ∀ t S, Pending t S → Settles n.flaw? t (node n) fun t' id => Pending t' (S ++ [(role, id)])

/-- So does lowering it as a statement of a block, for one or two elements. -/
def Stated (n : Node) : Prop :=
  ∀ t S, Pending t S → Settles n.flaw? t (asStatement n (node n) (firstPart n)) fun t' ids =>
    Pending t' (S ++ ids.map (.statement, ·))

def Guarded (arm : Arm) (n : Node) : Prop :=
  ∃ o condition action, n = .mk .whenClause o [condition, action] ∧ Pushes .expression condition ∧
    Fills arm.actionRole action ∧ Pushes arm.actionRole action

/-- What lowering makes of a node that fills a role.  A conditional can also be a branch of another one. -/
def Progress : Role → Node → Prop
  | .statement, n => Pushes .statement n ∧ Stated n ∧ (n.form = .conditional → Pushes .elseBranch n)
  | .clause arm, n => Guarded arm n
  | role, n => Pushes role n

variable {ns : List Node}

theorem settles_nodes (hns : ∀ n ∈ ns, Pushes role n) (h : Pending t S) :
    Settles (Node.flawAll? ns) t (nodes ns) fun t' ids => Pending t' (S ++ ids.map (role, ·)) := by
  induction ns generalizing t S with
  | nil =>
    rw [Node.flawAll?, nodes]
    exact settles_pure (by simpa using h)
  | cons n ns ih =>
    obtain ⟨hn, hns⟩ := forall_mem_cons.mp hns
    rw [Node.flawAll?, nodes]
    refine (hn t S h).bind fun t1 id h1 => ?_
    exact (ih hns h1).stored fun t2 ids h2 => settles_pure (by simpa using h2)

theorem settles_statements (hns : ∀ n ∈ ns, Stated n) (h : Pending t S) :
    Settles (Node.flawAll? ns) t (statements ns) fun t' ids => Pending t' (S ++ ids.map (.statement, ·)) := by
  induction ns generalizing t S with
  | nil =>
    rw [Node.flawAll?, statements]
    exact settles_pure (by simpa using h)
  | cons n ns ih =>
    obtain ⟨hn, hns⟩ := forall_mem_cons.mp hns
    rw [Node.flawAll?, statements]
    refine (hn t S h).bind fun t1 ids h1 => ?_
    exact (ih hns h1).stored fun t2 ids' h2 => settles_pure (by simpa using h2)

variable {n : Node}

theorem form_of_fills_block (h : Fills .block n) : n.form = .block := by
  cases h
  rfl

theorem form_of_fills_clause (h : Fills (.clause arm) n) : n.form = .whenClause := by
  cases h
  rfl

theorem form_of_fills_expression (h : Fills .expression n) : n.form.isExpression = true := by
  cases h <;> rfl

variable {form : Form}

theorem declaration?_of_isExpression (h : form.isExpression = true) : declaration? form = none := by
  cases form <;> first | rfl | cases h

theorem asBlock_of_fills (h : Fills .block n) (step : Lower ElementId) : asBlock n step = step := by
  rw [asBlock, form_of_fills_block h]

theorem asElse_of_fills (h : Fills .elseBranch n) (step : Lower ElementId) : asElse n step = step := by
  rw [asElse]
  cases h with
  | elseBlock h => rw [form_of_fills_block h, asBlock_of_fills h]
  | elseIf hform _ => rw [hform]

theorem asAction_of_fills (h : Fills arm.actionRole n) (step : Lower ElementId) :
    asAction arm n step = step := by
  cases arm with
  | statement => exact asBlock_of_fills h step
  | value => rfl

variable {body : Node}

theorem settles_functionBody (hrole : role = .block ∨ role = .expression) (hfills : Fills role body)
    (hbody : Pushes role body) (h : Pending t S) :
    Settles body.flaw? t (functionBody body (node body)) fun t' id => Pending t' (S ++ [(.block, id)]) := by
  rcases hrole with rfl | rfl
  · rw [functionBody, form_of_fills_block hfills]
    exact settles_leaving (hbody t S h)
  · have hform := form_of_fills_expression hfills
    unfold functionBody
    split
    · rename_i hblock
      rw [hblock] at hform
      cases hform
    · refine (hbody t S h).stored fun t1 value h1 => ?_
      refine Settles.first (@settles_alloc _ _ .statement _ h1 rfl _) fun t2 result h2 => ?_
      exact settles_leaving (settles_alloc h2 rfl _)

variable {params : List String}

theorem settles_asFunction {name : String} {isClosure : Bool} (hrole : role = .block ∨ role = .expression)
    (hfills : Fills role body) (hbody : Pushes role body) (h : Pending t S) :
    Settles body.flaw? t (asFunction name params isClosure origin body (node body)) fun t' id =>
      Pending t' (S ++ [(.function, id)]) := by
  refine (settles_modifyNames _).first fun t1 _ heq => ?_
  subst heq
  exact (settles_functionBody hrole hfills hbody h).stored fun t2 id h2 => settles_alloc h2 rfl _

variable {fallback : Option (Origin × Node)}

theorem settles_clauses (hns : ∀ n ∈ ns, Guarded arm n)
    (hfallback : ∀ p ∈ fallback, Fills arm.actionRole p.2 ∧ Pushes arm.actionRole p.2)
    (h : Pending t (S ++ armSlots arm pairs none)) :
    Settles (Node.flawAll? (ns ++ fallbackPart fallback)) t
      (clauses (complete arm origin pairs none) (ns ++ fallbackPart fallback)) fun t' a =>
        ∃ pairs' fallback', a = complete arm origin (pairs ++ pairs') fallback' ∧
          pairs'.length = ns.length ∧ fallback'.isSome = fallback.isSome ∧
          Pending t' (S ++ armSlots arm (pairs ++ pairs') fallback') := by
  induction ns generalizing t pairs with
  | nil =>
    cases fallback with
    | none =>
      rw [nil_append, fallbackPart, toList_none, map_nil, Node.flawAll?, clauses]
      exact settles_pure ⟨[], none, by rw [append_nil], rfl, rfl, by rwa [append_nil]⟩
    | some p =>
      obtain ⟨hfills, hpushes⟩ := hfallback p rfl
      have hparts : [] ++ fallbackPart (some p) = [Node.mk .otherwise p.1 [p.2]] := rfl
      rw [hparts, Node.flawAll?_singleton, Node.flaw?_eq_flawAll? rfl, Node.flawAll?_singleton, clauses,
        arm_complete, asAction_of_fills hfills]
      refine (hpushes t _ h).stored fun t1 action h1 => ?_
      have hset : (complete arm origin pairs none).setFallback action =
          Except.ok (complete arm origin pairs (some action)) := rfl
      rw [hset]
      refine settles_pure ⟨[], some action, by rw [append_nil], rfl, rfl, ?_⟩
      simpa [armSlots] using h1
  | cons n ns ih =>
    obtain ⟨⟨o, condition, action, rfl, hcondition, hfills, haction⟩, hrest⟩ := forall_mem_cons.mp hns
    rw [cons_append, Node.flawAll?, Node.flaw?_eq_flawAll? rfl, Node.flawAll?, Node.flawAll?_singleton,
      Option.or_assoc, clauses, arm_complete, asAction_of_fills hfills]
    refine (hcondition t _ h).bind fun t1 c h1 => ?_
    refine (haction t1 _ h1).bind fun t2 a h2 => ?_
    have hadd : (complete arm origin pairs none).addClause c a =
        complete arm origin (pairs ++ [(c, a)]) none := by
      simp [complete, Alternatives.addClause]
    rw [hadd]
    have hpending : Pending t2 (S ++ armSlots arm (pairs ++ [(c, a)]) none) := by
      simpa [armSlots] using h2
    refine (ih hrest hpending).imp ?_
    rintro t3 _ ⟨pairs', fallback', rfl, hlength, hsome, h3⟩
    rw [append_assoc] at h3 ⊢
    exact ⟨(c, a) :: pairs', fallback', rfl, by simp [hlength], hsome, h3⟩

theorem lack?_alternatives (hform : form.arm? = some arm) (hns : ∀ n ∈ ns, n.form = .whenClause)
    {fallback' : Option ElementId} (hlength : pairs.length = ns.length)
    (hsome : fallback'.isSome = fallback.isSome) :
    Node.lack? (.mk form origin (ns ++ fallbackPart fallback)) =
      if pairs.isEmpty = true then some (.malformed origin .alternatives (.noClauses arm))
      else if fallback'.isNone = true then some (.malformed origin .alternatives (.noFallback arm))
      else none := by
  have hwhen : (ns ++ fallbackPart fallback).any (·.form.isWhen) = !pairs.isEmpty := by
    have hfallback : (fallbackPart fallback).any (·.form.isWhen) = false := by cases fallback <;> rfl
    rw [any_append, hfallback, Bool.or_false]
    cases ns with
    | nil => rw [eq_nil_of_length_eq_zero hlength]; rfl
    | cons n ns =>
      rw [any_cons, hns n (.head _)]
      cases pairs with
      | nil => cases hlength
      | cons => rfl
  have hotherwise : (ns ++ fallbackPart fallback).any (·.form.isOtherwise) = fallback'.isSome := by
    have hclauses : ns.any (·.form.isOtherwise) = false := by
      rw [List.any_eq_false]
      intro n hn
      rw [hns n hn]
      exact Bool.false_ne_true
    rw [any_append, hclauses, Bool.false_or, hsome]
    cases fallback <;> rfl
  rw [Node.lack?, Node.form, Node.parts, hform, bind_some, hwhen, hotherwise]
  cases pairs.isEmpty <;> cases fallback' <;> rfl

theorem settles_alternatives (hform : form.arm? = some arm) (hns : ∀ n ∈ ns, Guarded arm n)
    (hfallback : ∀ p ∈ fallback, Fills arm.actionRole p.2 ∧ Pushes arm.actionRole p.2) (h : Pending t S) :
    Settles (Node.flaw? (.mk form origin (ns ++ fallbackPart fallback))) t
      (clauses { arm, origin } (ns ++ fallbackPart fallback) >>= finishAlternatives) fun t' id =>
        Pending t' (S ++ [(roleOf arm, id)]) := by
  have hstart : Pending t (S ++ armSlots arm [] none) := by simpa [armSlots] using h
  rw [Node.flaw?]
  refine (settles_clauses hns hfallback hstart).bind ?_
  rintro t1 _ ⟨pairs, fallback', rfl, hlength, hsome, h1⟩
  have hforms : ∀ n ∈ ns, n.form = Form.whenClause := by
    intro n hn
    obtain ⟨o, condition, action, rfl, -⟩ := hns n hn
    rfl
  rw [lack?_alternatives hform hforms hlength hsome]
  exact settles_finishAlternatives h1

theorem pushes_of_flawAll? {parts : List Node} (hform : form.arm? = none) (h : ∀ t S, Pending t S → Settles
    (Node.flawAll? parts) t (node (.mk form origin parts)) fun t' id => Pending t' (S ++ [(role, id)])) :
    Pushes role (.mk form origin parts) := by
  intro t S hpending
  rw [Node.flaw?_eq_flawAll? hform]
  exact h t S hpending

theorem pushes_leaf (hform : form.arm? = none) (hnode : node (.mk form origin []) = alloc k origin)
    (hslots : k.slots = []) (hrole : role.accepts k = true) : Pushes role (.mk form origin []) := by
  refine pushes_of_flawAll? hform fun t S h => ?_
  rw [hnode, Node.flawAll?]
  exact settles_alloc (by rwa [hslots, append_nil]) hrole _

variable {value : Node}

theorem pushes_of_value {k : ElementId → Kind} (hform : form.arm? = none)
    (hnode : node (.mk form origin [value]) = node value >>= fun id => alloc (k id) origin)
    (hslots : ∀ id, (k id).slots = [(.expression, id)]) (hrole : ∀ id, role.accepts (k id) = true)
    (hvalue : Pushes .expression value) : Pushes role (.mk form origin [value]) := by
  refine pushes_of_flawAll? hform fun t S h => ?_
  rw [hnode, Node.flawAll?_singleton]
  refine (hvalue t S h).stored fun t1 id h1 => settles_alloc ?_ (hrole id) _
  rwa [hslots]

theorem Pushes.weaken (h : Pushes role n) (himp : ∀ k, role.accepts k = true → role'.accepts k = true) :
    Pushes role' n :=
  fun t S hpending => (h t S hpending).imp fun _ _ hid => hid.weaken himp

theorem Pushes.stated (h : Pushes .statement n) (hform : declaration? n.form = none) : Stated n := by
  intro t S hpending
  rw [asStatement, hform]
  exact (h t S hpending).stored fun t1 id h1 => settles_pure h1

theorem stated_of_declaration {x : String} {d : Declaration} (hform : declaration? form = some (x, d))
    (harm : form.arm? = none) (hwhole : Pushes .statement (.mk form origin [value]))
    (hvalue : Pushes .expression value) : Stated (.mk form origin [value]) := by
  intro t S hpending
  have hsingle : Settles (Node.flaw? (.mk form origin [value])) t
      (do return [← node (.mk form origin [value])]) fun t' ids =>
        Pending t' (S ++ ids.map (Role.statement, ·)) :=
    (hwhole t S hpending).stored fun t1 id h1 => settles_pure h1
  rw [asStatement, Node.form, hform]
  dsimp only [Node.parts, Node.origin, head?_cons, map_some, firstPart]
  split
  · contradiction
  · rw [Node.flaw?_eq_flawAll? harm, Node.flawAll?_singleton]
    have hnull : Pending t (S ++ (Kind.constant .null).slots) := by
      rwa [Kind.slots, append_nil]
    refine Settles.first (@settles_alloc _ _ .expression _ hnull rfl _) fun t1 null h1 => ?_
    refine Settles.first (@settles_alloc _ _ .statement _ h1 rfl _) fun t2 declared h2 => ?_
    refine (hvalue t2 _ h2).stored fun t3 value h3 => ?_
    refine Settles.first (@settles_alloc _ _ .statement _ h3 rfl _) fun t4 id h4 => settles_pure ?_
    simpa using h4
  · exact hsingle

theorem accepts_statement (h : Role.expression.accepts k = true) : Role.statement.accepts k = true := by
  rw [Role.accepts] at h
  rw [Role.accepts, h, Bool.or_true]

theorem pushes_returns (origin : Origin) {value : Option Node} (h : ∀ n ∈ value, Pushes .expression n) :
    Pushes .statement (.mk .returns origin value.toList) := by
  cases value with
  | none => exact pushes_leaf rfl rfl rfl rfl
  | some n => exact pushes_of_value rfl rfl (fun _ => rfl) (fun _ => rfl) (h n rfl)

theorem pushes_conditional (origin : Origin) {condition action : Node} {other : Option Node}
    (hrole : ∀ c a o, role.accepts (.conditional c a o) = true) (hcondition : Pushes .expression condition)
    (hfills : Fills .block action) (haction : Pushes .block action)
    (hother : ∀ n ∈ other, Fills .elseBranch n ∧ Pushes .elseBranch n) :
    Pushes role (.mk .conditional origin (condition :: action :: other.toList)) := by
  refine pushes_of_flawAll? rfl fun t S h => ?_
  cases other with
  | none =>
    rw [toList_none, node, asBlock_of_fills hfills, Node.flawAll?, Node.flawAll?_singleton]
    refine (hcondition t S h).bind fun t1 c h1 => ?_
    refine (haction t1 _ h1).stored fun t2 a h2 => settles_alloc ?_ (hrole ..) _
    simpa [Kind.slots] using h2
  | some n =>
    obtain ⟨hbranch, hn⟩ := hother n rfl
    rw [toList_some, node, asBlock_of_fills hfills, asElse_of_fills hbranch, Node.flawAll?,
      Node.flawAll?, Node.flawAll?_singleton]
    refine (hcondition t S h).bind fun t1 c h1 => ?_
    refine (haction t1 _ h1).bind fun t2 a h2 => ?_
    refine (hn t2 _ h2).stored fun t3 o h3 => settles_alloc ?_ (hrole ..) _
    simpa [Kind.slots] using h3

theorem pushes_pair {left right : Node} {first second : Role} {k : ElementId → ElementId → Kind}
    (hform : form.arm? = none) (hnode : node (.mk form origin [left, right]) = node left >>= fun l => node
    right >>= fun r => alloc (k l r) origin) (hslots : ∀ l r, (k l r).slots = [(first, l), (second, r)])
    (hrole : ∀ l r, role.accepts (k l r) = true) (hleft : Pushes first left) (hright : Pushes second right) :
    Pushes role (.mk form origin [left, right]) := by
  refine pushes_of_flawAll? hform fun t S h => ?_
  rw [hnode, Node.flawAll?, Node.flawAll?_singleton]
  refine (hleft t S h).bind fun t1 l h1 => ?_
  refine (hright t1 _ h1).stored fun t2 r h2 => settles_alloc ?_ (hrole ..) _
  rw [hslots]
  simpa using h2

theorem pushes_closure (hrole : role = .block ∨ role = .expression) (hfills : Fills role body)
    (hbody : Pushes role body) : Pushes .expression (.mk (.closure params) origin [body]) := by
  refine pushes_of_flawAll? rfl fun t S h => ?_
  rw [node, Node.flawAll?_singleton]
  refine Settles.first settles_closureName fun t1 name heq => ?_
  subst heq
  exact (settles_asFunction hrole hfills hbody h).stored fun t2 id h2 => settles_alloc h2 rfl _

theorem progress_of_fills (h : Fills role n) : Progress role n := by
  induction h with
  | function _ hbody =>
    refine pushes_of_flawAll? rfl fun t S h => ?_
    rw [node, Node.flawAll?_singleton]
    exact settles_asFunction (.inl rfl) ‹_› hbody h
  | block _ hstatements =>
    refine pushes_of_flawAll? rfl fun t S h => ?_
    rw [node]
    exact (settles_statements (fun n hn => (hstatements n hn).2.1) h).stored fun t1 ids h1 =>
      settles_alloc h1 rfl _
  | @letDecl o x value _ hvalue =>
    have hwhole : Pushes .statement (.mk (.letDecl x) o [value]) :=
      pushes_of_value rfl rfl (fun _ => rfl) (fun _ => rfl) hvalue
    exact ⟨hwhole, stated_of_declaration rfl rfl hwhole hvalue, nofun⟩
  | @varDecl o x value _ hvalue =>
    have hwhole : Pushes .statement (.mk (.varDecl x) o [value]) :=
      pushes_of_value rfl rfl (fun _ => rfl) (fun _ => rfl) hvalue
    exact ⟨hwhole, stated_of_declaration rfl rfl hwhole hvalue, nofun⟩
  | @assign o x value _ hvalue =>
    have hwhole : Pushes .statement (.mk (.assign x) o [value]) :=
      pushes_of_value rfl rfl (fun _ => rfl) (fun _ => rfl) hvalue
    exact ⟨hwhole, hwhole.stated rfl, nofun⟩
  | @returns o value _ hvalue =>
    have hwhole := pushes_returns o hvalue
    exact ⟨hwhole, hwhole.stated rfl, nofun⟩
  | @conditional o _ _ _ _ hfills hother hcondition haction hbranch =>
    have hparts := fun n hn => And.intro (hother n hn) (hbranch n hn)
    have hwhole := @pushes_conditional .statement o _ _ _ (fun _ _ _ => rfl) hcondition hfills haction hparts
    exact ⟨hwhole, hwhole.stated rfl, fun _ =>
      pushes_conditional o (fun _ _ _ => rfl) hcondition hfills haction hparts⟩
  | @loop o condition body _ hfills hcondition hbody =>
    have hnode : node (.mk .loop o [condition, body]) =
        node condition >>= fun c => node body >>= fun a => alloc (.loop c a) o := by
      rw [node, asBlock_of_fills hfills]
    have hwhole : Pushes .statement (.mk .loop o [condition, body]) :=
      pushes_pair rfl hnode (fun _ _ => rfl) (fun _ _ => rfl) hcondition hbody
    exact ⟨hwhole, hwhole.stated rfl, nofun⟩
  | @caseOf o clauses fallback _ hfills hclauses hfallback =>
    have hwhole : Pushes .statement (.mk .caseOf o (clauses ++ fallbackPart fallback)) := fun t S h => by
      rw [node]
      exact settles_alternatives rfl hclauses (fun p hp => ⟨hfills p hp, hfallback p hp⟩) h
    exact ⟨hwhole, hwhole.stated rfl, nofun⟩
  | matchOf _ hfills hclauses hfallback =>
    intro t S h
    rw [node]
    exact settles_alternatives rfl hclauses (fun p hp => ⟨hfills p hp, hfallback p hp⟩) h
  | @whenClause o arm condition action _ hfills hcondition haction =>
    refine ⟨o, condition, action, rfl, hcondition, hfills, ?_⟩
    cases arm <;> exact haction
  | elseBlock _ hblock => exact hblock.weaken (by rintro (_ | _) h <;> first | exact h | cases h)
  | elseIf hform _ hstatement => exact hstatement.2.2 hform
  | expression hfills hvalue =>
    have hwhole := hvalue.weaken fun _ => accepts_statement
    have hform := form_of_fills_expression hfills
    refine ⟨hwhole, hwhole.stated (declaration?_of_isExpression hform), fun hconditional => ?_⟩
    rw [hconditional] at hform
    cases hform
  | @binary o symbol left right hsymbol _ _ hleft hright =>
    obtain ⟨operator, hoperator⟩ := isSome_iff_exists.mp hsymbol
    have hnode : node (.mk (.binary symbol) o [left, right]) =
        node left >>= fun l => node right >>= fun r => alloc (.binary operator l r) o := by
      rw [node.eq_def (.mk (.binary symbol) o [left, right])]
      simp only [hoperator]
    exact pushes_pair rfl hnode (fun _ _ => rfl) (fun _ _ => rfl) hleft hright
  | @unary o symbol operand hsymbol _ hoperand =>
    obtain ⟨operator, hoperator⟩ := isSome_iff_exists.mp hsymbol
    have hnode : node (.mk (.unary symbol) o [operand]) =
        node operand >>= fun id => alloc (.unary operator id) o := by
      rw [node.eq_def (.mk (.unary symbol) o [operand])]
      simp only [hoperator]
    exact pushes_of_value rfl hnode (fun _ => rfl) (fun _ => rfl) hoperand
  | call _ harguments =>
    refine pushes_of_flawAll? rfl fun t S h => ?_
    rw [node]
    exact (settles_nodes harguments h).stored fun t1 ids h1 => settles_alloc h1 rfl _
  | closure hrole hfills hbody =>
    rcases hrole with rfl | rfl
    · exact pushes_closure (.inl rfl) hfills hbody
    · exact pushes_closure (.inr rfl) hfills hbody
  | identifier | integer | float | string | boolean | null => exact pushes_leaf rfl rfl rfl rfl

/-! ### Units -/

theorem change_apply (f : Tree → Except Fault Tree) (b : Builder) :
    change f b = match f b.tree with
      | .ok tree => .ok () { b with tree }
      | .error fault => .error (.rejected fault) b := by
  have hget : (MonadState.get : Lower Builder) b = .ok b b := rfl
  rw [change, bind_apply, hget]
  dsimp only
  cases f b.tree <;> rfl

theorem settles_change {f : Tree → Except Fault Tree} {t' : Tree} (h : f t = .ok t') :
    Settles none t (change f) fun t'' _ => t'' = t' := by
  rintro b rfl
  rw [change_apply, h]
  exact ⟨(), _, rfl, rfl⟩

theorem exists_setRoot {e : Element} (howned : t.Owned) (he : t.element? id = some e)
    (hparent : e.parent = none) : ∃ t', t.setRoot id = .ok t' ∧ t'.validate = .ok ⟨⟩ := by
  have hset : t.setRoot id = Except.ok { t with root := some id } := by
    unfold setRoot
    rw [get_eq_ok_iff.mpr he]
    simp only [bind, Except.bind, hparent]
    rfl
  exact ⟨_, hset, (howned.setRoot hset).validate_eq_ok⟩

theorem settles_unit {u : Ast.CompilationUnit} (hu : ∀ n ∈ u.functions, Fills .function n) :
    Settles (Node.flawAll? u.functions) t (unit u) fun _ _ => True := by
  have hreset : Settles none t (modify fun b => { b with tree := .empty u.file, names := {} })
      fun t' _ => Pending t' [] := by
    rintro b rfl
    exact ⟨(), _, rfl, empty_owned u.file, nofun, nodup_nil⟩
  have hfunctions : ∀ n ∈ u.functions, Pushes .function n := fun n hn => progress_of_fills (hu n hn)
  unfold unit
  refine hreset.first fun t1 _ h1 => ?_
  refine (settles_nodes hfunctions h1).stored fun t2 ids h2 => ?_
  have hadoptable : t2.Adoptable (Kind.module u.name ids).slots := h2.adoptable
  refine (settles_adopt hadoptable _).first ?_
  rintro _ _ ⟨rfl, rfl⟩
  obtain ⟨t3, hset, hvalid⟩ := exists_setRoot (h2.owned.adopt hadoptable ⟨u.location, none⟩)
    (element?_adopt .. |>.trans (if_pos rfl)) rfl
  refine (settles_change hset).first fun t4 _ heq => ?_
  subst heq
  have hkept : (do t4.validate; return t4 : Except Fault Tree) = Except.ok t4 := by
    rw [hvalid]
    rfl
  refine (settles_change hkept).first fun t5 _ _ => ?_
  intro b _
  exact ⟨_, _, rfl, trivial⟩

end Lower

theorem Tree.ofUnit_eq {u : Ast.CompilationUnit} (hu : ∀ n ∈ u.functions, Fills .function n) :
    match Node.flawAll? u.functions with
    | none => ∃ t, ofUnit u = .ok t
    | some e => ofUnit u = .error e := by
  have hunit := Lower.settles_unit hu {} rfl
  unfold ofUnit
  cases hflaw : Node.flawAll? u.functions with
  | none =>
    rw [hflaw] at hunit
    obtain ⟨t, b, hok, -⟩ := hunit
    exact ⟨t, by rw [hok]⟩
  | some e =>
    rw [hflaw] at hunit
    obtain ⟨b, herror⟩ := hunit
    rw [herror]

/-! ### Parsed files -/

/-- A file that is parsed cannot be lowered exactly if a case or a match somewhere in it has no clause or no
fallback, and the error is what such a node lacks: there is no other one. -/
theorem ofUnit_error_of_parse {source : SourceFile} {unit : Ast.CompilationUnit}
    (h : Ast.parse source = .ok unit) :
    ((∃ e, Tree.ofUnit unit = .error e) ↔ ∃ n ∈ Node.preorderAll unit.functions, n.Incomplete) ∧
      ∀ e, Tree.ofUnit unit = .error e → ∃ n ∈ Node.preorderAll unit.functions, n.lack? = some e := by
  have hunit := Tree.ofUnit_eq (Ast.fills_of_parse h)
  rw [Node.preorderAll_eq_flatMap]
  cases hflaw : Node.flawAll? unit.functions with
  | none =>
    rw [hflaw] at hunit
    obtain ⟨t, hok⟩ := hunit
    have hcomplete : ∀ n ∈ unit.functions.flatMap Node.preorder, n.lack? = none := by
      rw [Node.flawAll?_eq_findSome?, List.findSome?_eq_none_iff] at hflaw
      intro n hn
      obtain ⟨m, hm, hn⟩ := List.mem_flatMap.mp hn
      exact Node.lack?_of_flaw?_eq_none (hflaw m hm) n hn
    refine ⟨⟨?_, ?_⟩, fun e he => ?_⟩
    · rintro ⟨e, he⟩
      rw [hok] at he
      cases he
    · rintro ⟨n, hn, hincomplete⟩
      obtain ⟨e, he⟩ := Node.incomplete_iff.mp hincomplete
      rw [hcomplete n hn] at he
      cases he
    · rw [hok] at he
      cases he
  | some e =>
    rw [hflaw] at hunit
    obtain ⟨m, hm, hflaw⟩ := List.exists_of_findSome?_eq_some (Node.flawAll?_eq_findSome? _ ▸ hflaw)
    obtain ⟨n, hn, hlack⟩ := Node.exists_lack_of_flaw? hflaw
    have hmem : n ∈ unit.functions.flatMap Node.preorder := List.mem_flatMap.mpr ⟨m, hm, hn⟩
    refine ⟨⟨fun _ => ⟨n, hmem, Node.incomplete_iff.mpr ⟨e, hlack⟩⟩, fun _ => ⟨e, hunit⟩⟩, ?_⟩
    intro e' he'
    rw [hunit] at he'
    cases he'
    exact ⟨n, hmem, hlack⟩

/-- A closure in an argument has a match that has no clause, in a case that has no fallback. -/
def unfinished : SourceFile :=
  ⟨"unfinished", "unfinished",
    "module m function f=|a|{case{when a{print(|b| -> match{otherwise 1})}} return -a}"⟩

theorem unfinished_incomplete :
    (match Ast.parse unfinished with
      | .ok unit => decide ((Node.preorderAll unit.functions).filterMap (fun n =>
        n.lack?.map fun e => (n.form.text, e.report.message)) =
        [("Case", "Case statement has no 'otherwise' branch."),
          ("Match", "Match expression has no 'when' clauses.")])
      | .error _ => false) = true := by
  decide +kernel

theorem unfinished_unbuilt :
    ∃ unit e, Ast.parse unfinished = .ok unit ∧ Tree.ofUnit unit = .error e ∧
      ∃ n ∈ Node.preorderAll unit.functions, n.lack? = some e := by
  have htest := unfinished_incomplete
  split at htest
  · rename_i unit hparse
    obtain ⟨n, hn, hlack⟩ := List.mem_filterMap.mp
      (of_decide_eq_true htest ▸ List.mem_cons_self .. : ("Case", _) ∈ List.filterMap _ _)
    obtain ⟨e, he, -⟩ := Option.map_eq_some_iff.mp hlack
    obtain ⟨hiff, herror⟩ := ofUnit_error_of_parse hparse
    obtain ⟨e', he'⟩ := hiff.mpr ⟨n, hn, Node.incomplete_iff.mpr ⟨e, he⟩⟩
    exact ⟨unit, e', hparse, he', herror e' he'⟩
  · cases htest

end Clausal
