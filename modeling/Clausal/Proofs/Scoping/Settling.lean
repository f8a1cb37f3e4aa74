import Clausal.Proofs.Scoping.Captures
import Clausal.Proofs.Scoping.Settled
import Clausal.Proofs.Scoping.Visits

/-! # Settling names

Closure capture and name resolution as walkers: which mark each kind of element gets, and in which state
its children are visited.  Both put on each element, in the end, what they know when they leave it
(`Capture.marked_eq_settle`, `Resolution.marked_eq_settle`). -/

namespace Clausal

open Unfolding

theorem Unfolding.Fits.module_or_inner {u : Unfolding} (h : u.Fits) :
    (∃ name ids, u.kind = .module name ids) ∨ u.Inner := by
  obtain ⟨i, k, o, us⟩ := u
  cases k with
  | module name ids => exact .inl ⟨name, ids, rfl⟩
  | function => exact .inr ⟨h, .function, rfl⟩
  | whenClause c a arm => exact .inr ⟨h, .clause arm, by simp [kind, Role.accepts]⟩
  | _ => exact .inr ⟨h, .statement, rfl⟩

/-! ### Name resolution -/

namespace Resolution

def declared? (r : Resolution) (x : String) (d : Declaration) : Option Binding :=
  r.frames.head?.bind fun top => (top.declare .local (d = .constant) x).2.toOption

def assigned? (r : Resolution) (x : String) (initializer : Bool) : Option Binding :=
  (r.lookup x).bind fun s =>
    if s.binding.kind = .captured || s.constant && !initializer then none else some s.binding

def called? (r : Resolution) (x : String) : Option CallTarget :=
  match r.lookup x with
  | some s => some (.slot s.binding)
  | none =>
    if r.functions.contains x then some .module
    else if builtins.contains x then some .builtin
    else none

def sources (r : Resolution) (names : List String) : List Binding :=
  names.filterMap fun x => (r.lookup x).map Symbol.binding

def walker : Walker Resolution where
  visit := visit
  log := marks
  enter r u := match u with
    | .node _ (.module _ _) o us => (r.enterFunctions us).checkMain o
    | .node _ (.function name params _ _ captures) o _ => r.enter o name captures params
    | .node _ (.block _) _ _ => r.openScope
    | .node i (.closure _ _) o us => r.capture i o (capturesOf us)
    | _ => r
  own r r1 u := match u with
    | .node _ (.assignment x (some d) _ _ _) _ _ => (r1.declared? x d).map .binding
    | .node _ (.assignment x none _ _ initializer) _ _ => (r1.assigned? x initializer).map .binding
    | .node _ (.reference x _) _ _ => (r.lookup x).map fun s => .binding s.binding
    | .node _ (.invocation x _ _) _ _ => (r1.called? x).map .target
    | .node _ (.closure _ _) _ us => some (.closureBindings (r.sources (capturesOf us)))
    | _ => none

section marks
variable (r : Resolution) {i : ElementId} {o : Origin} {x : String} {q : ElementId × Mark}

theorem marks_declareLocal_iff {d : Declaration} :
    q ∈ (r.declareLocal i o x d).marks ↔
      q ∈ r.marks ∨ q.1 = i ∧ (r.declared? x d).map Mark.binding = some q.2 := by
  unfold declareLocal declared?
  cases hf : r.frames with
  | nil => simp
  | cons top outer =>
    obtain ⟨j, a⟩ := q
    simp only [List.head?_cons, Option.bind_some]
    generalize top.declare .local (d = .constant) x = result
    obtain ⟨top', b | b⟩ := result
    · simp [Except.toOption]
    · rw [mem_marks_bind]
      have hmarks : ({ r with frames := top' :: outer } : Resolution).marks = r.marks := rfl
      rw [hmarks]
      simp [Except.toOption, eq_comm]

theorem marks_assign_iff {initializer : Bool} :
    q ∈ (r.assign i o x initializer).marks ↔
      q ∈ r.marks ∨ q.1 = i ∧ (r.assigned? x initializer).map Mark.binding = some q.2 := by
  obtain ⟨j, a⟩ := q
  unfold assign assigned?
  cases r.lookup x with
  | none => simp
  | some s =>
    rw [Option.bind_some]
    by_cases hcaptured : s.binding.kind = .captured
    · simp [hcaptured]
    · by_cases hconstant : (s.constant && !initializer) = true
      · simp [hcaptured, hconstant]
      · simp [hcaptured, hconstant, mem_marks_bind, eq_comm]

theorem marks_refer_iff :
    q ∈ (r.refer i o x).marks ↔
      q ∈ r.marks ∨ q.1 = i ∧ ((r.lookup x).map fun s => Mark.binding s.binding) = some q.2 := by
  obtain ⟨j, a⟩ := q
  unfold refer
  cases r.lookup x with
  | none => simp
  | some s => simp [mem_marks_bind, eq_comm]

theorem marks_call_iff {given : Nat} :
    q ∈ (r.call i o x given).marks ↔ q ∈ r.marks ∨ q.1 = i ∧ (r.called? x).map Mark.target = some q.2 := by
  obtain ⟨j, a⟩ := q
  unfold call called?
  cases r.lookup x with
  | some s => simp [mem_marks_target, eq_comm]
  | none =>
    rw [Std.HashMap.contains_eq_isSome_getElem?]
    cases r.functions[x]? with
    | some expected =>
      simp only [Option.isSome_some, if_true, mem_marks_target]
      split_ifs <;> simp [eq_comm]
    | none =>
      simp only [Option.isSome_none]
      by_cases hb : x ∈ builtins
      · simp [hb, mem_marks_target, eq_comm]
      · simp [hb]

end marks

theorem logs_fits : Logs Unfolding.Fits visit marks := by
  refine ⟨fun {u} hu r q hq => ?_, fun {u} _ r q hq => (visit_marks u r q hq).imp_right (·.mem_ids)⟩
  rcases hu.module_or_inner with ⟨name, ids, hmodule⟩ | hinner
  · obtain ⟨i, k, o, us⟩ := u
    obtain rfl : k = .module name ids := hmodule
    rw [visit]
    refine (later_visitAll hu.inner _).marks q ?_
    rwa [marks_checkMain, marks_enterFunctions]
  · exact (later_visit hinner r).marks q hq

theorem walker_below (r : Resolution) (u : Unfolding) :
    walker.below r u = visitAll (walker.enter r u) u.children := (visitAll_eq_foldl _ _).symm

variable {u : Unfolding}

theorem mem_marks_visit_iff (hu : u.Fits) (r : Resolution) (q : ElementId × Mark) :
    q ∈ (visit r u).marks ↔ q ∈ (walker.below r u).marks ∨
      (∀ f bound, u.kind ≠ .closure f bound) ∧ q.1 = u.id ∧ walker.own r (walker.below r u) u = some q.2 := by
  rw [walker_below]
  obtain ⟨i, k, o, us⟩ := u
  cases k with
  | assignment x d value b initializer =>
    cases d with
    | some d =>
      rw [visit, marks_declareLocal_iff]
      exact or_congr_right ⟨fun h => ⟨by simp [kind], h⟩, fun h => h.2⟩
    | none =>
      rw [visit, marks_assign_iff]
      exact or_congr_right ⟨fun h => ⟨by simp [kind], h⟩, fun h => h.2⟩
  | reference x b =>
    obtain rfl := hu.none rfl
    rw [visit, marks_refer_iff]
    exact or_congr_right ⟨fun h => ⟨by simp [kind], h⟩, fun h => h.2⟩
  | invocation x arguments target =>
    rw [visit, marks_call_iff]
    exact or_congr_right ⟨fun h => ⟨by simp [kind], h⟩, fun h => h.2⟩
  | closure f bound =>
    simp only [visit]
    exact ⟨.inl, fun h => h.resolve_right fun h => h.1 f bound rfl⟩
  | function name params b lifted captures =>
    simp only [visit, marks_leave]
    exact ⟨.inl, fun h => h.resolve_right fun h => by cases h.2.2⟩
  | block ids =>
    simp only [visit, closeScope, marks_modifyTop]
    exact ⟨.inl, fun h => h.resolve_right fun h => by cases h.2.2⟩
  | _ =>
    simp only [visit]
    exact ⟨.inl, fun h => h.resolve_right fun h => by cases h.2.2⟩

theorem mem_marks_enter_iff (r : Resolution) (u : Unfolding) (q : ElementId × Mark) :
    q ∈ (walker.enter r u).marks ↔ q ∈ r.marks ∨
      (∃ f bound, u.kind = .closure f bound) ∧ q.1 = u.id ∧ walker.own r (walker.below r u) u = some q.2 := by
  obtain ⟨i, k, o, us⟩ := u
  cases k with
  | closure f bound =>
    obtain ⟨j, a⟩ := q
    simp [walker, kind, Unfolding.id, mem_marks_capture, sources, eq_comm]
  | _ => simp [walker, kind, openScope]

theorem walker_lawful : walker.Lawful Unfolding.Fits := by
  refine ⟨logs_fits, fun hu => hu.child, fun {u} _ r q hq => ?_, fun {u} hu r q hq => ?_,
    fun {u} hu r q hq => (mem_marks_visit_iff hu r q).mpr (.inl hq), fun {u} hu r a ha => ?_⟩
  · exact ((mem_marks_enter_iff r u q).mp hq).imp_right And.right
  · exact ((mem_marks_visit_iff hu r q).mp hq).imp_right And.right
  · by_cases hk : ∃ f bound, u.kind = .closure f bound
    · have hchild : ∀ v ∈ u.children, v.Fits := by
        cases u
        exact hu.child
      refine (mem_marks_visit_iff hu r _).mpr (.inl (logs_fits.keeps_foldl hchild _ _ ?_))
      exact (mem_marks_enter_iff r u _).mpr (.inr ⟨hk, rfl, ha⟩)
    · exact (mem_marks_visit_iff hu r _).mpr (.inr ⟨fun f bound h => hk ⟨f, bound, h⟩, rfl, ha⟩)

theorem marked_eq_settle (hu : u.Fits) (hnodup : u.ids.Nodup) :
    u.marked (visit {} u).marks = walker.settle {} u :=
  walker_lawful.marked_eq_settle hu hnodup ⟨by simp [walker, marks], fun _ hq => hq, fun _ hq _ => hq⟩

end Resolution

/-! ### Closure capture -/

namespace Capture

/-- The names that a function captures, once its body has been visited. -/
def captured? (c : Capture) : Option (List String) :=
  match c.frames with
  | [] => none
  | top :: outer => some (top.free.filter fun x => outer.any (·.declares x))

def walker : Walker Capture where
  visit := visit
  log := marks
  enter c u := match u with
    | .node _ (.function _ params _ _ _) _ _ => c.enter params
    | .node _ (.block _) _ _ => c.openScope
    | .node _ (.invocation x _ _) _ _ => c.useCallee x
    | _ => c
  own _ c1 u := match u with
    | .node _ (.function _ _ _ true _) _ _ => c1.captured?.map .captures
    | _ => none

theorem marks_leave_iff (c : Capture) {j : ElementId} {lifted : Bool} {q : ElementId × Mark} :
    q ∈ (c.leave j lifted).marks ↔
      q ∈ c.marks ∨ lifted = true ∧ q.1 = j ∧ c.captured?.map Mark.captures = some q.2 := by
  obtain ⟨i, a⟩ := q
  unfold leave captured?
  cases c.frames with
  | nil => simp
  | cons top outer =>
    cases lifted with
    | false => simp [marks]
    | true => simp [marks, results_foldl_use, eq_comm]

theorem walker_below (c : Capture) (u : Unfolding) :
    walker.below c u = visitAll (walker.enter c u) u.children := (visitAll_eq_foldl _ _).symm

variable {u : Unfolding}

theorem mem_marks_visit_iff (hu : u.Fits) (c : Capture) (q : ElementId × Mark) :
    q ∈ (visit c u).marks ↔ q ∈ (walker.below c u).marks ∨
      q.1 = u.id ∧ walker.own c (walker.below c u) u = some q.2 := by
  rw [walker_below]
  obtain ⟨i, k, o, us⟩ := u
  cases k with
  | function name params b lifted captures =>
    rw [visit, marks_leave_iff]
    cases lifted with
    | false => simp [walker, children]
    | true => simp [walker, children, Unfolding.id]
  | assignment x d value b initializer =>
    cases d <;> simp [visit, walker, children, marks]
  | block ids => simp [visit, walker, children, marks, closeScope]
  | reference x b =>
    obtain rfl := hu.none rfl
    simp [visit, visitAll, walker, children, marks]
  | _ => simp [visit, walker, children]

theorem marks_walker_enter (c : Capture) (u : Unfolding) : (walker.enter c u).marks = c.marks := by
  obtain ⟨i, k, o, us⟩ := u
  cases k <;> simp [walker, marks, enter, openScope]

theorem walker_lawful : walker.Lawful Unfolding.Fits := by
  refine ⟨⟨fun _ => logs.keeps trivial, fun _ => logs.adds trivial⟩, fun hu => hu.child,
    fun {u} _ c q hq => .inl ?_, fun {u} hu c q hq => (mem_marks_visit_iff hu c q).mp hq,
    fun {u} hu c q hq => (mem_marks_visit_iff hu c q).mpr (.inl hq), fun {u} hu c a ha => ?_⟩
  · have hmarks : (walker.enter c u).marks = c.marks := marks_walker_enter c u
    have hlog : q ∈ (walker.enter c u).marks := hq
    rwa [hmarks] at hlog
  · exact (mem_marks_visit_iff hu c _).mpr (.inr ⟨rfl, ha⟩)

theorem marked_eq_settle (hu : u.Fits) (hnodup : u.ids.Nodup) :
    u.marked (visit {} u).marks = walker.settle {} u :=
  walker_lawful.marked_eq_settle hu hnodup ⟨by simp [walker, marks], fun _ hq => hq, fun _ hq _ => hq⟩

end Capture

end Clausal
