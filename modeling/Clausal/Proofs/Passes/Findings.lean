import Clausal.Proofs.Passes.Upkeep
import Clausal.Proofs.Tree.Marking

/-! # What is found can be written down

Closure capture and name resolution first walk the unfolding of a tree and then write down what they found.
Each finding is a mark for an element that the walk has met, of a kind that takes it (`Capture.visit_results`,
`Resolution.visit_marks`). -/

namespace Clausal

open List Unfolding Edit

variable {i : ElementId} {k : Kind} {o : Origin} {us : List Unfolding} {u : Unfolding}

theorem Unfolding.Takes.child {p : ElementId × Mark} (h : u.Takes p) (hu : u ∈ us) :
    (node i k o us).Takes p := by
  obtain ⟨k', hk', hsome⟩ := h
  refine ⟨k', ?_, hsome⟩
  rw [preorder_node]
  exact .tail _ (mem_flatMap.mpr ⟨u, hu, hk'⟩)

theorem Unfolding.takes_node {a : Mark} (h : (a.change k).isSome = true) : (node i k o us).Takes (i, a) := by
  refine ⟨k, ?_, h⟩
  rw [preorder_node]
  exact .head _

/-- The function of a closure is among the elements of an unfolding. -/
def Unfolding.Lifts (u : Unfolding) (x : ElementId) : Prop :=
  ∃ name params body captures, (x, Kind.function name params body true captures) ∈ u.preorder

theorem Unfolding.Lifts.child {x : ElementId} (h : u.Lifts x) (hu : u ∈ us) : (node i k o us).Lifts x := by
  obtain ⟨name, params, body, captures, hmem⟩ := h
  refine ⟨name, params, body, captures, ?_⟩
  rw [preorder_node]
  exact .tail _ (mem_flatMap.mpr ⟨u, hu, hmem⟩)

/-! ### Closure capture -/

namespace Capture

variable (c : Capture)

@[simp] theorem results_modifyTop (f : CaptureFrame → CaptureFrame) :
    (c.modifyTop f).results = c.results := by
  unfold modifyTop
  cases c.frames <;> rfl

@[simp] theorem results_use (name : String) : (c.use name).results = c.results :=
  c.results_modifyTop _

@[simp] theorem results_useCallee (name : String) : (c.useCallee name).results = c.results := by
  unfold useCallee
  cases c.frames with
  | nil => rfl
  | cons top outer => dsimp only; split_ifs <;> simp

theorem results_foldl_use (names : List String) : (names.foldl use c).results = c.results := by
  induction names generalizing c with
  | nil => rfl
  | cons name names ih => rw [foldl_cons, ih, results_use]

variable {p : ElementId × List String}

theorem mem_results_leave {function : ElementId} {isClosure : Bool}
    (h : p ∈ (c.leave function isClosure).results.toList) :
    p ∈ c.results.toList ∨ p.1 = function ∧ isClosure = true := by
  unfold leave at h
  cases hf : c.frames with
  | nil =>
    rw [hf] at h
    exact .inl h
  | cons top outer =>
    rw [hf] at h
    cases isClosure with
    | false => exact .inl h
    | true =>
      simp only [if_true, Array.toList_push, mem_append, mem_singleton, results_foldl_use] at h
      rcases h with h | rfl
      · exact .inl h
      · exact .inr ⟨rfl, rfl⟩

theorem visitAll_eq_foldl (us : List Unfolding) (c : Capture) : visitAll c us = us.foldl visit c := by
  induction us generalizing c with
  | nil => rw [visitAll, foldl_nil]
  | cons u us ih => rw [visitAll, ih, foldl_cons]

theorem visit_results (u : Unfolding) (c : Capture) :
    ∀ p ∈ (visit c u).results.toList, p ∈ c.results.toList ∨ u.Lifts p.1 := by
  induction u generalizing c with
  | node i k o us ih =>
    intro p hp
    have hall (c : Capture) (hp : p ∈ (visitAll c us).results.toList) :
        p ∈ c.results.toList ∨ (Unfolding.node i k o us).Lifts p.1 := by
      rw [visitAll_eq_foldl] at hp
      rcases mem_or_exists_of_foldl (·.results.toList) (fun u hu c => ih u hu c p) hp with hp | ⟨u, hu, ht⟩
      · exact .inl hp
      · exact .inr (ht.child hu)
    cases k with
    | function name params body isClosure captures =>
      rw [visit] at hp
      rcases mem_results_leave _ hp with hp | ⟨heq, rfl⟩
      · exact hall (c.enter params) hp
      · refine .inr ⟨name, params, body, captures, ?_⟩
        rw [heq, Unfolding.preorder_node]
        exact .head _
    | block ids =>
      simp only [visit, closeScope, results_modifyTop] at hp
      have := hall _ hp
      simpa [openScope] using this
    | assignment name d x b f =>
      cases d <;> simp only [visit, results_modifyTop, results_use] at hp <;> exact hall c hp
    | reference name b =>
      simp only [visit, results_use] at hp
      exact .inl hp
    | invocation name arguments target =>
      simp only [visit] at hp
      have := hall _ hp
      simpa using this
    | _ =>
      simp only [visit] at hp
      exact hall c hp

end Capture

/-! ### Name resolution -/

namespace Resolution

variable (r : Resolution)

theorem marks_of_eq {r r' : Resolution} (hb : r'.bindings = r.bindings)
    (ht : r'.targets = r.targets) (hc : r'.closures = r.closures) : r'.marks = r.marks := by
  unfold marks
  rw [hb, ht, hc]

@[simp] theorem marks_complain (o : Origin) (problem : Problem) :
    (r.complain o problem).marks = r.marks :=
  marks_of_eq rfl rfl rfl

theorem marks_foldl_complain {α : Type} (o : Origin) (f : α → Problem) (as : List α) :
    (as.foldl (fun r x => r.complain o (f x)) r).marks = r.marks := by
  induction as generalizing r with
  | nil => rfl
  | cons x as ih => rw [foldl_cons, ih, marks_complain]

@[simp] theorem marks_modifyTop (f : Frame → Frame) : (r.modifyTop f).marks = r.marks := by
  unfold modifyTop
  cases r.frames <;> rfl

@[simp] theorem marks_leave : r.leave.marks = r.marks := rfl

@[simp] theorem marks_enter (o : Origin) (function : String) (captures params : List String) :
    (r.enter o function captures params).marks = r.marks :=
  marks_foldl_complain _ o (fun p => p) _

@[simp] theorem marks_enterFunctions (us : List Unfolding) : (r.enterFunctions us).marks = r.marks := by
  induction us generalizing r with
  | nil => rfl
  | cons u us ih =>
    obtain ⟨i, k, o, vs⟩ := u
    cases k <;> simp only [enterFunctions, ih]
    split_ifs <;> rfl

@[simp] theorem marks_checkMain (o : Origin) : (r.checkMain o).marks = r.marks := by
  unfold checkMain
  split_ifs <;> simp

variable {id : ElementId} {q : ElementId × Mark} {name : String}

theorem mem_marks_bind {b : Binding} : q ∈ (r.bind id b).marks ↔ q ∈ r.marks ∨ q = (id, .binding b) := by
  simp only [marks, bind, Array.toList_push, map_append, mem_append, map_cons,
    map_nil, mem_singleton]
  tauto

theorem mem_marks_target {c : CallTarget} :
    q ∈ (r.target id c).marks ↔ q ∈ r.marks ∨ q = (id, .target c) := by
  simp only [marks, target, Array.toList_push, map_append, mem_append, map_cons,
    map_nil, mem_singleton]
  tauto

variable {o : Origin}

theorem mem_marks_capture {names : List String} :
    q ∈ (r.capture id o names).marks ↔ q ∈ r.marks ∨
      q = (id, .closureBindings (names.filterMap fun name => (r.lookup name).map Symbol.binding)) := by
  unfold capture
  generalize names.filterMap _ = bound
  generalize names.filter _ = missing
  rw [← marks_foldl_complain r o Problem.captureOutOfScope missing]
  simp only [marks, Array.toList_push, map_append, mem_append, map_cons,
    map_nil, mem_singleton]
  tauto

theorem mem_marks_declareLocal {d : Declaration} (h : q ∈ (r.declareLocal id o name d).marks) :
    q ∈ r.marks ∨ ∃ b, q = (id, .binding b) := by
  unfold declareLocal at h
  split at h
  · exact .inl (by simpa using h)
  · split at h
    · exact ((mem_marks_bind _).mp h).imp_right fun heq => ⟨_, heq⟩
    · exact .inl (by simpa using h)

theorem mem_marks_assign {initializer : Bool} (h : q ∈ (r.assign id o name initializer).marks) :
    q ∈ r.marks ∨ ∃ b, q = (id, .binding b) := by
  unfold assign at h
  split at h
  · exact .inl (by simpa using h)
  · split_ifs at h
    · exact .inl (by simpa using h)
    · exact .inl (by simpa using h)
    · exact ((mem_marks_bind _).mp h).imp_right fun heq => ⟨_, heq⟩

theorem mem_marks_refer (h : q ∈ (r.refer id o name).marks) : q ∈ r.marks ∨ ∃ b, q = (id, .binding b) := by
  unfold refer at h
  split at h
  · exact ((mem_marks_bind _).mp h).imp_right fun heq => ⟨_, heq⟩
  · exact .inl (by simpa using h)

theorem mem_marks_call {given : Nat} (h : q ∈ (r.call id o name given).marks) :
    q ∈ r.marks ∨ ∃ c, q = (id, .target c) := by
  unfold call at h
  split at h
  · exact ((mem_marks_target _).mp h).imp_right fun heq => ⟨_, heq⟩
  · split at h
    · rw [mem_marks_target] at h
      rcases h with h | rfl
      · split_ifs at h
        · exact .inl h
        · exact .inl (by simpa using h)
      · exact .inr ⟨_, rfl⟩
    · split_ifs at h
      · exact ((mem_marks_target _).mp h).imp_right fun heq => ⟨_, heq⟩
      · exact .inl (by simpa using h)

theorem visitAll_eq_foldl (us : List Unfolding) (r : Resolution) : visitAll r us = us.foldl visit r := by
  induction us generalizing r with
  | nil => rw [visitAll, foldl_nil]
  | cons u us ih => rw [visitAll, ih, foldl_cons]

theorem visit_marks (u : Unfolding) (r : Resolution) :
    ∀ q ∈ (visit r u).marks, q ∈ r.marks ∨ u.Takes q := by
  induction u generalizing r with
  | node i k o us ih =>
    intro q hq
    have hall (r : Resolution) (hq : q ∈ (visitAll r us).marks) :
        q ∈ r.marks ∨ (Unfolding.node i k o us).Takes q := by
      rw [visitAll_eq_foldl] at hq
      rcases mem_or_exists_of_foldl marks (fun u hu r => ih u hu r q) hq with hq | ⟨u, hu, ht⟩
      · exact .inl hq
      · exact .inr (ht.child hu)
    cases k with
    | module name ids =>
      simp only [visit] at hq
      simpa using hall _ hq
    | function name params body isClosure captures =>
      simp only [visit, marks_leave] at hq
      simpa using hall _ hq
    | block ids =>
      simp only [visit, closeScope, marks_modifyTop] at hq
      simpa [openScope] using hall _ hq
    | assignment name d x b f =>
      cases d with
      | some d =>
        simp only [visit] at hq
        rcases mem_marks_declareLocal _ hq with hq | ⟨b, rfl⟩
        · exact hall r hq
        · exact .inr (takes_node rfl)
      | none =>
        simp only [visit] at hq
        rcases mem_marks_assign _ hq with hq | ⟨b, rfl⟩
        · exact hall r hq
        · exact .inr (takes_node rfl)
    | reference name b =>
      simp only [visit] at hq
      rcases mem_marks_refer _ hq with hq | ⟨b, rfl⟩
      · exact .inl hq
      · exact .inr (takes_node rfl)
    | invocation name arguments target =>
      simp only [visit] at hq
      rcases mem_marks_call _ hq with hq | ⟨c, rfl⟩
      · exact hall r hq
      · exact .inr (takes_node rfl)
    | closure x captured =>
      simp only [visit] at hq
      rcases hall _ hq with hq | ht
      · rcases (mem_marks_capture _).mp hq with hq | rfl
        · exact .inl hq
        · exact .inr (takes_node rfl)
      · exact .inr ht
    | _ =>
      simp only [visit] at hq
      exact hall r hq

end Resolution

/-! ### The passes -/

theorem Tree.Owned.recordAll_unfoldRoot {t : Tree} (h : t.Owned) (hu : t.unfoldRoot = some u)
    {as : List (ElementId × Mark)} (has : ∀ p ∈ as, u.Takes p) :
    ∃ t', t.recordAll as = .ok t' ∧ t'.Owned ∧ t'.unfoldRoot = some (u.marked as) := by
  obtain ⟨hshows, hroot⟩ := h.unfoldRoot_eq_some_iff.mp hu
  obtain ⟨t', ht', hshows', hroot'⟩ := hshows.recordAll has
  have howned := steady_owned.recordAll h ht'
  refine ⟨t', ht', howned, howned.unfoldRoot_eq_some_iff.mpr ⟨hshows', ?_⟩⟩
  rw [hroot', hroot, id_marked]

namespace Capture

def marks (c : Capture) : List (ElementId × Mark) :=
  c.results.toList.map fun p => (p.1, .captures p.2)

variable {w : Workbench} {t : Tree}

theorem forIn_eq {found : List (ElementId × List String)}
    (h : w.tree.recordAll (found.map fun p => (p.1, .captures p.2)) = .ok t) :
    ∃ w', (forIn found PUnit.unit fun p _ => do
        note (.capturesFound p.1 p.2)
        change (·.setCaptures p.1 p.2)
        pure (ForInStep.yield PUnit.unit) : Edit PUnit) w = .ok PUnit.unit w' ∧ w'.tree = t := by
  induction found generalizing w with
  | nil => exact ⟨w, rfl, by cases h; rfl⟩
  | cons p found ih =>
    rw [map_cons, Tree.recordAll_cons] at h
    obtain ⟨t1, h1, h⟩ := bind_eq_ok_iff.mp h
    rw [forIn_cons]
    rw [← Tree.setCaptures_eq] at h1
    simp only [bind_apply, note_apply, change_apply, h1, pure_apply]
    exact ih (w := ⟨t1, w.journal.push (.capturesFound p.1 p.2)⟩) h

theorem visit_takes (u : Unfolding) : ∀ p ∈ (visit {} u).marks, u.Takes p := by
  intro p hp
  obtain ⟨q, hq, rfl⟩ := mem_map.mp hp
  obtain ⟨_, _, _, _, hmem⟩ := (visit_results u {} q hq).resolve_left (by simp)
  exact ⟨_, hmem, rfl⟩

variable {u : Unfolding}

theorem run_of_recordAll (hu : w.tree.unfoldRoot = some u) (ht : w.tree.recordAll (visit {} u).marks = .ok t) :
    ∃ w', run w = .ok (visit {} u).results.toList w' ∧ w'.tree = t := by
  obtain ⟨w', hw', htree⟩ := forIn_eq ht
  refine ⟨w', ?_, htree⟩
  have hfind : find w.tree = (visit {} u).results.toList := by
    simp [find, hu]
  unfold run
  simp only [bind_apply, tree_apply, hfind]
  rw [hw']
  rfl

theorem run_eq (h : w.tree.Owned) (hu : w.tree.unfoldRoot = some u) :
    ∃ w', run w = .ok (visit {} u).results.toList w' ∧ w'.tree.Owned ∧
      w'.tree.unfoldRoot = some (u.marked (visit {} u).marks) := by
  obtain ⟨t, ht, howned, hroot⟩ := h.recordAll_unfoldRoot hu (visit_takes u)
  obtain ⟨w', hrun, rfl⟩ := run_of_recordAll hu ht
  exact ⟨w', hrun, howned, hroot⟩

end Capture

namespace Resolution

theorem visit_takes (u : Unfolding) : ∀ p ∈ (visit {} u).marks, u.Takes p := fun p hp =>
  (visit_marks u {} p hp).resolve_left (by simp [marks])

variable {w : Workbench} {u : Unfolding}

theorem run_of_recordAll (hu : w.tree.unfoldRoot = some u) {t : Tree}
    (ht : w.tree.recordAll (visit {} u).marks = .ok t) :
    ∃ w', run w = .ok (visit {} u).diagnostics.toList w' ∧ w'.tree = t := by
  have hof : ofTree w.tree = visit {} u := by
    simp [ofTree, hu]
  refine ⟨{ w with tree := t }, ?_, rfl⟩
  unfold run
  simp only [bind_apply, tree_apply, change_apply, hof, apply_eq_recordAll, ht,
    pure_apply]

theorem run_eq (h : w.tree.Owned) (hu : w.tree.unfoldRoot = some u) :
    ∃ w', run w = .ok (visit {} u).diagnostics.toList w' ∧ w'.tree.Owned ∧
      w'.tree.unfoldRoot = some (u.marked (visit {} u).marks) := by
  obtain ⟨t, ht, howned, hroot⟩ := h.recordAll_unfoldRoot hu (visit_takes u)
  obtain ⟨w', hrun, rfl⟩ := run_of_recordAll hu ht
  exact ⟨w', hrun, howned, hroot⟩

end Resolution

end Clausal
