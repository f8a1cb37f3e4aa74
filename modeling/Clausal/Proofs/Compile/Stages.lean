import Clausal.Compile
import Clausal.Proofs.Lowering.Fresh
import Clausal.Proofs.Passes.CaseWalk
import Clausal.Proofs.Passes.Findings
import Clausal.Proofs.Passes.MatchWalk

/-! # The stages of a compilation

A compilation makes a tree of a file, runs passes over it and generates a program from what they leave. -/

namespace Clausal

open Edit Resolution MatchExpansion

theorem Tree.Modular.unfoldRoot {t : Tree} (h : t.Owned) (hm : t.Modular) :
    ∃ i name ids o us, t.unfoldRoot = some (.node i (.module name ids) o us) := by
  obtain ⟨root, name, ids, hroot, hkind⟩ := hm
  obtain ⟨u, hu, rfl⟩ := h.exists_shows (Tree.lt_size_of_kind? hkind)
  obtain ⟨i, k, o, us⟩ := u
  have hk : some k = some (Kind.module name ids) := by
    rw [← hkind]
    exact (Tree.kind?_of_face? hu.face?).symm
  cases hk
  exact ⟨i, name, ids, o, us, h.unfoldRoot_eq_some_iff.mpr ⟨hu, hroot⟩⟩

/-! ### Passes -/

namespace Pass

theorem runNoted_apply (p : Pass) (w : Workbench) :
    p.runNoted w = match p.run { w with journal := w.journal.push (.passStarted p.name) } with
      | .ok found w' =>
        .ok found { w' with journal := w'.journal.push (.passFinished p.name found.length) }
      | .error fault w' => .error fault w' := by
  unfold runNoted
  simp only [bind_apply, note_apply, pure_apply]
  generalize p.run { w with journal := w.journal.push (.passStarted p.name) } = r
  cases r <;> rfl

variable {p : Pass} {w w' : Workbench} {found : List Diagnostic} {P : Tree → Prop} {ps : List Pass}
  {u : Unfolding}

theorem exists_runNoted (h : ∀ w', w'.tree = w.tree → ∃ w'', p.run w' = .ok found w'' ∧ P w''.tree) :
    ∃ w', p.runNoted w = .ok found w' ∧ P w'.tree := by
  obtain ⟨w', hrun, hP⟩ := h { w with journal := w.journal.push (.passStarted p.name) } rfl
  rw [runNoted_apply, hrun]
  exact ⟨_, rfl, hP⟩

theorem runInOrder_append (ps qs : List Pass) :
    runInOrder (ps ++ qs) = do return (← runInOrder ps) ++ (← runInOrder qs) := by
  induction ps with
  | nil => simp [runInOrder]
  | cons p ps ih =>
    simp only [List.cons_append, runInOrder, ih, bind_assoc, pure_bind, List.append_assoc]

theorem runInOrder_cons_eq_ok (h : runInOrder (p :: ps) w = .ok found w') :
    ∃ found1 w1 rest, p.runNoted w = .ok found1 w1 ∧ runInOrder ps w1 = .ok rest w' ∧
      found = found1 ++ rest := by
  rw [runInOrder] at h
  obtain ⟨found1, w1, hrun, h⟩ := bind_ok_iff.mp h
  obtain ⟨rest, w2, hrest, h⟩ := bind_ok_iff.mp h
  cases h
  exact ⟨found1, w1, rest, hrun, hrest, rfl⟩

theorem runInOrder_append_eq_ok {qs : List Pass} (h : runInOrder (ps ++ qs) w = .ok found w') :
    ∃ found1 w1 rest, runInOrder ps w = .ok found1 w1 ∧ runInOrder qs w1 = .ok rest w' ∧
      found = found1 ++ rest := by
  rw [runInOrder_append] at h
  obtain ⟨found1, w1, hrun, h⟩ := bind_ok_iff.mp h
  obtain ⟨rest, w2, hrest, h⟩ := bind_ok_iff.mp h
  cases h
  exact ⟨found1, w1, rest, hrun, hrest, rfl⟩

theorem keeps_runNoted (hP : Steady P) (p : Pass) : Keeps P p.runNoted :=
  (keeps_note _).bind fun _ => (p.keeps_run hP).bind fun _ =>
    (keeps_note _).bind fun _ => keeps_pure _

theorem keeps_runInOrder (hP : Steady P) (ps : List Pass) : Keeps P (runInOrder ps) := by
  induction ps with
  | nil => exact keeps_pure _
  | cons p ps ih =>
    exact (p.keeps_runNoted hP).bind fun _ => ih.bind fun _ => keeps_pure _

/-- Closure capture and name resolution leave the shape of a tree alone. -/
def Annotates (p : Pass) : Prop := p = closureCapture ∨ p = localResolution

/-- What a pass that annotates finds in an unfolding: diagnostics and marks. -/
def findings (p : Pass) (u : Unfolding) : List Diagnostic × List (ElementId × Mark) :=
  match p with
  | closureCapture => ([], (Capture.visit {} u).marks)
  | localResolution =>
    let r := visit {} u
    (r.diagnostics.toList, r.marks)
  | _ => ([], [])

theorem findings_takes (p : Pass) (u : Unfolding) : ∀ q ∈ (p.findings u).2, u.Takes q := by
  cases p with
  | closureCapture => exact Capture.visit_takes u
  | localResolution => exact visit_takes u
  | _ => exact List.forall_mem_nil _

theorem runNoted_of_recordAll (hp : p.Annotates) (hu : w.tree.unfoldRoot = some u) {t : Tree}
    (ht : w.tree.recordAll (p.findings u).2 = .ok t) :
    ∃ w', p.runNoted w = .ok (p.findings u).1 w' ∧ w'.tree = t := by
  apply exists_runNoted (P := fun t' => t' = t)
  intro w0 hw0
  rw [← hw0] at hu ht
  rcases hp with rfl | rfl
  · obtain ⟨w1, hrun, hw1⟩ := Capture.run_of_recordAll hu ht
    refine ⟨w1, ?_, hw1⟩
    simp only [run, bind_apply, hrun, pure_apply, findings]
  · exact run_of_recordAll hu ht

theorem runNoted_eq (hp : p.Annotates) (h : w.tree.Owned) (hu : w.tree.unfoldRoot = some u) :
    ∃ w', p.runNoted w = .ok (p.findings u).1 w' ∧ w'.tree.Owned ∧
      w'.tree.unfoldRoot = some (u.marked (p.findings u).2) := by
  obtain ⟨t, ht, howned, hroot⟩ := h.recordAll_unfoldRoot hu (p.findings_takes u)
  obtain ⟨w', hrun, rfl⟩ := runNoted_of_recordAll hp hu ht
  exact ⟨w', hrun, howned, hroot⟩

theorem runNoted_matchExpansion (h : w.tree.Owned) (hu : w.tree.unfoldRoot = some u) :
    ∃ w', matchExpansion.runNoted w = .ok [] w' ∧ w'.tree.Owned ∧
      ∃ u', w'.tree.unfoldRoot = some u' ∧ Expanded Drains u u' ∧
        u'.FreeBelow Unfolding.Pours := by
  apply exists_runNoted (P := fun t => t.Owned ∧ ∃ u', t.unfoldRoot = some u' ∧
    Expanded Drains u u' ∧ u'.FreeBelow Unfolding.Pours)
  intro w0 hw0
  rw [← hw0] at h hu
  obtain ⟨n, w', u', hrun, howned, hu', hexp⟩ := MatchExpansion.run_eq h hu
  refine ⟨w', ?_, howned, u', hu', hexp⟩
  simp only [run, bind_apply, hrun, pure_apply]

theorem runNoted_caseExpansion (h : w.tree.Owned) (hu : w.tree.unfoldRoot = some u) :
    ∃ w', caseExpansion.runNoted w = .ok [] w' ∧ w'.tree.Owned ∧
      ∃ u', w'.tree.unfoldRoot = some u' ∧ CaseExpansion.Expanded u u' ∧ u'.FreeBelow Unfolding.Switches := by
  apply exists_runNoted (P := fun t => t.Owned ∧ ∃ u', t.unfoldRoot = some u' ∧
    CaseExpansion.Expanded u u' ∧ u'.FreeBelow Unfolding.Switches)
  intro w0 hw0
  rw [← hw0] at h hu
  obtain ⟨n, w', u', hrun, howned, hu', hexp⟩ := CaseExpansion.run_eq h hu
  refine ⟨w', ?_, howned, u', hu', hexp⟩
  simp only [run, bind_apply, hrun, pure_apply]

theorem run_of_unfoldRoot_eq_none (p : Pass) (hu : w.tree.unfoldRoot = none) : p.run w = .ok [] w := by
  cases p with
  | matchExpansion =>
    simp only [run, MatchExpansion.run, bind_apply, unfoldRoot_apply, hu, pure_apply]
  | caseExpansion =>
    simp only [run, CaseExpansion.run, bind_apply, unfoldRoot_apply, hu, pure_apply]
  | closureCapture =>
    have hfind : Capture.find w.tree = [] := by simp [Capture.find, hu]
    simp only [run, Capture.run, bind_apply, tree_apply, hfind, pure_apply]
    rfl
  | localResolution =>
    have hof : ofTree w.tree = {} := by simp [ofTree, hu]
    simp only [run, Resolution.run, bind_apply, tree_apply, change_apply, hof]
    rfl

theorem exists_run (p : Pass) (h : w.tree.Owned) : ∃ found w', p.run w = .ok found w' := by
  cases hu : w.tree.unfoldRoot with
  | none => exact ⟨_, w, p.run_of_unfoldRoot_eq_none hu⟩
  | some u =>
    cases p with
    | matchExpansion =>
      obtain ⟨n, w', -, hrun, -⟩ := MatchExpansion.run_eq h hu
      exact ⟨[], w', by simp only [run, bind_apply, hrun, pure_apply]⟩
    | caseExpansion =>
      obtain ⟨n, w', -, hrun, -⟩ := CaseExpansion.run_eq h hu
      exact ⟨[], w', by simp only [run, bind_apply, hrun, pure_apply]⟩
    | closureCapture =>
      obtain ⟨w', hrun, -⟩ := Capture.run_eq h hu
      exact ⟨[], w', by simp only [run, bind_apply, hrun, pure_apply]⟩
    | localResolution =>
      obtain ⟨w', hrun, -⟩ := Resolution.run_eq h hu
      exact ⟨_, w', hrun⟩

theorem exists_runNoted_eq (p : Pass) (h : w.tree.Owned) : ∃ found w', p.runNoted w = .ok found w' := by
  have h0 : ({ w with journal := w.journal.push (.passStarted p.name) } : Workbench).tree.Owned := h
  obtain ⟨found, w', hrun⟩ := p.exists_run h0
  rw [runNoted_apply, hrun]
  exact ⟨_, _, rfl⟩

theorem exists_runInOrder (ps : List Pass) (h : w.tree.Owned) :
    ∃ found w', runInOrder ps w = .ok found w' ∧ w'.tree.Owned := by
  induction ps generalizing w with
  | nil => exact ⟨[], w, rfl, h⟩
  | cons p ps ih =>
    obtain ⟨found, w1, hrun⟩ := p.exists_runNoted_eq h
    have howned := p.keeps_runNoted steady_owned w h
    rw [after, hrun] at howned
    obtain ⟨rest, w2, hrest, hw2⟩ := ih howned
    refine ⟨found ++ rest, w2, ?_, hw2⟩
    simp only [runInOrder, bind_apply, hrun, hrest, pure_apply]

theorem steady_runInOrder (hP : Steady P) (hrun : runInOrder ps w = .ok found w') (h : P w.tree) :
    P w'.tree := by
  have hkeeps := keeps_runInOrder hP ps w h
  rwa [after, hrun] at hkeeps

end Pass

theorem runPasses_eq (o : Options) :
    runPasses o = Pass.runInOrder ([.matchExpansion].filter (·.enabled o) ++
      ([.caseExpansion].filter (·.enabled o) ++
        [.closureCapture, .localResolution].filter (·.enabled o))) := by
  rw [← List.filter_append, ← List.filter_append]
  rfl

/-! ### Compilations -/

namespace Compile

variable {file : SourceFile} {o : Options} {c : Compilation} {t : Tree}
  {journal journal' : Array Event}

def front (file : SourceFile) (o : Options) : Compile Tree := do
  checkOptions o
  lower (← parse file)

def finish (file : SourceFile) (o : Options) (tree : Tree) (diagnostics : List Diagnostic) :
    Compile Compilation := do
  ofExcept .brokenTree tree.validate
  let program ←
    if o.emitBytecode && !diagnostics.any Diagnostic.isError then some <$> generate tree
    else pure none
  note (.compiled file.name diagnostics.length)
  return { tree, diagnostics, program }

theorem source_eq (file : SourceFile) (o : Options) :
    source file o = front file o >>= fun tree => passes o tree >>= fun r => finish file o r.1 r.2 := by
  simp only [source, front, finish, bind_assoc]

theorem stages_of_compile (h : compile file o = .ok c) :
    ∃ t journal found w journal', front file o #[] = .ok t journal ∧
      runPasses o ⟨t, journal⟩ = .ok found w ∧ finish file o w.tree found w.journal = .ok c journal' := by
  unfold compile at h
  split at h
  · rename_i c' journal' hsource
    cases h
    rw [source_eq, bind_apply] at hsource
    split at hsource
    · rename_i t journal hfront
      rw [bind_apply, passes] at hsource
      cases hpasses : runPasses o ⟨t, journal⟩ with
      | error fault w =>
        rw [hpasses] at hsource
        cases hsource
      | ok found w =>
        rw [hpasses] at hsource
        exact ⟨t, journal, found, w, journal', hfront, hpasses, hsource⟩
    · cases hsource
  · cases h

theorem kept_of_finish {found : List Diagnostic} (h : finish file o t found journal = .ok c journal') :
    c.tree = t ∧ c.diagnostics = found := by
  simp only [finish, bind_apply] at h
  split at h
  · split_ifs at h
    · rw [bind_apply] at h
      split at h
      · cases h
        exact ⟨rfl, rfl⟩
      · cases h
    · cases h
      exact ⟨rfl, rfl⟩
  · cases h

theorem front_fresh (h : front file o journal = .ok t journal') : t.Fresh ∧ t.Modular := by
  simp only [front, bind_apply] at h
  split at h
  · split at h
    · rename_i unit journal1 _
      unfold lower at h
      split at h
      · rename_i t' b hunit
        cases h
        exact Lower.unit_fresh hunit
      · cases h
    · cases h
  · cases h

def output : EStateM.Result CompileError (Array Event) Compilation →
    Except CompileError (List Diagnostic × Option Program)
  | .ok c _ => .ok (c.diagnostics, c.program)
  | .error e _ => .error e

theorem output_finish {t : Tree} (h : t.Owned) (file : SourceFile) (o : Options)
    (diagnostics : List Diagnostic) (journal : Array Event) :
    output (finish file o t diagnostics journal) =
      if o.emitBytecode && !diagnostics.any Diagnostic.isError then
        match Program.ofTree t with
        | .ok program => .ok (diagnostics, some program)
        | .error e => .error (.notGenerated e)
      else .ok (diagnostics, none) := by
  unfold finish
  rw [h.validate_eq_ok]
  split_ifs
  · unfold generate
    cases Program.ofTree t <;> rfl
  · rfl

theorem map_compile (file : SourceFile) (o : Options) :
    (compile file o).map (fun c => (c.diagnostics, c.program)) = output (source file o #[]) := by
  unfold compile
  cases source file o #[] <;> rfl

end Compile

end Clausal
