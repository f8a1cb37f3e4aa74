import Clausal.Proofs.Compile.Stages

/-! # Expanding cases does not show

Whether cases are expanded makes no difference to what a compilation puts out: the same error, or the same
diagnostics and the same program (`compile_expandCases`).

Up to the case expansion both runs are the same. -/

namespace Clausal

open CaseExpansion Pass

/-- The second tree is the first one with its cases expanded. -/
structure Alike (t t' : Tree) : Prop where
  owned : t.Owned
  owned' : t'.Owned
  modular : t.Modular
  expanded : ∃ u u', t.unfoldRoot = some u ∧ t'.unfoldRoot = some u' ∧ Expanded u u'

variable {u u' : Unfolding}

theorem CaseExpansion.Expanded.marked (h : Expanded u u')
    (as : List (ElementId × Mark)) : Expanded (u.marked as) (u'.marked as) := by
  induction as generalizing u u' with
  | nil => exact h
  | cons a as ih => exact ih h.mark

theorem CaseExpansion.Expanded.findings_eq (h : Expanded u u') (p : Pass) : p.findings u' = p.findings u := by
  cases p with
  | closureCapture => simp only [findings, h.visit_capture]
  | localResolution => simp only [findings, h.visit_resolution]
  | matchExpansion => rfl
  | caseExpansion => rfl

variable {w : Workbench}

theorem alike_of_caseExpansion (h : w.tree.Owned) (hm : w.tree.Modular) :
    ∃ w', Pass.caseExpansion.runNoted w = .ok [] w' ∧ Alike w.tree w'.tree := by
  obtain ⟨i, name, ids, o, us, hu⟩ := hm.unfoldRoot h
  obtain ⟨w', hrun, howned, u', hu', hexp, -⟩ := runNoted_caseExpansion h hu
  exact ⟨w', hrun, h, howned, hm, _, u', hu, hu', hexp⟩

namespace Alike

theorem runNoted {w w' : Workbench} (h : Alike w.tree w'.tree) {p : Pass} (hp : p.Annotates) :
    ∃ found w1 w₁', p.runNoted w = .ok found w1 ∧ p.runNoted w' = .ok found w₁' ∧ Alike w1.tree w₁'.tree := by
  obtain ⟨u, u', hu, hu', hexp⟩ := h.expanded
  obtain ⟨w1, hrun, howned, hw⟩ := runNoted_eq hp h.owned hu
  obtain ⟨w₁', hrun', howned', hw'⟩ := runNoted_eq hp h.owned' hu'
  rw [hexp.findings_eq] at hrun' hw'
  have hmodular := p.keeps_runNoted steady_modular w h.modular
  rw [Edit.after, hrun] at hmodular
  exact ⟨_, w1, w₁', hrun, hrun', howned, howned', hmodular, _, _, hw, hw', hexp.marked _⟩

theorem runInOrder {ps : List Pass} (hps : ∀ p ∈ ps, p.Annotates) {w w' : Workbench}
    (h : Alike w.tree w'.tree) :
    ∃ found w1 w₁', Pass.runInOrder ps w = .ok found w1 ∧ Pass.runInOrder ps w' = .ok found w₁' ∧
      Alike w1.tree w₁'.tree := by
  induction ps generalizing w w' with
  | nil => exact ⟨[], w, w', rfl, rfl, h⟩
  | cons p ps ih =>
    obtain ⟨found, w1, w₁', hrun, hrun', h1⟩ := h.runNoted (hps p (.head _))
    obtain ⟨rest, w2, w₂', hrest, hrest', h2⟩ := ih (fun q hq => hps q (.tail _ hq)) h1
    refine ⟨found ++ rest, w2, w₂', ?_, ?_, h2⟩
    · simp only [Pass.runInOrder, bind_apply, hrun, hrest, Edit.pure_apply]
    · simp only [Pass.runInOrder, bind_apply, hrun', hrest', Edit.pure_apply]

theorem ofTree_eq {t t' : Tree} (h : Alike t t') : Program.ofTree t' = Program.ofTree t := by
  obtain ⟨i, name, ids, o, us, hu⟩ := h.modular.unfoldRoot h.owned
  obtain ⟨v, u', hv, hu', hexp⟩ := h.expanded
  cases hu.symm.trans hv
  have hfits := (h.owned.unfoldRoot_eq_some_iff.mp hu).1.fits h.owned
  have hfits' := (h.owned'.unfoldRoot_eq_some_iff.mp hu').1.fits h.owned'
  obtain ⟨hname, houtside⟩ := hexp.outside_eq hfits hfits'
  have hmodule : Generate.moduleName (.node i (.module name ids) o us) = name := rfl
  unfold Program.ofTree
  rw [hu, hu']
  simp only [hname, houtside, hmodule]

end Alike

theorem runPasses_expandCases (h : w.tree.Owned) (hm : w.tree.Modular) (o : Options) :
    ∃ found w1 w₁', runPasses { o with expandCases := false } w = .ok found w1 ∧
      runPasses { o with expandCases := true } w = .ok found w₁' ∧ Alike w1.tree w₁'.tree := by
  obtain ⟨before, after, hafter, hwithout, hwith⟩ : ∃ before after : List Pass, (∀ p ∈ after, p.Annotates) ∧
      runPasses { o with expandCases := false } = Pass.runInOrder (before ++ after) ∧
      runPasses { o with expandCases := true } = Pass.runInOrder (before ++ .caseExpansion :: after) := by
    refine ⟨[.matchExpansion].filter (·.enabled o),
      [.closureCapture, .localResolution].filter (·.enabled o), ?_, ?_, ?_⟩
    · intro p hp
      simpa [Annotates] using List.mem_of_mem_filter hp
    · rw [runPasses_eq]
      rfl
    · rw [runPasses_eq]
      rfl
  rw [hwithout, hwith, runInOrder_append, runInOrder_append]
  obtain ⟨found, w1, hbefore, howned⟩ := exists_runInOrder before h
  obtain ⟨w2, hcase, halike⟩ :=
    alike_of_caseExpansion howned (steady_runInOrder steady_modular hbefore hm)
  obtain ⟨rest, w3, w₃', hrest, hrest', halike'⟩ := halike.runInOrder hafter
  refine ⟨found ++ rest, w3, w₃', ?_, ?_, halike'⟩
  · simp only [bind_apply, hbefore, hrest, Edit.pure_apply]
  · simp only [Pass.runInOrder, bind_apply, hbefore, hcase, hrest', Edit.pure_apply, List.nil_append]

/-! ### Compilations -/

theorem Compile.output_expandCases (file : SourceFile) (o : Options) (journal : Array Event) :
    output (source file { o with expandCases := true } journal) =
      output (source file { o with expandCases := false } journal) := by
  have hfront : front file { o with expandCases := true } = front file { o with expandCases := false } :=
    rfl
  rw [source_eq, source_eq, hfront, bind_apply, bind_apply]
  cases ht : front file { o with expandCases := false } journal with
  | error e journal1 => rfl
  | ok t journal1 =>
    obtain ⟨hfresh, hmodular⟩ := front_fresh ht
    simp only [bind_apply, passes]
    have howned : ({ tree := t, journal := journal1 } : Workbench).tree.Owned := hfresh.owned
    obtain ⟨found, w, w', h, h', halike⟩ := runPasses_expandCases howned hmodular o
    simp only [h, h', output_finish halike.owned, output_finish halike.owned', halike.ofTree_eq]

/-- Expanding cases changes neither the error of a compilation nor its diagnostics nor its program. -/
theorem compile_expandCases (file : SourceFile) (o : Options) (expand : Bool) :
    (compile file { o with expandCases := expand }).map (fun c => (c.diagnostics, c.program)) =
      (compile file o).map fun c => (c.diagnostics, c.program) := by
  have hsame : ∀ b : Bool, Compile.output (Compile.source file { o with expandCases := b } #[]) =
      Compile.output (Compile.source file { o with expandCases := false } #[]) := by
    intro b
    cases b with
    | false => rfl
    | true => exact Compile.output_expandCases file o #[]
  rw [Compile.map_compile, Compile.map_compile, hsame expand]
  exact (hsame o.expandCases).symm

end Clausal
