import Clausal.Proofs.Bytecode.Complete
import Clausal.Proofs.Compile.Stages

/-! # Without errors there is a program

What name resolution leaves without an error is complete, so a program can be generated from it, whatever the
root of the tree is and whatever its functions capture (`Resolution.exists_ofTree`). -/

namespace Clausal

open Pass

theorem Program.exists_ofTree {t : Tree} {u : Unfolding} (hu : t.unfoldRoot = some u)
    (hfits : u.Fits) (hcomplete : u.Complete) : ∃ program, Program.ofTree t = .ok program := by
  obtain ⟨functions, hfunctions⟩ := Generate.exists_outside hfits hcomplete
  refine ⟨{ module := Generate.moduleName u, functions }, ?_⟩
  unfold Program.ofTree
  rw [hu]
  simp only [hfunctions]
  rfl

theorem Resolution.exists_ofTree {w : Workbench} (h : w.tree.Owned) :
    ∃ found w', Resolution.run w = .ok found w' ∧ w'.tree.Owned ∧
      ((∀ d ∈ found, d.isError = false) → ∃ program, Program.ofTree w'.tree = .ok program) := by
  cases hu : w.tree.unfoldRoot with
  | none =>
    have hof : Resolution.ofTree w.tree = {} := by
      simp [Resolution.ofTree, hu]
    refine ⟨[], w, ?_, h, fun _ => ⟨{ module := "", functions := [] }, ?_⟩⟩
    · unfold Resolution.run
      simp only [bind_apply, Edit.tree_apply, hof]
      rfl
    · unfold Program.ofTree
      rw [hu]
      rfl
  | some u =>
    obtain ⟨hshows, -⟩ := h.unfoldRoot_eq_some_iff.mp hu
    have hfits := hshows.fits h
    obtain ⟨w', hrun, howned, hu'⟩ := Resolution.run_eq h hu
    refine ⟨_, w', hrun, howned, fun hclean => ?_⟩
    rw [marked_eq_settle hfits (hshows.nodup_ids h)] at hu'
    have hfits' := (howned.unfoldRoot_eq_some_iff.mp hu').1.fits howned
    exact Program.exists_ofTree hu' hfits' (complete_settle hfits fun d hd => hclean d (by simpa using hd))

def Pass.before (o : Options) : List Pass :=
  [matchExpansion, .caseExpansion, .closureCapture].filter (·.enabled o)

theorem Pass.enabled_eq_append {o : Options} (h : o.resolveLocals = true) :
    all.filter (·.enabled o) = before o ++ [.localResolution] := by
  have hsplit : all = [matchExpansion, .caseExpansion, .closureCapture] ++ [.localResolution] := rfl
  rw [hsplit, List.filter_append]
  congr 1
  simp [enabled, h]

namespace Compile

variable {o : Options}

theorem resolveLocals_of_validate (h : o.validate = .ok ()) (he : o.emitBytecode = true) :
    o.captureClosures = true ∧ o.resolveLocals = true := by
  obtain ⟨matches?, cases?, captures, resolve, emit⟩ := o
  cases captures <;> cases resolve <;> cases he <;> simp [Options.validate] at h ⊢

variable {t : Tree}

theorem exists_passes (h : t.Owned) (ho : o.validate = .ok ()) (journal : Array Event) :
    ∃ t' found journal', passes o t journal = .ok (t', found) journal' ∧ t'.Owned ∧
      (o.emitBytecode = true → (∀ d ∈ found, d.isError = false) →
        ∃ program, Program.ofTree t' = .ok program) := by
  have howned : ({ tree := t, journal } : Workbench).tree.Owned := h
  cases he : o.emitBytecode with
  | false =>
    obtain ⟨found, w, hrun, hw⟩ := exists_runInOrder (all.filter (·.enabled o)) howned
    refine ⟨w.tree, found, w.journal, ?_, hw, by simp⟩
    simp only [passes, runPasses, hrun]
  | true =>
    obtain ⟨-, hresolve⟩ := resolveLocals_of_validate ho he
    have hlast := enabled_eq_append hresolve
    obtain ⟨found, w, hrun, hw⟩ := exists_runInOrder (before o) howned
    have hw0 : ({ w with journal := w.journal.push (.passStarted localResolution.name) } :
      Workbench).tree.Owned := hw
    obtain ⟨rest, w', hrest, hw', hgen⟩ := Resolution.exists_ofTree hw0
    refine ⟨w'.tree, found ++ rest,
      w'.journal.push (.passFinished localResolution.name rest.length), ?_, hw',
      fun _ hclean => ?_⟩
    · simp only [passes, runPasses, hlast, runInOrder_append, bind_apply, hrun,
        runInOrder, runNoted_apply, run, hrest, Edit.pure_apply, List.append_nil]
    · exact hgen fun d hd => hclean d (List.mem_append_right _ hd)

variable {file : SourceFile} {journal journal' : Array Event}

theorem validate_of_front (h : front file o journal = .ok t journal') : o.validate = .ok () := by
  simp only [front, bind_apply, checkOptions] at h
  cases ho : o.validate with
  | ok _ => rfl
  | error c =>
    rw [ho] at h
    cases h

variable {e : CompileError}

theorem front_of_error (h : compile file o = .error e) : ∃ journal, front file o #[] = .error e journal := by
  have hout : output (source file o #[]) = .error e := by
    rw [← map_compile, h]
    rfl
  rw [source_eq, bind_apply] at hout
  cases hfront : front file o #[] with
  | error e' journal =>
    rw [hfront] at hout
    cases hout
    exact ⟨journal, rfl⟩
  | ok t journal =>
    exfalso
    obtain ⟨hfresh, -⟩ := front_fresh hfront
    obtain ⟨t', found, journal', hpasses, howned, hgen⟩ :=
      exists_passes hfresh.owned (validate_of_front hfront) journal
    simp only [hfront, bind_apply, hpasses, output_finish howned] at hout
    split at hout
    · rename_i hemit
      rw [Bool.and_eq_true, Bool.not_eq_true', List.any_eq_false] at hemit
      obtain ⟨program, hprogram⟩ := hgen hemit.1 fun d hd => Bool.eq_false_iff.mpr (hemit.2 d hd)
      rw [hprogram] at hout
      cases hout
    · cases hout

theorem exists_program {c : Compilation} (h : compile file o = .ok c) (hemit : o.emitBytecode = true)
    (hnone : c.hasErrors = false) : ∃ p, c.program = some p := by
  obtain ⟨t, journal, found, w, journal', hfront, hpasses, hfinish⟩ := stages_of_compile h
  have howned := steady_runInOrder Edit.steady_owned hpasses (front_fresh hfront).1.owned
  have hout := output_finish howned file o found w.journal
  rw [Compilation.hasErrors, (kept_of_finish hfinish).2] at hnone
  rw [hfinish, if_pos (by simp [hemit, hnone])] at hout
  split at hout
  · exact ⟨_, (Prod.mk.inj (Except.ok.inj hout)).2⟩
  · cases hout

theorem front_eq_error (h : front file o journal = .error e journal') :
    (∃ conflict, o.validate = .error conflict ∧ e = .options ⟨"<options>", .conflict conflict⟩) ∨
    (∃ flaw, Ast.parse file = .error flaw ∧ e = .notParsed flaw) ∨
    ∃ unit flaw b b', Ast.parse file = .ok unit ∧ Lower.unit unit b = .error flaw b' ∧
      e = .notLowered flaw := by
  simp only [front, bind_apply, checkOptions] at h
  cases ho : o.validate with
  | error c =>
    rw [ho] at h
    cases h
    exact .inl ⟨c, rfl, rfl⟩
  | ok _ =>
    cases hparse : Ast.parse file with
    | error flaw =>
      simp only [ho, parse, hparse] at h
      cases h
      exact .inr (.inl ⟨flaw, rfl, rfl⟩)
    | ok unit =>
      simp only [ho, parse, hparse] at h
      have h : lower unit (journal.push (.parsed file.name unit.name unit.functions.length)) =
        .error e journal' := h
      unfold lower at h
      split at h
      · cases h
      · rename_i flaw b hlower
        cases h
        exact .inr (.inr ⟨unit, flaw, _, b, rfl, hlower, rfl⟩)

end Compile

/-- Where name resolution finds no error in an owned tree a program is generated from what it leaves, so
that a compilation fails only because of its options, its syntax or what it declares. -/
theorem generation_succeeds :
    (∀ w : Workbench, w.tree.Owned → ∃ found w', Resolution.run w = .ok found w' ∧
      ((∀ d ∈ found, d.isError = false) → ∃ program, Program.ofTree w'.tree = .ok program)) ∧
    ∀ (file : SourceFile) (o : Options) (e : CompileError), compile file o = .error e →
      (∃ conflict, o.validate = .error conflict ∧ e = .options ⟨"<options>", .conflict conflict⟩) ∨
      (∃ flaw, Ast.parse file = .error flaw ∧ e = .notParsed flaw) ∨
      ∃ unit flaw b b', Ast.parse file = .ok unit ∧ Lower.unit unit b = .error flaw b' ∧
        e = .notLowered flaw := by
  constructor
  · intro w h
    obtain ⟨found, w', hrun, -, hgen⟩ := Resolution.exists_ofTree h
    exact ⟨found, w', hrun, hgen⟩
  · intro file o e h
    obtain ⟨journal, hfront⟩ := Compile.front_of_error h
    exact Compile.front_eq_error hfront

/-- A tree of one function, which adds to its parameter what it captured. -/
def adding : Tree :=
  Tree.reached "adding" <| [
    Kind.reference "x" none, .reference "y" none, .binary .add 0 1, .returns (some 2), .block [3],
    .function "add" ["x"] 4 true ["y"]].map (Tree.Call.alloc · {}) ++ [.setRoot 5]

theorem adding_generated :
    adding.Owned ∧
    (∃ w', Resolution.run { tree := adding } = .ok [] w' ∧ ∃ program, Program.ofTree w'.tree = .ok program) ∧
    ∃ e, compile ⟨"adding", "adding", ""⟩ { captureClosures := false } = .error e ∧
      ((∃ conflict, Options.validate { captureClosures := false } = .error conflict ∧
          e = .options ⟨"<options>", .conflict conflict⟩) ∨
        (∃ flaw, Ast.parse ⟨"adding", "adding", ""⟩ = .error flaw ∧ e = .notParsed flaw) ∨
        ∃ unit flaw b b', Ast.parse ⟨"adding", "adding", ""⟩ = .ok unit ∧
          Lower.unit unit b = .error flaw b' ∧ e = .notLowered flaw) := by
  have howned : adding.Owned := Tree.foldl_perform_owned (Tree.empty_owned _) _
  have hnone : (Resolution.ofTree adding).diagnostics = #[] := by cbv
  refine ⟨howned, ?_, _, rfl, generation_succeeds.2 _ _ _ rfl⟩
  obtain ⟨found, w', hrun, hgen⟩ := generation_succeeds.1 { tree := adding } howned
  have hfound : found = [] := by
    simp only [Resolution.run, bind_apply, Edit.tree_apply, Edit.change_apply, hnone] at hrun
    split at hrun
    · cases hrun
      rfl
    · cases hrun
  subst hfound
  exact ⟨w', hrun, hgen (by simp)⟩

end Clausal
