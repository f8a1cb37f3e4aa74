import Clausal.Proofs.Bytecode.FrameSizes
import Clausal.Proofs.Compile.Generation

/-! # The frames of a compiled program

A program comes from a tree in which name resolution, the last pass, has found no error
(`Compile.exists_resolved`).  So its functions are those of the tree, inner ones first, and each has the
frame that its captures, parameters and declarations need (`frames_exact`). -/

namespace Clausal

open Resolution Pass

theorem Program.codes_of_modular {t : Tree} (h : t.Owned) (hm : t.Modular) {u : Unfolding}
    (hu : t.unfoldRoot = some u) {p : Program} (hp : Program.ofTree t = .ok p) :
    List.Forall₂ Generate.Codes u.functions p.functions := by
  obtain ⟨i, name, ids, o, us, hroot⟩ := hm.unfoldRoot h
  cases hroot.symm.trans hu
  have hfits := (h.unfoldRoot_eq_some_iff.mp hu).1.fits h
  unfold Program.ofTree at hp
  rw [hu] at hp
  simp only [bind_eq_ok_iff] at hp
  obtain ⟨cs, hcs, ⟨⟩⟩ := hp
  exact Generate.codes_of_module hfits hcs

namespace Compile

variable {file : SourceFile} {o : Options} {found : List Diagnostic} {c : Compilation} {p : Program}

theorem program_of_finish {t : Tree} {journal journal' : Array Event}
    (h : finish file o t found journal = .ok c journal') (hp : c.program = some p) :
    c.tree = t ∧ o.emitBytecode = true ∧ (∀ d ∈ found, d.isError = false) ∧ Program.ofTree t = .ok p := by
  simp only [finish, bind_apply] at h
  cases hvalid : t.validate with
  | error fault =>
    rw [hvalid] at h
    cases h
  | ok _ =>
    rw [hvalid] at h
    simp only [ofExcept] at h
    by_cases hask : (o.emitBytecode && !found.any Diagnostic.isError) = true
    · rw [if_pos hask] at h
      rw [Bool.and_eq_true, Bool.not_eq_true', List.any_eq_false] at hask
      unfold generate at h
      cases hprogram : Program.ofTree t with
      | error e =>
        rw [hprogram] at h
        cases h
      | ok q =>
        rw [hprogram] at h
        cases h
        cases hp
        exact ⟨rfl, hask.1, fun d hd => Bool.eq_false_iff.mpr (hask.2 d hd), rfl⟩
    · rw [if_neg hask] at h
      cases h
      cases hp

theorem resolved_of_runInOrder {w w' : Workbench} (h : w.tree.Owned) {v : Unfolding}
    (hv : w.tree.unfoldRoot = some v) (hrun : runInOrder [.localResolution] w = .ok found w') :
    v.Fits ∧ ((∀ d ∈ found, d.isError = false) → (visit {} v).Clean) ∧ w'.tree.Owned ∧
      w'.tree.unfoldRoot = some (walker.settle {} v) := by
  have hshows := (h.unfoldRoot_eq_some_iff.mp hv).1
  have hfits := hshows.fits h
  obtain ⟨w1, hlast, howned, hv'⟩ := runNoted_eq (.inr rfl) h hv
  rw [findings, marked_eq_settle hfits (hshows.nodup_ids h)] at hv'
  rw [runInOrder, bind_apply, hlast] at hrun
  cases hrun
  refine ⟨hfits, fun hnone d hd => hnone d ?_, howned, hv'⟩
  rw [List.append_nil]
  exact Array.mem_toList_iff.mpr hd

theorem exists_resolved (h : compile file o = .ok c) (hp : c.program = some p) :
    ∃ t journal found w v, front file o #[] = .ok t journal ∧
      runInOrder (before o) ⟨t, journal⟩ = .ok found w ∧ w.tree.Owned ∧
      w.tree.unfoldRoot = some v ∧ v.Fits ∧ (visit {} v).Clean ∧ c.tree.Owned ∧
      c.tree.unfoldRoot = some (walker.settle {} v) ∧
      List.Forall₂ Generate.Codes (walker.settle {} v).functions p.functions := by
  obtain ⟨t, journal, found, w', journal', hfront, hpasses, hfinish⟩ := stages_of_compile h
  obtain ⟨hfresh, hmodular⟩ := front_fresh hfront
  obtain ⟨htree, hemit, hnone, hprogram⟩ := program_of_finish hfinish hp
  obtain ⟨-, hresolve⟩ := resolveLocals_of_validate (validate_of_front hfront) hemit
  rw [runPasses, enabled_eq_append hresolve] at hpasses
  obtain ⟨found1, w, rest, hbefore, hlast, rfl⟩ := runInOrder_append_eq_ok hpasses
  have howned := steady_runInOrder Edit.steady_owned hbefore hfresh.owned
  have hmodular' := steady_runInOrder steady_modular hpasses hmodular
  obtain ⟨i, name, ids, org, us, hv⟩ :=
    (steady_runInOrder steady_modular hbefore hmodular).unfoldRoot howned
  obtain ⟨hfits, hclean, howned', hv'⟩ := resolved_of_runInOrder howned hv hlast
  refine ⟨t, journal, found1, w, _, hfront, hbefore, howned, hv, hfits,
    hclean fun d hd => hnone d (List.mem_append_right _ hd), htree ▸ howned', htree ▸ hv', ?_⟩
  exact Program.codes_of_modular howned' hmodular' hv' hprogram

end Compile

/-- Frames are exact.  The functions of a program are those of the compiled tree, inner ones first, and
the frame of each has one slot for each capture, parameter and declaration, which are all the slots that
its code mentions, and it writes no capture. -/
theorem frames_exact {file : SourceFile} {o : Options} {c : Compilation} {p : Program}
    (h : compile file o = .ok c) (hp : c.program = some p) :
    ∃ u, c.tree.unfoldRoot = some u ∧ List.Forall₂ Framed u.functions p.functions := by
  obtain ⟨-, -, -, -, v, -, -, -, -, hfits, hclean, -, hroot, hcodes⟩ := Compile.exists_resolved h hp
  exact ⟨_, hroot, framed_all hfits hclean hcodes⟩

/-! ### An instance -/

/-- Two functions and a closure: one function has a loop and is called in a match, the closure is made and called. -/
def linking : SourceFile :=
  ⟨"linking", "linking", "module m function id=|a|{while not a{a=1}return a}" ++
    "function main=||{let x=match{when id(1) then id(2) otherwise 3} let f=|b|{return x} print(f(x))}"⟩

def isLinking : Ast.CompilationUnit → Bool
  | ⟨_, "m", [
      .mk (.function "id" ["a"]) _ [.mk .block _ [
        .mk .loop _ [.mk (.unary "not") _ [.mk (.identifier "a") _ []],
          .mk .block _ [.mk (.assign "a") _ [.mk (.integer _) _ []]]],
        .mk .returns _ [.mk (.identifier "a") _ []]]],
      .mk (.function "main" []) _ [.mk .block _ [
        .mk (.letDecl "x") _ [.mk .matchOf _ [
          .mk .whenClause _ [.mk (.call "id") _ [.mk (.integer _) _ []], .mk (.call "id") _ [.mk (.integer _) _ []]],
          .mk .otherwise _ [.mk (.integer _) _ []]]],
        .mk (.letDecl "f") _ [.mk (.closure ["b"]) _ [.mk .block _ [
          .mk .returns _ [.mk (.identifier "x") _ []]]]],
        .mk (.call "print") _ [.mk (.call "f") _ [.mk (.identifier "x") _ []]]]]], _⟩ => true
  | _ => false

theorem linking_parsed :
    (match Ast.parse linking with | .ok unit => isLinking unit | .error _ => false) = true := by
  decide +kernel

theorem linking_compiled :
    ∃ c p, compile linking { expandMatches := false, expandCases := false } = .ok c ∧ c.program = some p ∧
      p.functions.map (fun f => (f.name, f.locals, f.code.filterMap Op.branchTarget?)) =
        [("id", 1, [6, 0]), ("main$closure$0", 2, []), ("main", 2, [8, 9])] := by
  have hparsed := linking_parsed
  cases hparse : Ast.parse linking with
  | error e =>
    rw [hparse] at hparsed
    cases hparsed
  | ok unit =>
    rw [hparse] at hparsed
    dsimp only [isLinking] at hparsed
    split at hparsed
    · have hcompiled : (match compile linking { expandMatches := false, expandCases := false } with
          | .ok c => c.program.any fun p =>
              p.functions.map (fun f => (f.name, f.locals, f.code.filterMap Op.branchTarget?)) =
                [("id", 1, [6, 0]), ("main$closure$0", 2, []), ("main", 2, [8, 9])]
          | .error _ => false) = true := by
        simp only [compile, Compile.source, Compile.parse, hparse]
        clear hparse
        cbv
      split at hcompiled
      · rename_i c hc
        obtain ⟨p, hp, hlocals⟩ := (Option.any_eq_true _ _).mp hcompiled
        exact ⟨c, p, hc, hp, of_decide_eq_true hlocals⟩
      · cases hcompiled
    · cases hparsed

theorem linking_frames :
    ∃ c p u, compile linking { expandMatches := false, expandCases := false } = .ok c ∧ c.program = some p ∧
      p.functions.map (fun f => (f.name, f.locals, f.code.filterMap Op.branchTarget?)) =
        [("id", 1, [6, 0]), ("main$closure$0", 2, []), ("main", 2, [8, 9])] ∧
      c.tree.unfoldRoot = some u ∧ List.Forall₂ Framed u.functions p.functions := by
  obtain ⟨c, p, hc, hp, hlocals⟩ := linking_compiled
  obtain ⟨u, hu, hframed⟩ := frames_exact hc hp
  exact ⟨c, p, u, hc, hp, hlocals, hu, hframed⟩

end Clausal
