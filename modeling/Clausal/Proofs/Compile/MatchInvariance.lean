import Clausal.Proofs.Compile.CaseInvariance
import Clausal.Proofs.Compile.FrameLayout
import Clausal.Proofs.Meaning.Functions
import Clausal.Proofs.Scoping.Mirroring

/-! # Expanding matches keeps what programs do

Whether matches are expanded makes a difference to the code, but not to what it does: the functions of the two
programs are the same ones in the same order, and each halts where the other does, with the same value, frame
and trace (`compile_expandMatches`). -/

namespace Clausal

open MatchExpansion List Resolution Pass

def Unfolding.settled (u : Unfolding) : Unfolding :=
  walker.settle {} (Capture.walker.settle {} u)

/-- Name resolution finds no error in an unfolding, after closure capture. -/
def Unfolding.Resolves (u : Unfolding) : Prop :=
  (Resolution.visit {} (Capture.walker.settle {} u)).Clean

/-! ### Errors -/

theorem Capture.covers_empty : Covers {} {} := ⟨fun h => absurd rfl h, fun h => by cases h⟩

variable {u u' : Unfolding}

theorem Capture.each_owns_iff (hu : u.Fits) (hu' : u'.Fits) (hexp : Expanded MatchExpansion.Drains u u') :
    (Capture.walker.Each Owns {} u ↔ Capture.walker.Each Owns {} u') ∧
    (Capture.walker.Each Owns {} u →
      Expanded MatchExpansion.Drains (Capture.walker.settle {} u) (Capture.walker.settle {} u')) := by
  obtain ⟨hiff, htrack⟩ := (Capture.walker_mirrors.follows_and_drained u hu).1 u' {} {} hu' hexp .nil fun _ => trivial
  exact ⟨hiff, fun h => (htrack h).2⟩

theorem Resolution.clean_iff (hu : u.Fits) (hu' : u'.Fits) (hexp : Expanded MatchExpansion.Drains u u') :
    (visit {} u).Clean ↔ (visit {} u').Clean := by
  obtain ⟨hlands, htrack⟩ := (walker_mirrors.follows_and_drained u hu).1 u' {} {} hu' hexp ⟨rfl, .nil, Iff.rfl⟩
    fun _ _ => rfl
  have hnear (h : walker.Each Lands {} u) : Near (visit {} u) (visit {} u') := (htrack h).1
  constructor
  · intro h
    exact (hnear (each_lands hu h)).clean.mpr h
  · intro h
    exact (hnear (hlands.mpr (each_lands hu' h))).clean.mp h

theorem resolves_iff (hu : u.Fits) (hu' : u'.Fits) (hexp : Expanded Drains u u') :
    u.Resolves ↔ u'.Resolves := by
  obtain ⟨howns, hsettle⟩ := Capture.each_owns_iff hu hu' hexp
  have hclean (h : Capture.walker.Each Capture.Owns {} u) : u.Resolves ↔ u'.Resolves :=
    clean_iff (Capture.walker.fits_settle hu {}) (Capture.walker.fits_settle hu' {}) (hsettle h)
  constructor
  · intro h
    exact (hclean (Capture.each_owns hu Capture.covers_empty h)).mp h
  · intro h
    exact (hclean (howns.mpr (Capture.each_owns hu' Capture.covers_empty h))).mpr h

theorem expanded_settled (hu : u.Fits) (hu' : u'.Fits) (hexp : Expanded Drains u u') (hclean : u.Resolves) :
    Expanded Meaning.Yields u.settled u'.settled := by
  have hcaptured := (Capture.each_owns_iff hu hu' hexp).2 (Capture.each_owns hu Capture.covers_empty hclean)
  have hfits := Capture.walker.fits_settle hu {}
  have hfits' := Capture.walker.fits_settle hu' {}
  exact (((walker_mirrors.follows_and_drained _ hfits).1 _ {} {} hfits' hcaptured
    ⟨rfl, .nil, Iff.rfl⟩ fun _ _ => rfl).2 (each_lands hfits hclean)).2

/-! ### What is generated -/

namespace Compile

variable {w : Workbench} {u : Unfolding}

theorem runInOrder_settled (h : w.tree.Owned) (hu : w.tree.unfoldRoot = some u) :
    ∃ found w', runInOrder [.closureCapture, .localResolution] w = .ok found w' ∧ w'.tree.Owned ∧
      w'.tree.unfoldRoot = some u.settled ∧ (u.Resolves ↔ ∀ d ∈ found, d.isError = false) := by
  have hshows := (h.unfoldRoot_eq_some_iff.mp hu).1
  have hfits := hshows.fits h
  obtain ⟨w1, hrun1, howned1, hu1⟩ := runNoted_eq (.inl rfl) h hu
  rw [findings, Capture.marked_eq_settle hfits (hshows.nodup_ids h)] at hu1
  have hshows1 := (howned1.unfoldRoot_eq_some_iff.mp hu1).1
  obtain ⟨w2, hrun2, howned2, hu2⟩ := runNoted_eq (.inr rfl) howned1 hu1
  rw [findings, marked_eq_settle (hshows1.fits howned1) (hshows1.nodup_ids howned1)] at hu2
  refine ⟨(closureCapture.findings u).1 ++
    (localResolution.findings (Capture.walker.settle {} u)).1, w2, ?_, howned2, hu2, ?_⟩
  · simp only [runInOrder, bind_apply, hrun1, hrun2, Edit.pure_apply, append_nil]
  · simp only [findings, nil_append, Array.mem_toList_iff]
    exact Iff.rfl

theorem exists_matches (o : Options) (h : w.tree.Owned) (hu : w.tree.unfoldRoot = some u) :
    ∃ w' v, runInOrder ([.matchExpansion].filter (·.enabled o)) w = .ok [] w' ∧ w'.tree.Owned ∧
      w'.tree.unfoldRoot = some v ∧ (o.expandMatches = false → v = u) ∧
      (o.expandMatches = true → Expanded Drains u v) := by
  cases hmatches : o.expandMatches with
  | false =>
    have hnone : [matchExpansion].filter (·.enabled o) = [] := by
      simp [enabled, hmatches]
    rw [hnone]
    exact ⟨w, u, rfl, h, hu, fun _ => rfl, by simp⟩
  | true =>
    have hone : [matchExpansion].filter (·.enabled o) = [.matchExpansion] := by
      simp [enabled, hmatches]
    obtain ⟨w', hrun, howned, v, hv, hexp, -⟩ := runNoted_matchExpansion h hu
    rw [hone]
    refine ⟨w', v, ?_, howned, hv, by simp, fun _ => hexp⟩
    simp only [runInOrder, bind_apply, hrun, Edit.pure_apply, append_nil]

variable {o : Options} {t : Tree} {journal : Array Event} {v : Unfolding}

theorem passes_settled (hcases : o.expandCases = false) (hcapture : o.captureClosures = true)
    (hresolve : o.resolveLocals = true) (hmodular : t.Modular)
    (hrun : runInOrder ([.matchExpansion].filter (·.enabled o)) ⟨t, journal⟩ = .ok [] w)
    (h : w.tree.Owned) (hv : w.tree.unfoldRoot = some v) :
    ∃ t' found journal', passes o t journal = .ok (t', found) journal' ∧ t'.Owned ∧ t'.Modular ∧
      t'.unfoldRoot = some v.settled ∧ (v.Resolves ↔ ∀ d ∈ found, d.isError = false) := by
  have hrest : [caseExpansion].filter (·.enabled o) ++
      [closureCapture, .localResolution].filter (·.enabled o) = [.closureCapture, .localResolution] := by
    simp [enabled, hcases, hcapture, hresolve]
  obtain ⟨found, w', hrun', howned, hv', hclean⟩ := runInOrder_settled h hv
  have hpasses : runPasses o ⟨t, journal⟩ = .ok found w' := by
    rw [runPasses_eq, hrest, runInOrder_append]
    simp only [bind_apply, hrun, hrun', Edit.pure_apply, nil_append]
  refine ⟨w'.tree, found, w'.journal, ?_, howned,
    steady_runInOrder steady_modular hpasses hmodular, hv', hclean⟩
  simp only [passes, hpasses]

theorem captureClosures_of_validate (h : o.validate = .ok ()) (hresolve : o.resolveLocals = true) :
    o.captureClosures = true := by
  obtain ⟨matches?, cases?, captures, resolve, emit⟩ := o
  cases captures <;> cases hresolve <;> simp [Options.validate] at h ⊢

/-- What the passes make of a tree, up to the expansion of cases: the errors that they find, the uses of names
and what is generated can be told from the unfolding after match expansion, if that is on. -/
theorem exists_passes_settled (hcapture : o.captureClosures = true) (hresolve : o.resolveLocals = true)
    (h : t.Owned) (hmodular : t.Modular) (journal : Array Event) (hu : t.unfoldRoot = some u) :
    ∃ found w t1 v, runPasses o ⟨t, journal⟩ = .ok found w ∧ t1.Owned ∧ t1.Modular ∧
      t1.unfoldRoot = some v.settled ∧ (t1 = w.tree ∨ Alike t1 w.tree) ∧ v.Fits ∧
      (v.Resolves ↔ ∀ d ∈ found, d.isError = false) ∧ (o.expandMatches = false → v = u) ∧
      (o.expandMatches = true → Expanded Drains u v) := by
  have howned : (⟨t, journal⟩ : Workbench).tree.Owned := h
  obtain ⟨w, v, hrun, hw, hv, hsame, hexp⟩ := exists_matches { o with expandCases := false } howned hu
  obtain ⟨t1, found, journal1, hpasses, howned1, hmodular1, hroot, hclean⟩ :=
    passes_settled (o := { o with expandCases := false }) rfl hcapture hresolve hmodular hrun hw hv
  have hfits := (hw.unfoldRoot_eq_some_iff.mp hv).1.fits hw
  obtain ⟨found', w1, w₁', hwithout, hwith, halike⟩ := runPasses_expandCases howned hmodular o
  simp only [passes, hwithout] at hpasses
  cases hpasses
  cases hcases : o.expandCases with
  | false =>
    rw [← hcases] at hwithout
    exact ⟨found, w1, w1.tree, v, hwithout, howned1, hmodular1, hroot, .inl rfl, hfits, hclean, hsame, hexp⟩
  | true =>
    rw [← hcases] at hwith
    exact ⟨found, w₁', w1.tree, v, hwith, howned1, hmodular1, hroot, .inr halike, hfits, hclean, hsame, hexp⟩

/-- What became of a file can be told from the unfolding `v` that its tree has after matches were expanded. -/
structure Settles (c : Compilation) (v : Unfolding) : Prop where
  owned : c.tree.Owned
  fits : v.Fits
  errors : c.hasErrors = false ↔ v.Resolves
  tree : ∃ t : Tree, t.unfoldRoot = some v.settled ∧ (t = c.tree ∨ Alike t c.tree)
  codes : ∀ p, c.program = some p → v.Resolves ∧ Forall₂ Generate.Codes v.settled.functions p.functions

variable {file : SourceFile}

theorem exists_settled (hresolve : o.resolveLocals = true) (hfront : front file o #[] = .ok t journal)
    (hu : t.unfoldRoot = some u) :
    ∃ c v, compile file o = .ok c ∧ Settles c v ∧ (o.expandMatches = false → v = u) ∧
      (o.expandMatches = true → Expanded Drains u v) := by
  obtain ⟨hfresh, hmodular⟩ := front_fresh hfront
  have hcapture := captureClosures_of_validate (validate_of_front hfront) hresolve
  obtain ⟨found, w, t1, v, hpasses, howned1, hmodular1, hroot, halike, hfits, hclean, hsame, hexp⟩ :=
    exists_passes_settled hcapture hresolve hfresh.owned hmodular journal hu
  cases hc : compile file o with
  | error e =>
    obtain ⟨journal', herror⟩ := front_of_error hc
    rw [hfront] at herror
    cases herror
  | ok c =>
    obtain ⟨t', journal', found', w', journal'', hfront', hpasses', hfinish⟩ := stages_of_compile hc
    rw [hfront] at hfront'
    cases hfront'
    rw [hpasses] at hpasses'
    cases hpasses'
    obtain ⟨htree, hfound⟩ := kept_of_finish hfinish
    refine ⟨c, v, rfl, ⟨?_, hfits, ?_, ⟨t1, hroot, htree ▸ halike⟩, fun p hp => ?_⟩, hsame, hexp⟩
    · rw [htree]
      exact Pass.steady_runInOrder Edit.steady_owned hpasses hfresh.owned
    · rw [Compilation.hasErrors, hfound, any_eq_false, hclean]
      simp only [Bool.not_eq_true]
    · obtain ⟨-, -, hnone, hprogram⟩ := program_of_finish hfinish hp
      have hprogram1 : Program.ofTree t1 = .ok p := by
        rcases halike with rfl | halike
        · exact hprogram
        · rw [← halike.ofTree_eq, hprogram]
      exact ⟨hclean.mpr hnone, Program.codes_of_modular howned1 hmodular1 hroot hprogram1⟩

/-- A file that is refused without matches expanded is refused with them, for the same reason; what becomes of
one that is not can be told from an unfolding and its expansion. -/
theorem settles_expandMatches (file : SourceFile) (hresolve : o.resolveLocals = true) :
    (∃ e, compile file { o with expandMatches := false } = .error e ∧
      compile file { o with expandMatches := true } = .error e) ∨
    ∃ c c' u u', compile file { o with expandMatches := false } = .ok c ∧
      compile file { o with expandMatches := true } = .ok c' ∧ Settles c u ∧ Settles c' u' ∧
      Expanded Drains u u' := by
  have hfronts : front file { o with expandMatches := false } = front file { o with expandMatches := true } :=
    rfl
  cases hc : compile file { o with expandMatches := false } with
  | error e =>
    obtain ⟨journal, hfront⟩ := front_of_error hc
    cases hc' : compile file { o with expandMatches := true } with
    | error e' =>
      obtain ⟨journal', hfront'⟩ := front_of_error hc'
      rw [hfronts, hfront'] at hfront
      cases hfront
      exact .inl ⟨e, rfl, rfl⟩
    | ok c' =>
      obtain ⟨t, journal', -, -, -, hfront', -⟩ := stages_of_compile hc'
      rw [hfronts, hfront'] at hfront
      cases hfront
  | ok c =>
    obtain ⟨t, journal, -, -, -, hfront, -⟩ := stages_of_compile hc
    obtain ⟨hfresh, hmodular⟩ := front_fresh hfront
    obtain ⟨i, name, ids, org, us, hu⟩ := hmodular.unfoldRoot hfresh.owned
    obtain ⟨c1, v, hc1, hv, hsame, -⟩ := exists_settled (o := { o with expandMatches := false }) hresolve hfront hu
    obtain ⟨c', v', hc', hv', -, hexp⟩ := exists_settled (o := { o with expandMatches := true }) hresolve hfront hu
    cases hc.symm.trans hc1
    obtain rfl := hsame rfl
    exact .inr ⟨c, c', _, v', rfl, hc', hv, hv', hexp rfl⟩

/-- A file that has a program without matches expanded has one with them. -/
theorem exists_program_expandMatches {c : Compilation} {p : Program} (hresolve : o.resolveLocals = true)
    (hemit : o.emitBytecode = true) (hc : compile file { o with expandMatches := false } = .ok c)
    (hp : c.program = some p) : ∃ c p, compile file { o with expandMatches := true } = .ok c ∧ c.program = some p := by
  rcases settles_expandMatches file hresolve with ⟨e, herror, -⟩ | ⟨c1, c', u, u', hc1, hc', hu, hu', hexp⟩
  · cases hc.symm.trans herror
  · cases hc.symm.trans hc1
    have hnone := hu'.errors.mpr ((resolves_iff hu.fits hu'.fits hexp).mp (hu.codes p hp).1)
    obtain ⟨q, hq⟩ := exists_program hc' hemit hnone
    exact ⟨c', q, hc', hq⟩

end Compile

/-! ### Programs -/

namespace Meaning

/-- Two functions are called in the same way and halt alike: wherever one comes to a return the other
does, with the same value, frame and trace. -/
structure Interchangeable (c c' : FunctionCode) : Prop where
  name : c'.name = c.name
  arity : c'.arity = c.arity
  captures : c'.captures = c.captures
  halts : ∀ (V : Type) (I : Interpretation V) (s : Store V) (v : V) (s₁ : Store V),
    (∃ n, Halts I c.code n ⟨0, [], s⟩ v s₁) ↔ ∃ n, Halts I c'.code n ⟨0, [], s⟩ v s₁

theorem Interchangeable.refl (c : FunctionCode) : Interchangeable c c :=
  ⟨rfl, rfl, rfl, fun _ _ _ _ _ => Iff.rfl⟩

variable {c c' : FunctionCode}

theorem Interchangeable.symm (h : Interchangeable c c') : Interchangeable c' c :=
  ⟨h.name.symm, h.arity.symm, h.captures.symm, fun V I s v s₁ => (h.halts V I s v s₁).symm⟩

theorem interchangeable_of_implements {f f' : Unfolding} (hc : Implements f c)
    (hf : SameFunction f f') (hc' : Implements f' c') : Interchangeable c c' := by
  obtain ⟨⟨name, params, b, lifted, captures, hkind, hname, harity, hcaptures⟩, hhalts⟩ := hc
  obtain ⟨⟨name', params', b', lifted', captures', hkind', hname', harity', hcaptures'⟩, hhalts'⟩ := hc'
  obtain ⟨hsame, hreturns⟩ := hf
  rw [hkind, hkind'] at hsame
  cases hsame
  refine ⟨hname'.trans hname.symm, harity'.trans harity.symm, hcaptures'.trans hcaptures.symm, ?_⟩
  intro V I s v s₁
  rw [← hhalts, hreturns, hhalts']

variable {cs cs' : List FunctionCode}

theorem interchangeable_all {fs fs' : List Unfolding} (hcs : List.Forall₂ Implements fs cs)
    (hfs : List.Forall₂ SameFunction fs fs') (hcs' : List.Forall₂ Implements fs' cs') :
    List.Forall₂ Interchangeable cs cs' := by
  induction hfs generalizing cs cs' with
  | nil =>
    cases hcs
    cases hcs'
    exact .nil
  | cons hf _ ih =>
    obtain ⟨c, cs, hc, hrest, rfl⟩ := forall₂_cons_left_iff.mp hcs
    obtain ⟨c', cs', hc', hrest', rfl⟩ := forall₂_cons_left_iff.mp hcs'
    exact .cons (interchangeable_of_implements hc hf hc') (ih hrest hrest')

theorem interchangeable_symm (h : List.Forall₂ Interchangeable cs cs') :
    List.Forall₂ Interchangeable cs' cs :=
  h.flip.imp fun _ _ h => h.symm

variable {name : String}

theorem exists_find? (h : List.Forall₂ Interchangeable cs cs') (hc : cs.find? (·.name = name) = some c) :
    ∃ c', cs'.find? (·.name = name) = some c' ∧ Interchangeable c c' := by
  induction h with
  | nil => cases hc
  | @cons d d' _ _ hd _ ih =>
    rw [find?_cons] at hc ⊢
    rw [hd.name]
    split at hc
    · cases hc
      exact ⟨d', rfl, hd⟩
    · exact ih hc

theorem halts_function? {p q : Program} (h : List.Forall₂ Interchangeable p.functions q.functions) {V : Type}
    {I : Interpretation V} {s : Store V} {v : V} {s₁ : Store V}
    (hp : ∃ f n, p.function? name = some f ∧ Halts I f.code n ⟨0, [], s⟩ v s₁) :
    ∃ f n, q.function? name = some f ∧ Halts I f.code n ⟨0, [], s⟩ v s₁ := by
  obtain ⟨c, n, hc, hhalts⟩ := hp
  obtain ⟨c', hc', hsame⟩ := exists_find? h hc
  obtain ⟨n', hhalts'⟩ := (hsame.halts V I s v s₁).mp ⟨n, hhalts⟩
  exact ⟨c', n', hc', hhalts'⟩

end Meaning

namespace Compile

open Meaning

variable {file : SourceFile} {o : Options} {c : Compilation}

theorem interchangeable_expandMatches {c' : Compilation} {p q : Program}
    (hc : compile file { o with expandMatches := false } = .ok c) (hp : c.program = some p)
    (hc' : compile file { o with expandMatches := true } = .ok c') (hq : c'.program = some q) :
    List.Forall₂ Interchangeable p.functions q.functions := by
  obtain ⟨t, journal, found, w, journal', hfront, -, hfinish⟩ := stages_of_compile hc
  obtain ⟨-, hresolve⟩ := resolveLocals_of_validate (validate_of_front hfront) (program_of_finish hfinish hp).2.1
  rcases settles_expandMatches file hresolve with ⟨e, herror, -⟩ | ⟨d, d', u, u', hd, hd', hu, hu', hexp⟩
  · cases hc.symm.trans herror
  · cases hc.symm.trans hd
    cases hc'.symm.trans hd'
    obtain ⟨hclean, hcodes⟩ := hu.codes p hp
    obtain ⟨-, hcodes'⟩ := hu'.codes q hq
    have hfits := walker.fits_settle (Capture.walker.fits_settle hu.fits {}) {}
    exact interchangeable_all (hcodes.imp fun _ _ => implements_of_codes)
      (functions_of_expanded (expanded_settled hu.fits hu'.fits hexp hclean) hfits)
      (hcodes'.imp fun _ _ => implements_of_codes)

end Compile

/-- Expanding matches changes nothing about what programs do: the functions of two programs that differ in
this option only are interchangeable one by one, and so the functions of any name halt alike. -/
theorem compile_expandMatches (file : SourceFile) (o : Options) (a b : Bool) {c c' : Compilation}
    {p q : Program} (hc : compile file { o with expandMatches := a } = .ok c)
    (hp : c.program = some p) (hc' : compile file { o with expandMatches := b } = .ok c')
    (hq : c'.program = some q) :
    List.Forall₂ Meaning.Interchangeable p.functions q.functions ∧
    ∀ (name : String) (V : Type) (I : Meaning.Interpretation V) (s : Meaning.Store V) (v : V)
      (s₁ : Meaning.Store V),
      (∃ f n, p.function? name = some f ∧ Meaning.Halts I f.code n ⟨0, [], s⟩ v s₁) ↔
        ∃ f n, q.function? name = some f ∧ Meaning.Halts I f.code n ⟨0, [], s⟩ v s₁ := by
  have hfunctions : List.Forall₂ Meaning.Interchangeable p.functions q.functions := by
    rcases Bool.eq_or_eq_not a b with rfl | rfl
    · obtain rfl := Except.ok.inj (hc.symm.trans hc')
      obtain rfl := Option.some.inj (hp.symm.trans hq)
      exact List.forall₂_same.mpr fun f _ => .refl f
    · cases b with
      | false => exact Meaning.interchangeable_symm (Compile.interchangeable_expandMatches hc' hq hc hp)
      | true => exact Compile.interchangeable_expandMatches hc hp hc' hq
  exact ⟨hfunctions, fun name V I s v s₁ => ⟨Meaning.halts_function? hfunctions,
    Meaning.halts_function? (Meaning.interchangeable_symm hfunctions)⟩⟩

theorem linking_expandMatches :
    ∃ c c' p q, compile linking { expandMatches := true, expandCases := false } = .ok c ∧
      c.program = some p ∧
      compile linking { expandMatches := false, expandCases := false } = .ok c' ∧
      c'.program = some q ∧
      List.Forall₂ Meaning.Interchangeable p.functions q.functions ∧
      ∀ (name : String) (V : Type) (I : Meaning.Interpretation V) (s : Meaning.Store V) (v : V)
        (s₁ : Meaning.Store V),
        (∃ f n, p.function? name = some f ∧ Meaning.Halts I f.code n ⟨0, [], s⟩ v s₁) ↔
          ∃ f n, q.function? name = some f ∧ Meaning.Halts I f.code n ⟨0, [], s⟩ v s₁ := by
  obtain ⟨c', q, hc', hq, -⟩ := linking_compiled
  obtain ⟨c, p, hc, hp⟩ := Compile.exists_program_expandMatches (o := { expandCases := false }) rfl rfl hc' hq
  exact ⟨c, c', p, q, hc, hp, hc', hq,
    compile_expandMatches linking { expandCases := false } true false hc hp hc' hq⟩

end Clausal
