import Clausal.Proofs.Compile.FrameLayout
import Clausal.Proofs.Compile.MatchInvariance
import Clausal.Proofs.Passes.KeptElements
import Clausal.Proofs.Scoping.Mirroring

/-! # Expanding matches keeps names in their places

Whether matches are expanded makes no difference to what is known about names before a program runs: both
compilations of a file have an error or neither has, and if there is none then the functions have the same
frames, and every reference, call and closure is bound to the same slots (`statics_expandMatches`). -/

namespace Clausal

open MatchExpansion List Unfolding Capture

variable {u u' : Unfolding} {t : Tree}

/-! ### Uses of names and frames -/

/-- Kinds that are bound to what a name means: references, calls and closures. -/
def Kind.isUse : Kind → Bool
  | .reference .. | .invocation .. | .closure .. => true
  | _ => false

def Unfolding.uses (u : Unfolding) : List (ElementId × Kind) := u.kept (fun _ => false) Kind.isUse

def Tree.uses (t : Tree) : List (ElementId × Kind) := (t.unfoldRoot.map Unfolding.uses).getD []

theorem Tree.uses_eq (hu : t.unfoldRoot = some u) : t.uses = u.uses := by
  rw [uses, hu]
  rfl

theorem Tree.kind?_of_mem_uses (h : t.Owned) {i : ElementId} {k : Kind} (hmem : (i, k) ∈ t.uses) :
    t.kind? i = some k := by
  unfold uses at hmem
  cases hu : t.unfoldRoot with
  | none =>
    rw [hu] at hmem
    cases hmem
  | some u =>
    rw [hu] at hmem
    exact (h.unfoldRoot_eq_some_iff.mp hu).1.kind?_of_mem (mem_of_mem_filter hmem)

theorem passesBranches_uses : PassesBranches (fun _ => false) Kind.isUse := by
  intro k hk
  cases k <;> first | exact ⟨rfl, rfl⟩ | cases hk

theorem passesBranches_declarations :
    PassesBranches Role.function.accepts Kind.isDeclaration := by
  intro k hk
  cases k <;> first | exact ⟨rfl, rfl⟩ | cases hk

theorem uses_of_expanded (h : Expanded Meaning.Yields u u') : u'.uses = u.uses := by
  refine kept_of_expanded passesBranches_uses (fun hyields => ?_) h
  cases hyields <;> exact ⟨⟨rfl, rfl⟩, fun _ => ⟨rfl, rfl⟩⟩

theorem declarations_of_expanded (h : Expanded Meaning.Yields u u') : u'.declarations = u.declarations := by
  have hkept : kept Role.function.accepts Kind.isDeclaration u' =
      kept Role.function.accepts Kind.isDeclaration u := by
    refine kept_of_expanded passesBranches_declarations (fun hyields => ?_) h
    cases hyields <;> exact ⟨⟨rfl, rfl⟩, fun _ => ⟨rfl, rfl⟩⟩
  have hlength := congrArg length hkept
  unfold kept at hlength
  rwa [← countP_eq_length_filter, ← countP_eq_length_filter] at hlength

/-- What can be seen of a function from outside, and the size of its frame. -/
def FunctionCode.header (c : FunctionCode) : String × Nat × Nat × Nat :=
  (c.name, c.arity, c.captures, c.locals)

/-- What a function with its name, parameters, captures and declarations needs. -/
def Unfolding.header (f : Unfolding) : String × Nat × Nat × Nat :=
  match f.kind with
  | .function name params _ _ captures =>
    (name, params.length, captures.length,
      captures.length + params.length + (f.children.map declarations).sum)
  | _ => ("", 0, 0, 0)

theorem Framed.header_eq {f : Unfolding} {c : FunctionCode} (h : Framed f c) : c.header = f.header := by
  cases h with
  | function hname harity hcaptures hlocals _ _ =>
    simp [FunctionCode.header, Unfolding.header, Unfolding.kind, Unfolding.children, hname, harity,
      hcaptures, hlocals]

theorem map_eq_of_forall₂ {α β γ : Type} {g : α → γ} {g' : β → γ} {as : List α} {bs : List β}
    (h : Forall₂ (fun a b => g a = g' b) as bs) : as.map g = bs.map g' := by
  rwa [← forall₂_eq_eq_eq, forall₂_map_left_iff, forall₂_map_right_iff]

theorem headers_of_expanded (hu : u.Fits) (h : Expanded Meaning.Yields u u') :
    u.functions.map Unfolding.header = u'.functions.map Unfolding.header := by
  refine map_eq_of_forall₂
    (functions_of_expanded (fun h => h.isStep) (fun {i k o us us'} _ _ hparts => ?_) h hu)
  have hparts : us.map Unfolding.declarations = us'.map Unfolding.declarations :=
    map_eq_of_forall₂ (hparts.imp fun _ _ hpart => (declarations_of_expanded hpart).symm)
  simp only [Unfolding.header, Unfolding.kind, Unfolding.children, hparts]

/-! ### Compilations -/

namespace Compile

variable {c : Compilation} {v : Unfolding}

theorem Settles.uses_eq (h : Settles c v) : c.tree.uses = v.settled.uses := by
  obtain ⟨t, hroot, halike⟩ := h.tree
  rw [← Tree.uses_eq hroot]
  rcases halike with rfl | halike
  · rfl
  · obtain ⟨v1, v2, hv1, hv2, hcases⟩ := halike.expanded
    rw [Tree.uses_eq hv1, Tree.uses_eq hv2]
    exact CaseExpansion.kept_of_expanded passesBranches_uses hcases

theorem Settles.headers_eq (h : Settles c v) {p : Program} (hp : c.program = some p) :
    p.functions.map FunctionCode.header = v.settled.functions.map Unfolding.header := by
  obtain ⟨hclean, hcodes⟩ := h.codes p hp
  have hframed := framed_all (Capture.walker.fits_settle h.fits {}) hclean hcodes
  exact (map_eq_of_forall₂ (hframed.imp fun _ _ h => h.header_eq.symm)).symm

end Compile

/-- Two compilations agree in all that is known before a program runs: both have errors or neither has, and
if there are none then references, calls and closures are the same elements with the same bindings, and the
functions have the same names, arities, captures and frames. -/
structure SameStatics (c c' : Compilation) : Prop where
  hasErrors : c'.hasErrors = c.hasErrors
  uses : c.hasErrors = false → c'.tree.uses = c.tree.uses
  bindings : c.hasErrors = false → ∀ i k, (i, k) ∈ c.tree.uses →
    c.tree.kind? i = some k ∧ c'.tree.kind? i = some k
  functions : ∀ p q, c.program = some p → c'.program = some q →
    q.functions.map FunctionCode.header = p.functions.map FunctionCode.header

namespace SameStatics

variable {c c' : Compilation}

theorem of_uses (howned : c.tree.Owned) (howned' : c'.tree.Owned) (herrors : c'.hasErrors = c.hasErrors)
    (huses : c.hasErrors = false → c'.tree.uses = c.tree.uses)
    (hfunctions : ∀ p q, c.program = some p → c'.program = some q →
      q.functions.map FunctionCode.header = p.functions.map FunctionCode.header) : SameStatics c c' := by
  refine ⟨herrors, huses, fun hnone i k hmem => ⟨Tree.kind?_of_mem_uses howned hmem, ?_⟩, hfunctions⟩
  rw [← huses hnone] at hmem
  exact Tree.kind?_of_mem_uses howned' hmem

theorem refl (howned : c.tree.Owned) : SameStatics c c :=
  of_uses howned howned rfl (fun _ => rfl) fun p q hp hq => by
    rw [hp] at hq
    cases hq
    rfl

theorem symm (howned : c.tree.Owned) (howned' : c'.tree.Owned) (h : SameStatics c c') :
    SameStatics c' c :=
  of_uses howned' howned h.hasErrors.symm (fun hnone => (h.uses (h.hasErrors.symm.trans hnone)).symm)
    fun p q hp hq => (h.functions q p hq hp).symm

end SameStatics

namespace Compile

/-- A file that is refused without matches expanded is refused with them, for the same reason; one that is
not is compiled with the same static result. -/
theorem sameStatics_expandMatches (file : SourceFile) {o : Options} (hresolve : o.resolveLocals = true) :
    (∃ e, compile file { o with expandMatches := false } = .error e ∧
      compile file { o with expandMatches := true } = .error e) ∨
    ∃ c c', compile file { o with expandMatches := false } = .ok c ∧
      compile file { o with expandMatches := true } = .ok c' ∧ c.tree.Owned ∧ c'.tree.Owned ∧
      SameStatics c c' := by
  rcases settles_expandMatches file hresolve with herror | ⟨c, c', u, u', hc, hc', hu, hu', hexp⟩
  · exact .inl herror
  · have hiff := resolves_iff hu.fits hu'.fits hexp
    have hsettled := expanded_settled hu.fits hu'.fits hexp
    refine .inr ⟨c, c', hc, hc', hu.owned, hu'.owned, .of_uses hu.owned hu'.owned ?_ ?_ fun p q hp hq => ?_⟩
    · rw [Bool.eq_iff_iff, ← not_iff_not, Bool.not_eq_true, Bool.not_eq_true, hu'.errors, hu.errors, hiff]
    · intro hnone
      rw [hu.uses_eq, hu'.uses_eq]
      exact uses_of_expanded (hsettled (hu.errors.mp hnone))
    · rw [hu.headers_eq hp, hu'.headers_eq hq]
      exact (headers_of_expanded (Resolution.walker.fits_settle (Capture.walker.fits_settle hu.fits {}) {})
        (hsettled (hu.codes p hp).1)).symm

end Compile

/-- Expanding matches changes nothing that is known before a program runs: a file is refused with the same
error, or both compilations agree in their errors, their bindings and their frames. -/
theorem statics_expandMatches (file : SourceFile) (o : Options) (hresolve : o.resolveLocals = true)
    (a b : Bool) :
    (∃ e, compile file { o with expandMatches := a } = .error e ∧
      compile file { o with expandMatches := b } = .error e) ∨
    ∃ c c', compile file { o with expandMatches := a } = .ok c ∧
      compile file { o with expandMatches := b } = .ok c' ∧ SameStatics c c' := by
  rcases Compile.sameStatics_expandMatches file hresolve with
    ⟨e, herror, herror'⟩ | ⟨c, c', hc, hc', howned, howned', hsame⟩
  · cases a <;> cases b <;> exact .inl ⟨e, ‹_›, ‹_›⟩
  · cases a <;> cases b
    · exact .inr ⟨c, c, hc, hc, .refl howned⟩
    · exact .inr ⟨c, c', hc, hc', hsame⟩
    · exact .inr ⟨c', c, hc', hc, hsame.symm howned howned'⟩
    · exact .inr ⟨c', c', hc', hc', .refl howned'⟩

theorem linking_statics :
    ∃ c c' p q, compile linking { expandMatches := true, expandCases := false } = .ok c ∧
      c.program = some p ∧ compile linking { expandMatches := false, expandCases := false } = .ok c' ∧
      c'.program = some q ∧ SameStatics c c' := by
  obtain ⟨c', q, hc', hq, -⟩ := linking_compiled
  obtain ⟨c, p, hc, hp⟩ := Compile.exists_program_expandMatches (o := { expandCases := false }) rfl rfl hc' hq
  rcases statics_expandMatches linking { expandCases := false } rfl true false with
    ⟨e, herror, -⟩ | ⟨d, d', hd, hd', hsame⟩
  · cases hc.symm.trans herror
  · cases hc.symm.trans hd
    cases hc'.symm.trans hd'
    exact ⟨c, c', p, q, hc, hp, hc', hq, hsame⟩

end Clausal
