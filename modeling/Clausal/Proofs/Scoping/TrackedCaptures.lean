import Clausal.Proofs.Scoping.Settling
import Clausal.Proofs.Scoping.Tracking

/-! # Captures and expanded matches

Closure capture finds the same in an unfolding and in the expansion of its matches, provided that each
assignment which declares nothing has its target in the function around it (`Capture.Owns`).  The frames of
the two walks may differ in blocks that declare nothing (`CaptureFrame.Near`). -/

namespace Clausal

open MatchExpansion Scoping List

namespace CaptureFrame

/-- Two frames know the same names, though one may have more blocks open. -/
structure Near (f f' : CaptureFrame) : Prop where
  free : f'.free = f.free
  declares : ∀ x, f'.declares x = f.declares x
  opened : f.scopes ≠ [] ∧ f'.scopes ≠ []

variable {f f' : CaptureFrame}

theorem declares_declare (h : f.scopes ≠ []) (x y : String) :
    (f.declare x).declares y = (f.declares y || decide (y = x)) := by
  obtain ⟨s, ss, hs⟩ := exists_cons_of_ne_nil h
  unfold declare declares
  rw [hs]
  simp only [any_cons, contains_eq_mem, mem_append, mem_singleton,
    Bool.decide_or, Bool.or_assoc]
  rw [Bool.or_comm (decide (y = x))]

theorem scopes_declare_ne_nil (h : f.scopes ≠ []) (x : String) : (f.declare x).scopes ≠ [] := by
  obtain ⟨s, ss, hs⟩ := exists_cons_of_ne_nil h
  simp [declare, hs]

theorem free_declare (f : CaptureFrame) (x : String) : (f.declare x).free = f.free := by
  unfold declare
  split <;> rfl

theorem Near.use (h : f.Near f') (x : String) : (f.use x).Near (f'.use x) := by
  unfold CaptureFrame.use
  rw [h.declares, h.free]
  split_ifs
  · exact h
  · exact ⟨rfl, h.declares, h.opened⟩

theorem Near.declare (h : f.Near f') (x : String) : (f.declare x).Near (f'.declare x) := by
  refine ⟨?_, fun y => ?_, scopes_declare_ne_nil h.opened.1 x, scopes_declare_ne_nil h.opened.2 x⟩
  · rw [free_declare, free_declare, h.free]
  · rw [declares_declare h.opened.1, declares_declare h.opened.2, h.declares]

theorem declares_open (f : CaptureFrame) (x : String) :
    ({ f with scopes := [] :: f.scopes } : CaptureFrame).declares x = f.declares x := by
  simp [CaptureFrame.declares]

theorem any_declares {fs fs' : List CaptureFrame} (h : Forall₂ Near fs fs') (x : String) :
    fs'.any (·.declares x) = fs.any (·.declares x) := by
  induction h with
  | nil => rfl
  | cons hf _ ih => rw [any_cons, any_cons, hf.declares, ih]

end CaptureFrame

namespace Capture

variable {c c' : Capture} {us us' : List Unfolding} {x : String} {v : Unfolding} {i : ElementId} {k : Kind}
  {o : Origin}

def Near (c c' : Capture) : Prop := Forall₂ CaptureFrame.Near c.frames c'.frames

theorem near_of_nil (hc : c.frames = []) (hc' : c'.frames = []) : c.Near c' := by
  rw [Near, hc, hc']
  exact .nil

theorem Near.modifyTop (h : c.Near c') {g g' : CaptureFrame → CaptureFrame}
    (hg : ∀ {f f'}, CaptureFrame.Near f f' → (g f).Near (g' f')) :
    (c.modifyTop g).Near (c'.modifyTop g') := by
  rcases (forall₂_iff _ _ _).mp h with ⟨hc, hc'⟩ | ⟨f, f', fs, fs', hf, hfs, hc, hc'⟩
  · simp only [Capture.modifyTop, hc, hc']
    exact h
  · rw [Near, frames_modifyTop hc, frames_modifyTop hc']
    exact .cons (hg hf) hfs

theorem Near.use (h : c.Near c') (x : String) : (c.use x).Near (c'.use x) :=
  h.modifyTop fun hf => hf.use x

theorem Near.foldl_use (h : c.Near c') (names : List String) :
    (names.foldl Capture.use c).Near (names.foldl Capture.use c') := by
  induction names generalizing c c' with
  | nil => exact h
  | cons x names ih => exact ih (h.use x)

theorem Near.useCallee (h : c.Near c') (x : String) : (c.useCallee x).Near (c'.useCallee x) := by
  rcases (forall₂_iff _ _ _).mp h with ⟨hc, hc'⟩ | ⟨f, f', fs, fs', hf, hfs, hc, hc'⟩
  · simp only [Capture.useCallee, hc, hc']
    exact h
  · rw [Near, frames_useCallee hc, frames_useCallee hc', hf.declares, CaptureFrame.any_declares hfs]
    split_ifs
    · exact .cons (hf.use x) hfs
    · exact .cons hf hfs

theorem Near.enter (h : c.Near c') (params : List String) : (c.enter params).Near (c'.enter params) :=
  .cons ⟨rfl, fun _ => rfl, by simp, by simp⟩ h

theorem Near.openScope (h : c.Near c') : c.openScope.Near c'.openScope :=
  h.modifyTop fun {f f'} hf => by
    refine ⟨hf.free, fun x => ?_, by simp, by simp⟩
    rw [f.declares_open, f'.declares_open, hf.declares]

theorem Near.openScope_right (h : c.Near c') : c.Near c'.openScope := by
  rcases (forall₂_iff _ _ _).mp h with ⟨hc, hc'⟩ | ⟨f, f', fs, fs', hf, hfs, hc, hc'⟩
  · exact near_of_nil hc (by simp only [Capture.openScope, Capture.modifyTop, hc'])
  · rw [Near, hc, Capture.openScope, frames_modifyTop hc']
    refine .cons ⟨hf.free, fun x => ?_, hf.opened.1, by simp⟩ hfs
    rw [f'.declares_open, hf.declares]

theorem Near.leave (h : c.Near c') (i : ElementId) (lifted : Bool) :
    (c.leave i lifted).Near (c'.leave i lifted) ∧ c.captured? = c'.captured? := by
  rcases (forall₂_iff _ _ _).mp h with ⟨hc, hc'⟩ | ⟨f, f', fs, fs', hf, hfs, hc, hc'⟩
  · simp only [Capture.leave, captured?, hc, hc']
    exact ⟨h, trivial⟩
  · have hnames : (f'.free.filter fun x => fs'.any (·.declares x)) =
        f.free.filter fun x => fs.any (·.declares x) := by
      simp only [hf.free, CaptureFrame.any_declares hfs]
    refine ⟨?_, by simp only [captured?, hc, hc', hnames]⟩
    cases lifted with
    | false =>
      rw [leave_function hc, leave_function hc']
      exact hfs
    | true =>
      have hleave : ∀ {c : Capture} {f : CaptureFrame} {fs : List CaptureFrame}, c.frames = f :: fs →
          (c.leave i true).frames = ((f.free.filter fun x => fs.any (·.declares x)).foldl
            Capture.use { c with frames := fs }).frames := by
        intro c f fs hc
        rw [Capture.leave, hc]
        rfl
      have hrest : ({ c with frames := fs } : Capture).Near { c' with frames := fs' } := hfs
      rw [Near, hleave hc, hleave hc', hnames]
      exact hrest.foldl_use _

theorem frames_closeScope (hus : ∀ u ∈ us, u.Fits) {f : CaptureFrame} {fs : List CaptureFrame}
    (hc : c.frames = f :: fs) :
    ∃ g, (visitAll c.openScope us).frames = g :: fs ∧ g.scopes = ((declared us).map Prod.fst) :: f.scopes ∧
      (visitAll c.openScope us).closeScope.frames = { g with scopes := f.scopes } :: fs := by
  have hopen : c.openScope.frames = { f with scopes := [] :: f.scopes } :: fs := frames_modifyTop hc _
  obtain ⟨g, hg, hscopes, -⟩ := passed_of_fits hus hopen
  refine ⟨g, hg, hscopes, ?_⟩
  have htail : g.scopes.tail = f.scopes := by
    rw [hscopes]
    rfl
  rw [Capture.closeScope, frames_modifyTop hg, htail]

theorem frames_closeScope_nil (hus : ∀ u ∈ us, u.Fits) (hc : c.frames = []) :
    (visitAll c.openScope us).closeScope.frames = [] := by
  have hopen : c.openScope.frames = [] := by simp only [Capture.openScope, Capture.modifyTop, hc]
  have hall := frames_visitAll_nil hus hopen
  simp only [Capture.closeScope, Capture.modifyTop, hall]

theorem Near.closeScope (h : c.Near c') (hus : ∀ u ∈ us, u.Fits)
    (hus' : ∀ u ∈ us', u.Fits) (hbelow : (visitAll c.openScope us).Near (visitAll c'.openScope us')) :
    (visitAll c.openScope us).closeScope.Near (visitAll c'.openScope us').closeScope := by
  rcases (forall₂_iff _ _ _).mp h with ⟨hc, hc'⟩ | ⟨f, f', fs, fs', hf, hfs, hc, hc'⟩
  · exact near_of_nil (frames_closeScope_nil hus hc) (frames_closeScope_nil hus' hc')
  · obtain ⟨g, hg, -, hclosed⟩ := frames_closeScope hus hc
    obtain ⟨g', hg', -, hclosed'⟩ := frames_closeScope hus' hc'
    rw [Near, hg, hg', forall₂_cons] at hbelow
    rw [Near, hclosed, hclosed']
    exact .cons ⟨hbelow.1.free, hf.declares, hf.opened⟩ hfs

theorem Near.closeScope_right {c0 : Capture} (h0 : c0.Near c') {u : Unfolding} (hu : u.Fits)
    (hquiet : declares u = none) (h : c.Near (visit c'.openScope u)) :
    c.Near (visit c'.openScope u).closeScope := by
  have hus : ∀ v ∈ [u], v.Fits := fun v hv => mem_singleton.mp hv ▸ hu
  rcases (forall₂_iff _ _ _).mp h0 with ⟨-, hc'⟩ | ⟨f0, f', fs0, fs', hf, -, -, hc'⟩
  · have hopen : c'.openScope.frames = [] := by
      simp only [Capture.openScope, Capture.modifyTop, hc']
    have hvisit := frames_visit_nil hu hopen
    simp only [Capture.closeScope, Capture.modifyTop, hvisit]
    exact h
  · obtain ⟨g, hg, hscopes, hclosed⟩ := frames_closeScope hus hc'
    have hnone : declared [u] = [] := by simp [declared, hquiet]
    rw [hnone, map_nil] at hscopes
    have hg : (visit c'.openScope u).frames = g :: fs' := hg
    have hclosed : (visit c'.openScope u).closeScope.frames = { g with scopes := f'.scopes } :: fs' := hclosed
    rw [Near, hg] at h
    obtain ⟨f1, fs1, hnear, hfs, hc1⟩ := forall₂_cons_right_iff.mp h
    rw [Near, hclosed, hc1]
    refine .cons ⟨hnear.free, fun x => ?_, hnear.opened.1, hf.opened.2⟩ hfs
    rw [← hnear.declares x]
    simp [CaptureFrame.declares, hscopes]

/-! ### Targets -/

def Targets (c : Capture) (x : String) : Prop :=
  ∃ f fs, c.frames = f :: fs ∧ f.declares x = true

/-- An assignment that declares nothing has its target in the function around it. -/
def Owns (c : Capture) (u : Unfolding) : Prop :=
  ∀ x v b f, u.kind = .assignment x none v b f → (walker.below c u).Targets x

theorem Targets.use (h : c.Targets x) : c.use x = c := by
  obtain ⟨f, fs, hc, hf⟩ := h
  obtain ⟨frames, results⟩ := c
  obtain rfl : frames = f :: fs := hc
  simp [Capture.use, Capture.modifyTop, CaptureFrame.use, hf]

theorem Near.targets (h : c.Near c') (hx : c.Targets x) : c'.Targets x := by
  obtain ⟨f, fs, hc, hf⟩ := hx
  rcases (forall₂_iff _ _ _).mp h with ⟨hc0, -⟩ | ⟨f0, f', fs0, fs', hnear, -, hc0, hc'⟩
  · rw [hc] at hc0
    cases hc0
  · rw [hc] at hc0
    cases hc0
    exact ⟨f', fs', hc', by rw [hnear.declares, hf]⟩

theorem targets_visit_iff (hv : v.Fits) (hquiet : declares v = none) :
    (visit c v).Targets x ↔ c.Targets x := by
  cases hc : c.frames with
  | nil =>
    have hvisit := frames_visit_nil hv hc
    simp [Targets, hc, hvisit]
  | cons f fs =>
    obtain ⟨g, hg, hscopes, -⟩ := passed_visit hv hc
    have hnone : declared [v] = [] := by simp [declared, hquiet]
    rw [hnone, map_nil, CaptureFrame.extend_nil] at hscopes
    simp [Targets, hc, hg, CaptureFrame.declares, hscopes]

/-- What becomes of statements that take a value: nothing, but their target has to be known. -/
def Drains (c : Capture) (make make' : ElementId → Kind) : Prop :=
  make' = make ∧ ∃ sink : Sink, (make = fun x => sink.statement x) ∧
    ∀ x initializer, sink = .assign x initializer → c.Targets x

theorem Near.walker_leave {k' : Kind} (hu : Unfolding.Fits (.node i k o us))
    (hu' : Unfolding.Fits (.node i k' o us')) (h : c.Near c') (hakin : k.Akin k')
    (hbelow : (walker.below c (.node i k o us)).Near (walker.below c' (.node i k' o us'))) :
    (visit c (.node i k o us)).Near (visit c' (.node i k' o us')) ∧
      walker.own c (walker.below c (.node i k o us)) (.node i k o us) =
        walker.own c' (walker.below c' (.node i k' o us')) (.node i k' o us') := by
  rw [walker_below, walker_below] at hbelow ⊢
  rcases hakin with rfl | ⟨ids, ids', rfl, rfl⟩
  · cases k' with
    | function name params b lifted captures =>
      obtain ⟨hleave, hcaptured⟩ := hbelow.leave i lifted
      refine ⟨by rwa [visit, visit], ?_⟩
      cases lifted with
      | false => rfl
      | true => exact congrArg (Option.map Mark.captures) hcaptured
    | block ids => exact ⟨h.closeScope hu.child hu'.child hbelow, rfl⟩
    | assignment x d value b initializer =>
      cases d with
      | none => exact ⟨hbelow.use x, rfl⟩
      | some d => exact ⟨hbelow.modifyTop fun hf => hf.declare x, rfl⟩
    | reference x b => exact ⟨h.use x, rfl⟩
    | _ =>
      simp only [visit]
      exact ⟨hbelow, rfl⟩
  · exact ⟨h.closeScope hu.child hu'.child hbelow, rfl⟩

theorem takes_of_drains {make : ElementId → Kind} (hu : Unfolding.Fits (.node i k o [v]))
    (hsame : MatchExpansion.Drains k make) (howns : Owns c (.node i k o [v])) :
    (∀ t, (walker.visit c v).Near t → (walker.visit c (.node i k o [v])).Near t) ∧
    ∃ make', c.Drains make make' ∧
      MatchExpansion.Drains (Mark.settle (walker.own c (walker.visit c v) (.node i k o [v])) k) make' := by
  have hv := hsame.isExpression hu
  obtain ⟨sink, hk, rfl⟩ := hsame
  cases k with
  | assignment x d value b initializer =>
    cases d with
    | some d => cases hk
    | none =>
      cases hk
      have htarget : (visit c v).Targets x := howns x value b initializer rfl
      refine ⟨fun t ht => ?_, _, ⟨rfl, _, rfl, fun y f heq => ?_⟩, _, rfl, rfl⟩
      · have huse : walker.visit c (.node i (.assignment x none value b initializer) o [v]) =
          walker.visit c v := htarget.use
        rwa [huse]
      · cases heq
        exact (targets_visit_iff (hu.child _ (.head _)) (declares_of_isExpression hv)).mp htarget
  | returns value =>
    cases value with
    | none => cases hk
    | some value =>
      cases hk
      exact ⟨fun t ht => ht, _, ⟨rfl, _, rfl, nofun⟩, _, rfl, rfl⟩
  | _ => cases hk

theorem walker_tracks : walker.Tracks Owns Near Drains MatchExpansion.Drains MatchExpansion.Drains where
  enter {c c' i k k' o us us'} hs hakin _ := by
    rcases hakin with rfl | ⟨ids, ids', rfl, rfl⟩
    · cases k' with
      | function name params b lifted captures => exact hs.enter params
      | block ids => exact hs.openScope
      | invocation x arguments target => exact hs.useCallee x
      | _ => exact hs
    · exact hs.openScope
  leave hu hu' hs hakin _ _ _ hbelow := hs.walker_leave hu hu' hakin hbelow
  branch {i k o us} hk c := by
    have hfold : us.foldl walker.visit c = visitAll c us := (visitAll_eq_foldl _ _).symm
    rw [hfold]
    cases k <;> first | (cases hk; done) | exact ⟨rfl, rfl, fun _ => rfl⟩
  opens hs := ⟨hs.openScope_right, fun _ => rfl⟩
  closes hu hquiet hs hvisit := hs.closeScope_right (hu.child _ (.head _)) hquiet hvisit
  takes hu hsame howns := takes_of_drains hu hsame howns
  gives {c c' i x make make' o v} hdrains hvisit := by
    obtain ⟨rfl, sink, rfl, htarget⟩ := hdrains
    cases sink with
    | returns => exact ⟨hvisit, rfl⟩
    | assign y initializer =>
      refine ⟨?_, rfl⟩
      have hy := hvisit.targets (htarget y initializer rfl)
      have huse : walker.visit c' (.node i (.assignment y none x none initializer) o [v]) =
        walker.visit c' v := hy.use
      rwa [← huse] at hvisit
  steady hv hve hdrains :=
    ⟨hdrains.1, hdrains.2.imp fun sink h => ⟨h.1, fun x initializer heq =>
      (targets_visit_iff hv (declares_of_isExpression hve)).mpr (h.2 x initializer heq)⟩⟩
  quiet {c make make' i x o us} hdrains := by
    obtain ⟨rfl, sink, rfl, -⟩ := hdrains
    cases sink <;> rfl

end Capture

end Clausal
