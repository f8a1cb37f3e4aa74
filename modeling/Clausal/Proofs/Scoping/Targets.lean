import Clausal.Proofs.Scoping.TrackedCaptures
import Clausal.Proofs.Scoping.TrackedSlots

/-! # Targets of assignments

Where name resolution has no error to report, each assignment that declares nothing has its target in the
function around it: it does not write what a closure has captured. -/

namespace Clausal

open Scoping Resolution

namespace Frame

variable {kind : BindingKind} {constant : Bool} {x : String} {s : Symbol} {f : Frame}

theorem declare_error {g : Frame} {refusal : Refusal} (h : f.declare kind constant x = (g, .error refusal)) :
    g = f := by
  obtain ⟨function, scopes, n⟩ := f
  cases scopes with
  | nil =>
    cases h
    rfl
  | cons scope outer =>
    rw [declare] at h
    split_ifs at h
    · cases h
      rfl
    · cases h
      rfl
    · cases h

theorem lookup_declareAll {names : List String} {refused : Array (String × Refusal)}
    (h : (declareAll kind constant refused names f).1.lookup x = some s) :
    f.lookup x = some s ∨ s.binding.kind = kind ∧ x ∈ names := by
  induction names generalizing refused f with
  | nil => exact .inl h
  | cons y names ih =>
    rw [declareAll] at h
    split at h
    · rename_i g b heq
      obtain ⟨hb, -, -, hlookup⟩ := declare_ok heq
      rcases ih h with hg | ⟨hkind, hx⟩
      · rw [hlookup] at hg
        split_ifs at hg with hxy
        · cases hg
          exact .inr ⟨by rw [hb], by rw [hxy]; exact .head _⟩
        · exact .inl hg
      · exact .inr ⟨hkind, .tail _ hx⟩
    · rename_i g refusal heq
      obtain rfl := declare_error heq
      exact (ih h).imp_right fun hx => ⟨hx.1, .tail _ hx.2⟩

theorem mem_params_of_lookup_enter {function : String} {captures params : List String}
    (h : (enter function captures params).1.lookup x = some s) (hs : s.binding.kind ≠ .captured) :
    x ∈ params := by
  rcases lookup_declareAll h with h | ⟨-, hx⟩
  · rcases lookup_declareAll h with h | ⟨hkind, -⟩
    · simp [Frame.lookup] at h
    · exact absurd hkind hs
  · exact hx

end Frame

namespace Capture

variable {c c' : Capture} {r r' : Resolution} {u : Unfolding}

/-- What resolution finds in the innermost frame is declared there, unless it has been captured. -/
structure Covers (c : Capture) (r : Resolution) : Prop where
  opened : r.frames ≠ [] → ∃ f fs, c.frames = f :: fs ∧ f.scopes ≠ []
  targets : ∀ {x s}, r.lookup x = some s → s.binding.kind ≠ .captured → c.Targets x

theorem Covers.mono (h : c.Covers r) (hopen : r'.frames ≠ [] → r.frames ≠ [])
    (hlookup : ∀ x, r'.lookup x = r.lookup x)
    (hc : ∀ {f fs}, c.frames = f :: fs → ∃ f' fs', c'.frames = f' :: fs' ∧
      (f.scopes ≠ [] → f'.scopes ≠ []) ∧ ∀ x, f'.declares x = f.declares x) : c'.Covers r' := by
  refine ⟨fun hne => ?_, fun {x s} hx hs => ?_⟩
  · obtain ⟨f, fs, hf, hscopes⟩ := h.opened (hopen hne)
    obtain ⟨f', fs', hf', hscopes', -⟩ := hc hf
    exact ⟨f', fs', hf', hscopes' hscopes⟩
  · rw [hlookup] at hx
    obtain ⟨f, fs, hf, hdeclares⟩ := h.targets hx hs
    obtain ⟨f', fs', hf', -, hdeclares'⟩ := hc hf
    exact ⟨f', fs', hf', by rw [hdeclares', hdeclares]⟩

theorem Covers.of_frames (h : c.Covers r) (hr : r'.frames = r.frames) : c.Covers r' := by
  refine h.mono (by rw [hr]; exact id) (fun x => ?_) fun hf => ⟨_, _, hf, id, fun _ => rfl⟩
  rw [Resolution.lookup, hr, Resolution.lookup]

theorem covers_enter (c : Capture) (r : Resolution) (o : Origin) (name : String)
    (captures params : List String) :
    (c.enter params).Covers (r.enter o name captures params) := by
  refine ⟨fun _ => ⟨_, _, rfl, by simp⟩, fun {x s} hx hs => ⟨_, _, rfl, ?_⟩⟩
  rw [Resolution.lookup, frames_enter, List.head?_cons, Option.bind_some] at hx
  simpa [CaptureFrame.declares] using Frame.mem_params_of_lookup_enter hx hs

theorem Covers.openScope (h : c.Covers r) : c.openScope.Covers r.openScope := by
  refine h.mono ?_ ?_ fun {f fs} hf => ⟨_, _, frames_modifyTop hf _, by simp, f.declares_open⟩
  · intro hne hr
    exact hne (by simp only [Resolution.openScope, Resolution.modifyTop, hr])
  · intro x
    cases hr : r.frames with
    | nil => simp only [Resolution.lookup, Resolution.openScope, Resolution.modifyTop, hr]
    | cons f fs =>
      rw [Resolution.lookup, Resolution.openScope, Resolution.frames_modifyTop hr, Resolution.lookup, hr]
      exact f.lookup_open x

theorem Covers.useCallee (h : c.Covers r) (x : String) : (c.useCallee x).Covers r := by
  refine h.mono id (fun _ => rfl) fun {f fs} hf => ⟨_, _, frames_useCallee hf x, ?_⟩
  have hscopes : (if !f.declares x && fs.any (·.declares x) then f.use x else f).scopes = f.scopes := by
    split_ifs
    · exact f.scopes_use x
    · rfl
  simp only [CaptureFrame.declares] at hscopes ⊢
  rw [hscopes]
  exact ⟨id, fun _ => rfl⟩

theorem Covers.visit_quiet {u' : Unfolding} (hu : u.Fits) (hu' : u'.Fits) (hquiet : declares u = none)
    (hquiet' : declares u' = none) (h : c.Covers r) : (visit c u).Covers (Resolution.visit r u') := by
  have hkeeps := (keeps_visit hu' r).2 hquiet'
  refine h.mono ?_ hkeeps.lookup fun {f fs} hf => ?_
  · intro hne hr
    rcases hkeeps.frames with ⟨-, hnil⟩ | ⟨f, -, fs, hf, -⟩
    · exact hne hnil
    · rw [hr] at hf
      cases hf
  · obtain ⟨g, hg, hscopes, -⟩ := passed_visit hu hf
    have hnone : declared [u] = [] := by simp [declared, hquiet]
    rw [hnone, List.map_nil, CaptureFrame.extend_nil] at hscopes
    refine ⟨g, fs, hg, by rw [hscopes]; exact id, fun x => ?_⟩
    rw [CaptureFrame.declares, hscopes, CaptureFrame.declares]

theorem Covers.declare (h : c.Covers r) {i : ElementId} {o : Origin} {x : String} {d : Declaration}
    (hclean : (r.declareLocal i o x d).Clean) :
    (c.modifyTop (·.declare x)).Covers (r.declareLocal i o x d) := by
  obtain ⟨g, gs, g', b, hr, hdeclare⟩ := exists_declare hclean.declareLocal
  obtain ⟨f, fs, hf, hscopes⟩ := h.opened (by rw [hr]; exact List.cons_ne_nil _ _)
  have hframes : (c.modifyTop (·.declare x)).frames = f.declare x :: fs := frames_modifyTop hf _
  have hframes' : (r.declareLocal i o x d).frames = g' :: gs := by
    simp only [declareLocal, hr, hdeclare]
    rfl
  refine ⟨fun _ => ⟨_, _, hframes, f.scopes_declare_ne_nil hscopes x⟩, fun {y s} hy hs => ?_⟩
  refine ⟨_, _, hframes, ?_⟩
  rw [f.declares_declare hscopes, Bool.or_eq_true, decide_eq_true_eq]
  rw [Resolution.lookup, hframes', List.head?_cons, Option.bind_some, (Frame.declare_ok hdeclare).2.2.2] at hy
  split_ifs at hy with hxy
  · exact .inr hxy.symm
  · have hlookup : r.lookup y = some s := by
      rw [Resolution.lookup, hr]
      exact hy
    obtain ⟨f0, fs0, hf0, hdeclares⟩ := h.targets hlookup hs
    rw [hf] at hf0
    cases hf0
    exact .inl hdeclares

theorem declares_settle (hu : declares u = none) (c : Capture) : declares (walker.settle c u) = none := by
  obtain ⟨i, k, o, us⟩ := u
  rw [Walker.settle]
  generalize walker.own c (walker.below c (.node i k o us)) (.node i k o us) = own
  cases k with
  | assignment x d value b initializer =>
    cases d with
    | some d => cases hu
    | none =>
      cases own with
      | none => rfl
      | some a => cases a <;> rfl
  | _ =>
    cases own with
    | none => rfl
    | some a => cases a <;> rfl

theorem Covers.visit (hu : u.Fits) (h : c.Covers r) (hclean : (Resolution.visit r (walker.settle c u)).Clean) :
    (visit c u).Covers (Resolution.visit r (walker.settle c u)) := by
  cases hd : declares u with
  | none => exact h.visit_quiet hu (walker.fits_settle hu c) hd (declares_settle hd c)
  | some d =>
    obtain ⟨i, k, o, us⟩ := u
    cases k with
    | assignment x d value b initializer =>
      cases d with
      | none => cases hd
      | some d =>
        obtain ⟨v, rfl, hv, hexpr⟩ := hu.one rfl
        have hquiet := declares_of_isExpression hexpr
        have hsettle : walker.settle c (.node i (.assignment x (some d) value b initializer) o [v]) =
            .node i (.assignment x (some d) value b initializer) o [walker.settle c v] :=
          Walker.Tracks.settle_one rfl
        rw [hsettle] at hclean ⊢
        exact (h.visit_quiet hv (walker.fits_settle hv c) hquiet (declares_settle hquiet c)).declare hclean
    | _ => cases hd

theorem covers_all {us : List Unfolding} (hus : ∀ u ∈ us, u.Fits)
    (ih : ∀ u ∈ us, ∀ {c : Capture} {r : Resolution}, c.Covers r →
      (Resolution.visit r (walker.settle c u)).Clean → walker.Each Owns c u)
    (h : c.Covers r) (hinner : ∀ v ∈ walker.settleAll c us, v.Inner)
    (hclean : (Resolution.visitAll r (walker.settleAll c us)).Clean) :
    walker.EachAll Owns c us ∧ (visitAll c us).Covers (Resolution.visitAll r (walker.settleAll c us)) := by
  induction us generalizing c r with
  | nil =>
    rw [Walker.settleAll]
    exact ⟨fun before u after heq => by simp at heq, h⟩
  | cons u us ihus =>
    rw [Walker.settleAll] at hinner hclean ⊢
    rw [Resolution.visitAll] at hclean ⊢
    rw [visitAll, Walker.eachAll_cons_iff]
    have hrest : ∀ v ∈ walker.settleAll (Capture.visit c u) us, v.Inner := fun v hv =>
      hinner v (.tail _ hv)
    have hfirst := (later_visitAll hrest _).clean hclean
    have hu := hus u (.head _)
    obtain ⟨hall, hcovers⟩ := ihus (fun v hv => hus v (.tail _ hv))
      (fun v hv => ih v (.tail _ hv)) (h.visit hu hfirst) hrest hclean
    exact ⟨⟨ih u (.head _) h hfirst, hall⟩, hcovers⟩

theorem Covers.walker_enter (h : c.Covers r) (u : Unfolding) :
    (walker.enter c u).Covers (Resolution.walker.enter r (walker.settle c u)) := by
  obtain ⟨i, k, o, us⟩ := u
  rw [Walker.settle]
  cases k with
  | function name params b lifted captures =>
    generalize walker.own c _ _ = own
    cases own with
    | none => exact covers_enter ..
    | some a => cases a <;> exact covers_enter ..
  | block ids => exact h.openScope
  | invocation x arguments target => exact h.useCallee x
  | module name ids =>
    refine h.of_frames ?_
    have hframes : ∀ vs, (Resolution.walker.enter r (.node i (.module name ids) o vs)).frames =
        r.frames := fun vs => by simp [Resolution.walker]
    exact hframes _
  | closure f bound => exact h.of_frames (frames_capture ..)
  | _ => exact h

theorem each_owns (hu : u.Fits) (h : c.Covers r) (hclean : (Resolution.visit r (walker.settle c u)).Clean) :
    walker.Each Owns c u := by
  induction u generalizing c r with
  | node i k o us ih =>
    have hfits := walker.fits_settle hu c
    have hbelow := (later_below hfits r).clean hclean
    have henter := h.walker_enter (.node i k o us)
    rw [Resolution.walker_below] at hbelow
    rw [Walker.settle] at hfits hbelow henter
    obtain ⟨hall, hcovers⟩ := covers_all hu.child (fun u hm => ih u hm (hu.child u hm)) henter
      hfits.inner hbelow
    refine .node ?_ hall
    intro x v b initializer hk
    obtain rfl : k = .assignment x none v b initializer := hk
    have hassign : ((Resolution.visitAll r (walker.settleAll c us)).assign i o x initializer).Clean := by
      rw [Walker.settle] at hclean
      exact hclean
    obtain ⟨b', hb'⟩ := Option.isSome_iff_exists.mp hassign.assign
    rw [assigned?, Option.bind_eq_some_iff] at hb'
    obtain ⟨s, hs, hkind⟩ := hb'
    rw [walker_below]
    refine hcovers.targets hs fun hcaptured => ?_
    simp [hcaptured] at hkind

end Capture

end Clausal
