import Clausal.Proofs.Lowering.Fresh
import Clausal.Proofs.Passes.Findings
import Clausal.Proofs.Scoping.Places
import Clausal.Proofs.Scoping.Windows

/-! # Closures capture what they need

Closure capture walks over a module with one frame for each function around, which knows the names of the open
scopes. -/

namespace Clausal

open Scoping List Unfolding
open Clausal.Tree

/-! ### What a visit does to the frames -/

def CaptureFrame.extend (names : List String) : List (List String) → List (List String)
  | [] => []
  | s :: ss => (s ++ names) :: ss

/-- A frame after some uses: what was free still is, and what has become free was in no scope. -/
structure CaptureFrame.Grows (f f' : CaptureFrame) : Prop where
  free : ∀ x ∈ f.free, x ∈ f'.free
  nodup : f.free.Nodup → f'.free.Nodup
  outside : ∀ x ∈ f'.free, x ∈ f.free ∨ ∀ s ∈ f.scopes, x ∉ s

namespace CaptureFrame

theorem extend_nil (ss : List (List String)) : extend [] ss = ss := by
  cases ss <;> simp [extend]

theorem extend_extend (xs ys : List String) (ss : List (List String)) :
    extend ys (extend xs ss) = extend (xs ++ ys) ss := by
  cases ss <;> simp [extend]

theorem exists_mem_extend {s : List String} {ss : List (List String)} (names : List String)
    (hs : s ∈ ss) : ∃ s' ∈ extend names ss, ∀ x ∈ s, x ∈ s' := by
  cases ss with
  | nil => cases hs
  | cons s0 ss =>
    rw [extend]
    rcases mem_cons.mp hs with rfl | hs
    · exact ⟨s ++ names, .head _, fun x hx => mem_append_left _ hx⟩
    · exact ⟨s, .tail _ hs, fun x hx => hx⟩

variable {f f' f'' : CaptureFrame} {x : String}

theorem Grows.refl (f : CaptureFrame) : f.Grows f := ⟨fun _ h => h, fun h => h, fun _ h => .inl h⟩

theorem Grows.trans (h : f.Grows f') (h' : f'.Grows f'') {names : List String}
    (hs : f'.scopes = extend names f.scopes) : f.Grows f'' := by
  refine ⟨fun x hx => h'.free x (h.free x hx), fun hn => h'.nodup (h.nodup hn), ?_⟩
  intro x hx
  rcases h'.outside x hx with hx | hx
  · exact h.outside x hx
  · refine .inr fun s hs' hxs => ?_
    obtain ⟨s', hs', hsub⟩ := exists_mem_extend names hs'
    exact hx s' (hs ▸ hs') (hsub x hxs)

theorem declares_eq_false_iff : f.declares x = false ↔ ∀ s ∈ f.scopes, x ∉ s := by
  unfold declares
  simp

theorem scopes_use (f : CaptureFrame) (x : String) : (f.use x).scopes = f.scopes := by
  unfold use
  split_ifs <;> rfl

theorem grows_use (f : CaptureFrame) (x : String) : f.Grows (f.use x) := by
  unfold use
  split_ifs with h
  · exact .refl f
  · rw [Bool.or_eq_true, not_or, Bool.not_eq_true, declares_eq_false_iff, contains_iff_mem] at h
    refine ⟨fun y hy => mem_append_left _ hy, fun hn => ?_, ?_⟩
    · exact nodup_append'.mpr ⟨hn, nodup_singleton x, by simpa using h.2⟩
    · intro y hy
      rcases mem_append.mp hy with hy | hy
      · exact .inl hy
      · obtain rfl := mem_singleton.mp hy
        exact .inr h.1

theorem mem_free_use (f : CaptureFrame) (h : f.declares x = false) : x ∈ (f.use x).free := by
  unfold use
  split_ifs with hx
  · simpa [h] using hx
  · exact mem_append_right _ (.head _)

theorem foldl_use (names : List String) (f : CaptureFrame) :
    (names.foldl use f).scopes = f.scopes ∧ f.Grows (names.foldl use f) ∧
      ∀ x ∈ names, f.declares x = false → x ∈ (names.foldl use f).free := by
  induction names generalizing f with
  | nil => exact ⟨rfl, .refl f, by simp⟩
  | cons y names ih =>
    obtain ⟨hscopes, hgrows, hfree⟩ := ih (f.use y)
    have hsame : (f.use y).scopes = extend [] f.scopes := by rw [extend_nil, scopes_use]
    refine ⟨hscopes.trans (scopes_use f y), (grows_use f y).trans hgrows hsame, ?_⟩
    intro x hx hd
    rcases mem_cons.mp hx with rfl | hx
    · exact hgrows.free x (mem_free_use f hd)
    · refine hfree x hx ?_
      rw [declares, scopes_use]
      exact hd

end CaptureFrame

namespace Capture

variable {c : Capture} {f g : CaptureFrame} {fs : List CaptureFrame} {us : List Unfolding}

theorem frames_modifyTop (hc : c.frames = f :: fs) (g : CaptureFrame → CaptureFrame) :
    (c.modifyTop g).frames = g f :: fs := by
  unfold modifyTop
  rw [hc]

theorem frames_use (hc : c.frames = f :: fs) (x : String) : (c.use x).frames = f.use x :: fs :=
  frames_modifyTop hc _

theorem frames_foldl_use (hc : c.frames = f :: fs) (names : List String) :
    (names.foldl use c).frames = names.foldl CaptureFrame.use f :: fs := by
  induction names generalizing c f with
  | nil => exact hc
  | cons x names ih => exact ih (frames_use hc x)

theorem frames_useCallee (hc : c.frames = f :: fs) (x : String) :
    (c.useCallee x).frames = (if !f.declares x && fs.any (·.declares x) then f.use x else f) :: fs := by
  unfold useCallee
  rw [hc]
  dsimp only
  split_ifs with h
  · exact frames_use hc x
  · exact hc

/-- The innermost frame has grown and got some names; the frames around are as they were. -/
def Passed (f : CaptureFrame) (fs : List CaptureFrame) (names : List String) (c : Capture) : Prop :=
  ∃ f', c.frames = f' :: fs ∧ f'.scopes = CaptureFrame.extend names f.scopes ∧ f.Grows f'

theorem passed_of_eq (hc : c.frames = f :: fs) : Passed f fs [] c :=
  ⟨f, hc, (CaptureFrame.extend_nil _).symm, .refl f⟩

theorem Passed.use {names : List String} (h : Passed f fs names c) (x : String) :
    Passed f fs names (c.use x) := by
  obtain ⟨f', hc, hscopes, hgrows⟩ := h
  refine ⟨f'.use x, frames_use hc x, ?_, hgrows.trans (f'.grows_use x) hscopes⟩
  rw [CaptureFrame.scopes_use, hscopes]

theorem passed_useCallee (hc : c.frames = f :: fs) (x : String) : Passed f fs [] (c.useCallee x) := by
  have hframes := frames_useCallee hc x
  split_ifs at hframes
  · refine ⟨f.use x, hframes, ?_, f.grows_use x⟩
    rw [CaptureFrame.scopes_use, CaptureFrame.extend_nil]
  · exact passed_of_eq hframes

theorem leave_closure (hc : c.frames = g :: f :: fs) (j : ElementId) :
    let names := g.free.filter fun x => (f :: fs).any (·.declares x)
    (c.leave j true).frames = names.foldl CaptureFrame.use f :: fs ∧
      (c.leave j true).results = c.results.push (j, names) := by
  intro names
  have heq : c.leave j true =
      { (names.foldl use { c with frames := f :: fs }) with results := c.results.push (j, names) } := by
    unfold leave
    rw [hc]
    simp only [if_true, results_foldl_use]
    rfl
  rw [heq]
  exact ⟨frames_foldl_use rfl names, rfl⟩

theorem leave_function {gs : List CaptureFrame} (hc : c.frames = g :: gs) (j : ElementId) :
    c.leave j false = { c with frames := gs } := by
  unfold leave
  rw [hc]
  rfl

theorem passed_visitAll (h : ∀ u ∈ us, ∀ {c : Capture} {f : CaptureFrame}, c.frames = f :: fs → Passed f fs
    ((declared [u]).map Prod.fst) (visit c u)) (hc : c.frames = f :: fs) :
    Passed f fs ((declared us).map Prod.fst) (visitAll c us) := by
  induction us generalizing c f with
  | nil => exact passed_of_eq hc
  | cons u us ih =>
    obtain ⟨f1, hc1, hscopes1, hgrows1⟩ := h u (.head _) hc
    obtain ⟨f2, hc2, hscopes2, hgrows2⟩ := ih (fun v hv => h v (.tail _ hv)) hc1
    refine ⟨f2, hc2, ?_, hgrows1.trans hgrows2 hscopes1⟩
    rw [hscopes2, hscopes1, CaptureFrame.extend_extend, declared_cons u us, map_append]

theorem passed_visit {u : Unfolding} (hu : u.Fits) (hc : c.frames = f :: fs) :
    Passed f fs ((declared [u]).map Prod.fst) (visit c u) := by
  induction u generalizing c f fs with
  | node i k o us ih =>
    have hall : ∀ {fs : List CaptureFrame} {c : Capture} {f : CaptureFrame}, c.frames = f :: fs →
        Passed f fs ((declared us).map Prod.fst) (visitAll c us) := fun hc =>
      passed_visitAll (fun u hm _ _ hc => ih u hm (hu.child u hm) hc) hc
    have hplain : ∀ {fs : List CaptureFrame} {c : Capture} {f : CaptureFrame},
        (∀ ids, k ≠ .block ids) → c.frames = f :: fs → Passed f fs [] (visitAll c us) := by
      intro fs c f hk hc
      have h := hall hc
      rwa [declared_of_fits hu hk] at h
    cases k with
    | function name params body lifted captures =>
      rw [visit]
      have henter : (c.enter params).frames = ⟨[params], []⟩ :: f :: fs := by rw [enter, hc]
      obtain ⟨g, hg, -, -⟩ := hplain (by simp) henter
      cases lifted with
      | false =>
        rw [leave_function hg]
        exact passed_of_eq rfl
      | true =>
        obtain ⟨hframes, -⟩ := leave_closure hg i
        obtain ⟨hscopes, hgrows, -⟩ := CaptureFrame.foldl_use
          (g.free.filter fun x => (f :: fs).any (·.declares x)) f
        exact ⟨_, hframes, by rw [hscopes]; exact (CaptureFrame.extend_nil _).symm, hgrows⟩
    | block ids =>
      rw [visit]
      have hopen : c.openScope.frames = { f with scopes := [] :: f.scopes } :: fs := frames_modifyTop hc _
      obtain ⟨g, hg, hscopes, hgrows⟩ := hall hopen
      refine ⟨{ g with scopes := g.scopes.tail }, frames_modifyTop hg _, ?_, ?_⟩
      · rw [hscopes]
        exact (CaptureFrame.extend_nil _).symm
      · exact ⟨hgrows.free, hgrows.nodup, fun x hx => (hgrows.outside x hx).imp_right
          fun h s hs => h s (.tail _ hs)⟩
    | assignment x d value b initializer =>
      obtain ⟨g, hg, hscopes, hgrows⟩ := hplain (by simp) hc
      rw [CaptureFrame.extend_nil] at hscopes
      cases d with
      | none =>
        rw [visit]
        exact Passed.use ⟨g, hg, by rw [hscopes]; exact (CaptureFrame.extend_nil _).symm, hgrows⟩ x
      | some d =>
        rw [visit]
        refine ⟨g.declare x, frames_modifyTop hg _, ?_, ?_⟩
        · unfold CaptureFrame.declare
          rw [hscopes]
          cases hs : f.scopes with
          | nil => simp [hscopes, hs, CaptureFrame.extend]
          | cons s ss => rfl
        · unfold CaptureFrame.declare
          cases g.scopes with
          | nil => exact hgrows
          | cons s ss => exact ⟨hgrows.free, hgrows.nodup, hgrows.outside⟩
    | reference x b =>
      rw [visit]
      exact (passed_of_eq hc).use x
    | invocation x arguments target =>
      rw [visit]
      obtain ⟨g, hg, hscopes, hgrows⟩ := passed_useCallee hc x
      obtain ⟨g', hg', hscopes', hgrows'⟩ := hplain (by simp) hg
      refine ⟨g', hg', ?_, hgrows.trans hgrows' hscopes⟩
      rw [hscopes', hscopes, CaptureFrame.extend_extend]
      rfl
    | _ =>
      simp only [visit]
      exact hplain (by simp) hc

theorem passed_of_fits (hus : ∀ u ∈ us, u.Fits) (hc : c.frames = f :: fs) :
    Passed f fs ((declared us).map Prod.fst) (visitAll c us) :=
  passed_visitAll (fun u hu _ _ hc => passed_visit (hus u hu) hc) hc

/-! ### What a visit logs -/

theorem marks_of_results {c' : Capture} (h : c'.results = c.results) : c'.marks = c.marks := by
  rw [marks, marks, h]

theorem mem_marks_leave {j : ElementId} {lifted : Bool} {q : ElementId × Mark} (hq : q ∈ c.marks) :
    q ∈ (c.leave j lifted).marks := by
  cases hf : c.frames with
  | nil =>
    unfold leave
    rw [hf]
    exact hq
  | cons g gs =>
    cases lifted with
    | false =>
      rw [leave_function hf]
      exact hq
    | true =>
      unfold leave
      rw [hf]
      simp only [if_true, marks, results_foldl_use, Array.toList_push, map_append]
      exact mem_append_left _ hq

theorem logs : Logs (fun _ => True) visit marks := by
  refine ⟨fun {u} _ c => ?_, fun {u} _ c q hq => ?_⟩
  · induction u generalizing c with
    | node i k o us ih =>
      have hall : ∀ (c : Capture), ∀ q ∈ c.marks, q ∈ (visitAll c us).marks := by
        intro c q hq
        rw [visitAll_eq_foldl]
        clear * - ih hq
        induction us generalizing c with
        | nil => exact hq
        | cons u us ihus =>
          exact ihus (fun v hv => ih v (.tail _ hv)) _ (ih u (.head _) c q hq)
      intro q hq
      cases k with
      | function name params body lifted captures =>
        rw [visit]
        exact mem_marks_leave (hall (c.enter params) q hq)
      | block ids =>
        rw [visit, closeScope, marks_of_results (results_modifyTop _ _)]
        refine hall _ q ?_
        rwa [openScope, marks_of_results (results_modifyTop _ _)]
      | assignment x d value b initializer =>
        cases d with
        | none =>
          rw [visit, marks_of_results (results_use _ _)]
          exact hall c q hq
        | some d =>
          rw [visit, marks_of_results (results_modifyTop _ _)]
          exact hall c q hq
      | reference x b =>
        rw [visit, marks_of_results (results_use _ _)]
        exact hq
      | invocation x arguments target =>
        rw [visit]
        refine hall _ q ?_
        rwa [marks_of_results (results_useCallee _ _)]
      | _ =>
        simp only [visit]
        exact hall c q hq
  · obtain ⟨p, hp, rfl⟩ := mem_map.mp hq
    refine (visit_results u c p hp).imp (fun h => ?_) (by rintro ⟨_, _, _, _, h⟩; exact mem_map_of_mem h)
    exact mem_map.mpr ⟨p, h, rfl⟩

end Capture

/-! ### Every place is visited -/

/-- A function captures each name once, only names that mean something around it, and none that it has
as a parameter. -/
structure Scoping.Captured (l : Layer) (env : List Layer) : Prop where
  nodup : l.captures.Nodup
  params : ∀ x ∈ l.captures, x ∉ l.params
  visible : ∀ x ∈ l.captures, Visible env x

namespace Capture

/-- The visit of an element that stands in some layers: the frames know what the layers declare, and
what the innermost function turns out to need from the others is among its captures. -/
structure Meets (final : List (ElementId × Mark)) (c : Capture) (u : Unfolding) (l : Layer)
    (env : List Layer) : Prop where
  frames : ∃ f fs f', c.frames = f :: fs ∧ (f :: fs).map CaptureFrame.scopes = (l :: env).map Layer.names ∧
    (visit c u).frames = f' :: fs ∧ ∀ x ∈ f'.free, Visible env x → x ∈ l.captures
  window : Window u.ids c.marks (visit c u).marks final

variable {f : CaptureFrame}

theorem declares_eq {l : Layer} (h : f.scopes = l.names) (x : String) : f.declares x = (l.find? x).isSome := by
  rw [CaptureFrame.declares, h, l.isSome_find?]

variable {fs : List CaptureFrame} {x name : String} {final marks : List (ElementId × Mark)} {l : Layer}
  {env : List Layer} {c : Capture} {before after us : List Unfolding} {u body v : Unfolding} {k : Kind}
  {o o' : Origin} {j i e b : ElementId} {params captures : List String} {bound : List Binding}

theorem any_declares_iff {env : List Layer} (h : fs.map CaptureFrame.scopes = env.map Layer.names) :
    fs.any (·.declares x) = true ↔ Visible env x := by
  induction fs generalizing env with
  | nil =>
    cases env with
    | nil => simp [Visible]
    | cons l env => cases h
  | cons f fs ih =>
    cases env with
    | nil => cases h
    | cons l env =>
      rw [map_cons, map_cons, List.cons.injEq] at h
      rw [any_cons, Bool.or_eq_true, ih h.2, declares_eq h.1]
      simp [Visible]

theorem meets_child (hc : c.frames = f :: fs) (hfits : ∀ v ∈ before ++ u :: after, v.Fits)
    (hnodup : ((before ++ u :: after).flatMap Unfolding.ids).Nodup) (hw : Window ((before ++ u ::
    after).flatMap Unfolding.ids) c.marks (visitAll c (before ++ u :: after)).marks final)
    (hnames : CaptureFrame.extend ((declared before).map Prod.fst) f.scopes = l.names)
    (henv : fs.map CaptureFrame.scopes = env.map Layer.names) (hfree : ∀ f', (visitAll c (before ++ u ::
    after)).frames = f' :: fs → ∀ x ∈ f'.free, Visible env x → x ∈ l.captures) :
    Meets final (visitAll c before) u l env := by
  have hbefore : ∀ v ∈ before, v.Fits := fun v hv => hfits v (by simp [hv])
  have hafter : ∀ v ∈ after, v.Fits := fun v hv => hfits v (by simp [hv])
  obtain ⟨f1, hf1, hscopes1, -⟩ := passed_of_fits hbefore hc
  obtain ⟨f2, hf2, -, -⟩ := passed_visit (hfits u (by simp)) hf1
  obtain ⟨f3, hf3, -, hgrows⟩ := passed_of_fits hafter hf2
  refine ⟨⟨f1, fs, f2, hf1, ?_, hf2, ?_⟩, ?_⟩
  · rw [map_cons, map_cons, hscopes1, hnames, henv]
  · intro x hx
    refine hfree f3 ?_ x (hgrows.free x hx)
    rw [← hf3, visitAll_eq_foldl, visitAll_eq_foldl, visitAll_eq_foldl, foldl_append, foldl_cons]
  · rw [visitAll_eq_foldl] at hw ⊢
    exact logs.child (fun _ _ => trivial) hnodup hw

theorem visit_parts (hk : changesScope k = false)
    (hfits : Fits (.node i k o us)) (hc : c.frames = f :: fs) (hu : u ∈ us) :
    ∃ c0 f0, c0.frames = f0 :: fs ∧ f0.scopes = f.scopes ∧ c0.marks = c.marks ∧
      (visit c (.node i k o us)).marks = (visitAll c0 us).marks ∧
      ∀ f1 f', (visitAll c0 us).frames = f1 :: fs → (visit c (.node i k o us)).frames = f' :: fs →
        ∀ x ∈ f1.free, x ∈ f'.free := by
  have hsame : ∀ {f1 f' : CaptureFrame}, f1 :: fs = f' :: fs → ∀ x ∈ f1.free, x ∈ f'.free := by
    rintro f1 f' heq x hx
    rwa [← (List.cons.inj heq).1]
  cases k with
  | assignment x d value b initializer =>
    cases d with
    | none =>
      refine ⟨c, f, hc, rfl, rfl, ?_, fun f1 f' h1 h' => ?_⟩
      · rw [visit, marks_of_results (results_use _ _)]
      · rw [visit, frames_use h1] at h'
        rw [← (List.cons.inj h').1]
        exact (f1.grows_use x).free
    | some d =>
      refine ⟨c, f, hc, rfl, rfl, ?_, fun f1 f' h1 h' => ?_⟩
      · rw [visit, marks_of_results (results_modifyTop _ _)]
      · rw [visit, frames_modifyTop h1] at h'
        rw [← (List.cons.inj h').1]
        unfold CaptureFrame.declare
        cases f1.scopes <;> exact fun _ h => h
  | reference x b =>
    rw [hfits.none rfl] at hu
    cases hu
  | invocation x arguments target =>
    obtain ⟨f0, hf0, hscopes, -⟩ := passed_useCallee hc x
    rw [CaptureFrame.extend_nil] at hscopes
    refine ⟨c.useCallee x, f0, hf0, hscopes, marks_of_results (results_useCallee _ _), ?_, ?_⟩
    · rw [visit]
    · intro f1 f' h1 h'
      rw [visit] at h'
      exact hsame (h1.symm.trans h')
  | module _ _ => cases hk
  | function _ _ _ _ _ => cases hk
  | block _ => cases hk
  | closure _ _ => cases hk
  | _ =>
    refine ⟨c, f, hc, rfl, rfl, ?_, fun f1 f' h1 h' => ?_⟩
    · simp only [visit]
    · simp only [visit] at h'
      exact hsame (h1.symm.trans h')

theorem Meets.part (h : Meets final c (.node i k o us) l env)
    (hfits : Fits (.node i k o us)) (hnodup : (Unfolding.node i k o us).ids.Nodup)
    (hk : changesScope k = false) (hu : u ∈ us) : ∃ c', Meets final c' u l env := by
  obtain ⟨f, fs, f', hc, hscopes, hf', hfree⟩ := h.frames
  obtain ⟨c0, f0, hc0, hscopes0, hmarks0, hmarks, hgrows⟩ := visit_parts hk hfits hc hu
  obtain ⟨before, after, rfl⟩ := append_of_mem hu
  rw [map_cons, map_cons, List.cons.injEq] at hscopes
  rw [ids_node, nodup_cons] at hnodup
  have hw := h.window
  rw [ids_node, hmarks, ← hmarks0] at hw
  refine ⟨visitAll c0 before, meets_child hc0 hfits.child hnodup.2 ?_ ?_ hscopes.2 ?_⟩
  · exact hw.narrow (fun j hj => .tail _ hj) (fun _ h => .inl h) (fun _ h => .inl h) fun _ h => h
  · have hdeclared : declared before = [] := by
      rw [declared, filterMap_eq_nil_iff]
      intro v hv
      refine declares_of_fits hfits ?_ (mem_append_left _ hv)
      rintro ids rfl
      cases hk
    rw [hdeclared, map_nil, CaptureFrame.extend_nil, hscopes0, hscopes.1]
  · intro f1 hf1 x hx
    exact hfree x (hgrows f1 f' hf1 hf' x hx)

theorem Meets.statement {ids : List ElementId}
    (h : Meets final c (.node i (.block ids) o (before ++ u :: after)) l env)
    (hfits : Fits (.node i (.block ids) o (before ++ u :: after)))
    (hnodup : (Unfolding.node i (.block ids) o (before ++ u :: after)).ids.Nodup) :
    ∃ c', Meets final c' u (l.opened before) env := by
  obtain ⟨f, fs, f', hc, hscopes, hf', hfree⟩ := h.frames
  rw [map_cons, map_cons, List.cons.injEq] at hscopes
  rw [ids_node, nodup_cons] at hnodup
  have hopen : c.openScope.frames = { f with scopes := [] :: f.scopes } :: fs := frames_modifyTop hc _
  have hw := h.window
  rw [ids_node, visit, closeScope, marks_of_results (results_modifyTop _ _)] at hw
  refine ⟨visitAll c.openScope before, meets_child hopen hfits.child hnodup.2 ?_ ?_ hscopes.2 ?_⟩
  · refine hw.narrow (fun j hj => .tail _ hj) (fun q hq => .inl ?_) (fun _ h => .inl h) fun _ h => h
    rwa [openScope, marks_of_results (results_modifyTop _ _)] at hq
  · rw [Layer.names, Layer.opened, map_cons, cons_append, CaptureFrame.extend, nil_append,
      hscopes.1]
    rfl
  · intro f1 hf1 x hx
    rw [visit, closeScope, frames_modifyTop hf1] at hf'
    rw [← (List.cons.inj hf').1] at hfree
    exact hfree x hx

/-- The body of a closure that is met is met, and what the closure captures is logged for its function
and for nothing else.  It means something where the closure is created. -/
theorem Meets.closure (h : Meets final c (.node i (.closure e bound) o
    [.node j (.function name params b true captures) o' [body]]) l env) (hbody : body.Fits) (hnodup :
    (Unfolding.node i (.closure e bound) o [.node j (.function name params b true captures) o'
    [body]]).ids.Nodup) :
    ∃ names, (j, .captures names) ∈ final ∧ (∀ q ∈ final, q.1 = j → q = (j, .captures names)) ∧
      (∀ x ∈ names, (l.find? x).isSome = true ∨ x ∈ l.captures) ∧
      ∀ l' : Layer, l'.names = [params] → l'.params = params → l'.captures = names →
        Captured l' (l :: env) ∧ Meets final (c.enter params) body l' (l :: env) := by
  obtain ⟨f, fs, f', hc, hscopes, hf', hfree⟩ := h.frames
  have henter : (c.enter params).frames = ⟨[params], []⟩ :: f :: fs := by rw [enter, hc]
  obtain ⟨g, hg, -, hgrows⟩ := passed_visit hbody henter
  have hleave : visit c (.node i (.closure e bound) o
      [.node j (.function name params b true captures) o' [body]]) =
        (visit (c.enter params) body).leave j true := by
    simp only [visit, visitAll]
  obtain ⟨hframes, hresults⟩ := leave_closure hg j
  generalize hnames : (g.free.filter fun x => (f :: fs).any (·.declares x)) = names at hframes hresults
  have hmarks : (visit c (.node i (.closure e bound) o
      [.node j (.function name params b true captures) o' [body]])).marks =
        (visit (c.enter params) body).marks ++ [(j, .captures names)] := by
    rw [hleave, marks, hresults, Array.toList_push, map_append]
    rfl
  have hmem : ∀ {x : String}, x ∈ names ↔ x ∈ g.free ∧ Visible (l :: env) x := by
    intro x
    rw [← hnames, mem_filter, any_declares_iff hscopes]
  have hw := h.window
  rw [hmarks] at hw
  simp only [ids_node, flatMap_cons, flatMap_nil, append_nil] at hw hnodup
  rw [nodup_cons, nodup_cons] at hnodup
  obtain ⟨hi, hj, hids⟩ := hnodup
  refine ⟨names, hw.kept _ (by simp), ?_, ?_, ?_⟩
  · intro q hq hqj
    rcases mem_append.mp (hw.complete q hq (by simp [hqj])) with hq | hq
    · rcases logs.adds trivial _ q hq with hq | hq
      · exact absurd (show q.1 ∈ i :: j :: body.ids by simp [hqj]) (hw.unmarked q hq)
      · exact absurd (hqj ▸ hq) hj
    · exact mem_singleton.mp hq
  · intro x hx
    obtain ⟨hxg, l', hl', hx'⟩ := hmem.mp hx
    rw [hleave, hframes] at hf'
    rw [← (List.cons.inj hf').1] at hfree
    rw [map_cons, map_cons, List.cons.injEq] at hscopes
    cases hd : f.declares x with
    | true => exact .inl (by rw [← declares_eq hscopes.1, hd])
    | false =>
      refine .inr (hfree x ((CaptureFrame.foldl_use names f).2.2 x hx hd) ?_)
      rw [declares_eq hscopes.1] at hd
      rcases mem_cons.mp hl' with rfl | hl'
      · rw [hd] at hx'
        cases hx'
      · exact ⟨l', hl', hx'⟩
  · intro l' hln hparams hcaptures
    refine ⟨⟨?_, ?_, ?_⟩, ⟨_, _, g, henter, ?_, hg, ?_⟩, ?_⟩
    · rw [hcaptures, ← hnames]
      exact (hgrows.nodup nodup_nil).filter _
    · intro x hx
      rw [hcaptures] at hx
      rw [hparams]
      rcases hgrows.outside x (hmem.mp hx).1 with hx | hx
      · cases hx
      · exact hx params (.head _)
    · intro x hx
      rw [hcaptures] at hx
      exact (hmem.mp hx).2
    · rw [map_cons, hscopes]
      simp only [map_cons, hln]
    · intro x hx hv
      rw [hcaptures]
      exact hmem.mpr ⟨hx, hv⟩
    · refine hw.narrow (fun k hk => by simp [hk]) (fun q hq => .inl hq) (fun q hq => ?_)
        fun q hq => mem_append_left _ hq
      rcases mem_append.mp hq with hq | hq
      · exact .inl hq
      · rw [mem_singleton.mp hq]
        exact .inr hj

theorem frames_visitAll_nil_of (h : ∀ u ∈ us, ∀ {c : Capture}, c.frames = [] → (visit c u).frames = [])
    (hc : c.frames = []) : (visitAll c us).frames = [] := by
  induction us generalizing c with
  | nil => exact hc
  | cons u us ih =>
    rw [visitAll]
    exact ih (fun v hv => h v (.tail _ hv)) (h u (.head _) hc)

theorem frames_visit_nil (hu : u.Fits) (hc : c.frames = []) : (visit c u).frames = [] := by
  induction u generalizing c with
  | node i k o us ih =>
    have htop : ∀ {c : Capture} (g : CaptureFrame → CaptureFrame), c.frames = [] →
        (c.modifyTop g).frames = [] := by
      intro c g hc
      rw [modifyTop, hc, hc]
    have hall : ∀ {c : Capture}, c.frames = [] → (visitAll c us).frames = [] := fun hc =>
      frames_visitAll_nil_of (fun u hm _ hc => ih u hm (hu.child u hm) hc) hc
    cases k with
    | function name params b lifted captures =>
      have henter : (c.enter params).frames = ⟨[params], []⟩ :: [] := by rw [enter, hc]
      obtain ⟨g, hg, -, -⟩ := passed_of_fits hu.child henter
      rw [visit, leave, hg]
      cases lifted with
      | false => rfl
      | true => simp
    | block ids =>
      rw [visit]
      exact htop _ (hall (htop _ hc))
    | assignment x d value b initializer =>
      cases d <;> rw [visit] <;> exact htop _ (hall hc)
    | reference x b =>
      rw [visit]
      exact htop _ hc
    | invocation x arguments target =>
      rw [visit, useCallee, hc]
      exact hall hc
    | _ =>
      simp only [visit]
      exact hall hc

theorem frames_visitAll_nil (hus : ∀ u ∈ us, u.Fits) (hc : c.frames = []) : (visitAll c us).frames = [] :=
  frames_visitAll_nil_of (fun u hm _ hc => frames_visit_nil (hus u hm) hc) hc

theorem meets_function (hus : ∀ u ∈ before ++ .node j (.function name params b false captures)
    o [body] :: after, u.Fits ∧ Role.function.accepts u.kind = true) (hnodup : ((before ++ .node j (.function
    name params b false captures) o [body] :: after).flatMap Unfolding.ids).Nodup) (hfinal : final = (visitAll
    {} (before ++ .node j (.function name params b false captures) o [body] :: after)).marks) :
    (∀ q ∈ final, q.1 ≠ j) ∧ ∀ l' : Layer, l'.names = [params] →
      Meets final ((visitAll {} before).enter params) body l' [] := by
  obtain ⟨hfits, -⟩ := hus _ (mem_append_right _ (.head _))
  have hbody : body.Fits := hfits.child body (.head _)
  have hc : (visitAll {} before).frames = [] :=
    frames_visitAll_nil (fun u hu => (hus u (mem_append_left _ hu)).1) rfl
  have henter : ((visitAll {} before).enter params).frames = ⟨[params], []⟩ :: [] := by rw [enter, hc]
  obtain ⟨g, hg, -, -⟩ := passed_visit hbody henter
  have hw : Window (Unfolding.node j (.function name params b false captures) o [body]).ids
      (visitAll {} before).marks (visit ((visitAll {} before).enter params) body).marks final := by
    have hchild : Window _ _ _ final := logs.child (s := {}) (fun _ _ => trivial) hnodup
      ⟨by simp [marks], fun q hq => by rwa [hfinal, visitAll_eq_foldl],
        fun q hq _ => by rwa [hfinal, visitAll_eq_foldl] at hq⟩
    rw [← visitAll_eq_foldl] at hchild
    simp only [visit, visitAll] at hchild
    rwa [leave_function hg] at hchild
  rw [ids_node, flatMap_singleton] at hw
  have hj : j ∉ body.ids := by
    rw [flatMap_append, flatMap_cons, nodup_append'] at hnodup
    have hnodup := (nodup_append'.mp hnodup.2.1).1
    rw [ids_node, flatMap_singleton] at hnodup
    exact (nodup_cons.mp hnodup).1
  refine ⟨?_, fun l' hln => ⟨⟨_, [], g, henter, ?_, hg, ?_⟩, ?_⟩⟩
  · rintro q hq rfl
    rcases logs.adds trivial _ q (hw.complete q hq (.head _)) with hq | hq
    · exact hw.unmarked q hq (.head _)
    · exact hj hq
  · rw [map_singleton, map_singleton, hln]
  · rintro x - ⟨l, hl, -⟩
    cases hl
  · exact hw.narrow (fun i hi => .tail _ hi) (fun _ h => .inl h) (fun _ h => .inl h) fun _ h => h

/-! ### Every name that is needed is captured -/

/-- The marks of a module that has been walked over, and maybe others, none of them about captures. -/
def SameCaptures (final marks : List (ElementId × Mark)) : Prop :=
  ∀ j names, (j, Mark.captures names) ∈ marks ↔ (j, Mark.captures names) ∈ final

theorem SameCaptures.latest (h : SameCaptures final marks) {names : List String}
    (hmem : (j, .captures names) ∈ final) (hunique : ∀ q ∈ final, q.1 = j → q = (j, .captures names))
    (captures : List String) : Mark.latest Mark.captures? j marks captures = names := by
  have hread : Mark.captures? (.captures names) = some names := rfl
  refine Mark.latest_eq_of_mem ((h j names).mpr hmem) hread ?_ captures
  rintro ⟨j, a⟩ ha rfl z hz
  cases a <;> cases hz
  cases hunique _ ((h _ _).mp ha) rfl
  rfl

theorem SameCaptures.latest_eq_self (h : SameCaptures final marks) (hnone : ∀ q ∈ final, q.1 ≠ j)
    (captures : List String) : Mark.latest Mark.captures? j marks captures = captures := by
  refine Mark.latest_eq_self ?_
  rintro ⟨j, a⟩ ha rfl z hz
  cases a <;> cases hz
  exact absurd rfl (hnone _ ((h _ _).mp ha))

theorem Meets.closure_marked (hmarks : SameCaptures final marks)
    {lifted : Bool} (h : Meets final c (.node i (.closure e bound) o [.node j (.function name params b lifted
    captures) o' [body]]) l env) (hfresh : Unfolding.Fresh (.node i (.closure e bound) o [.node j (.function
    name params b lifted captures) o' [body]])) :
    (∀ x ∈ Mark.latest Mark.captures? j marks captures, (l.find? x).isSome = true ∨ x ∈ l.captures) ∧
      ∀ l' : Layer, l'.names = [params] → l'.params = params →
        l'.captures = Mark.latest Mark.captures? j marks captures →
          Captured l' (l :: env) ∧ Meets final (c.enter params) body l' (l :: env) := by
  have hlifted : lifted = true := hfresh.plain.lifted (.head _)
  subst hlifted
  have hbody := (hfresh.child (.head _)).child (.head _)
  obtain ⟨names, hmem, hunique, hneeds, hinner⟩ := h.closure hbody.fits hfresh.nodup
  rw [hmarks.latest hmem hunique captures]
  exact ⟨hneeds, hinner⟩

theorem meets_of_at (hu : u.Fresh) (hmarks : SameCaptures (visit {} u).marks marks)
    (h : At (u.marked marks) env v) :
    ∃ l env', env = l :: env' ∧ Captured l env' ∧ ∃ v0 c, v = v0.marked marks ∧ v0.Fresh ∧
      Meets (visit {} u).marks c v0 l env' := by
  induction h with
  | @function i j b m name ids o o' us params captures lifted body hroot hmem =>
    obtain ⟨before, after, captures0, body0, rfl, hcaptures, rfl⟩ := module_of_marked hroot hmem
    have hfn : .node j (.function name params b lifted captures0) o' [body0] ∈
        before ++ .node j (.function name params b lifted captures0) o' [body0] :: after := by simp
    have hfresh := hu.child hfn
    -- the functions of a module are no closures, and nothing is captured yet
    have hlifted : lifted = false := hu.plain.unlifted hfn
    have hnone : captures0 = [] := List.isEmpty_iff.mp hfresh.plain.unmarked
    subst hlifted hnone
    have hnodup := hu.nodup
    rw [ids_node, nodup_cons] at hnodup
    have hvisit : visit {} (.node i (.module m ids) o
        (before ++ .node j (.function name params b false []) o' [body0] :: after)) =
          visitAll {} (before ++ .node j (.function name params b false []) o' [body0] :: after) := by
      simp only [visit]
    rw [hvisit] at hmarks ⊢
    obtain ⟨hunmarked, hmeets⟩ := meets_function (hu.fits.all rfl) hnodup.2 rfl
    rw [hmarks.latest_eq_self hunmarked] at hcaptures
    subst hcaptures
    refine ⟨_, [], rfl, ⟨nodup_nil, by rintro _ ⟨⟩, by rintro _ ⟨⟩⟩, body0, _, rfl, ?_, hmeets _ rfl⟩
    exact hfresh.child (.head _)
  | @closure env i j f b name o o' params captures bound lifted body h ih =>
    obtain ⟨l, env', rfl, hl, v0, c, hv0, hfresh, hmeets⟩ := ih
    obtain ⟨bound0, captures0, body0, rfl, -, hcaptures, rfl⟩ := closure_of_marked hv0
    subst hcaptures
    have hbody := (hfresh.child (.head _)).child (.head _)
    obtain ⟨-, hinner⟩ := hmeets.closure_marked hmarks hfresh
    obtain ⟨hcaptured, hbelow⟩ := hinner (.ofBody _ bound params (body0.marked marks)) rfl rfl rfl
    exact ⟨_, l :: env', rfl, hcaptured, body0, _, rfl, hbody, hbelow⟩
  | @statement l env i ids o before after u' h ih =>
    obtain ⟨l', env', ⟨⟩, hl, v0, c, hv0, hfresh, hmeets⟩ := ih
    obtain ⟨before0, u0, after0, rfl, rfl, rfl⟩ := block_of_marked hv0
    obtain ⟨c', hmeets'⟩ := hmeets.statement hfresh.fits hfresh.nodup
    have hopened : l.opened (before0.map (·.marked marks)) = l.opened before0 := by
      rw [Layer.opened, declared_map_marked, ← Layer.opened]
    rw [hopened]
    refine ⟨_, env, rfl, ⟨hl.nodup, hl.params, hl.visible⟩, u0, c', rfl, ?_, hmeets'⟩
    exact hfresh.child (by simp)
  | @part env i k o us u' h hk hmem ih =>
    obtain ⟨l, env', rfl, hl, v0, c, hv0, hfresh, hmeets⟩ := ih
    obtain ⟨k0, us0, rfl, rfl, rfl⟩ := exists_of_marked hv0
    obtain ⟨u0, hu0, rfl⟩ := mem_map.mp hmem
    rw [changesScope_rekind] at hk
    obtain ⟨c', hmeets'⟩ := hmeets.part hfresh.fits hfresh.nodup hk hu0
    exact ⟨l, env', rfl, hl, u0, c', rfl, hfresh.child hu0, hmeets'⟩

def needs : Unfolding → List String
  | .node _ (.reference x _) _ _ => [x]
  | .node _ (.assignment x none _ _ _) _ _ => [x]
  | .node _ (.invocation x _ _) _ _ => [x]
  | .node _ (.closure _ _) _ us => Resolution.capturesOf us
  | _ => []

theorem needs_marked (marks : List (ElementId × Mark)) (hk : ∀ f bound, k ≠ .closure f bound) :
    needs ((Unfolding.node i k o us).marked marks) = needs (.node i k o us) := by
  rw [marked_node, rekind_def]
  cases k with
  | assignment x d value b initializer => cases d <;> rfl
  | closure f bound => exact absurd rfl (hk f bound)
  | _ => rfl

theorem Meets.needs (h : Meets final c (.node i k o us) l env)
    (hfits : Fits (.node i k o us)) (hk : ∀ f bound, k ≠ .closure f bound)
    (hx : x ∈ needs (.node i k o us)) (hfind : l.find? x = none) (hv : Visible env x) : x ∈ l.captures := by
  obtain ⟨f, fs, f', hc, hscopes, hf', hfree⟩ := h.frames
  rw [map_cons, map_cons, List.cons.injEq] at hscopes
  have hd : ∀ {g : CaptureFrame}, g.scopes = f.scopes → g.declares x = false := by
    intro g hg
    rw [declares_eq (hg.trans hscopes.1), hfind]
    rfl
  refine hfree x ?_ hv
  cases k with
  | reference y b =>
    obtain rfl := mem_singleton.mp hx
    rw [visit, frames_use hc] at hf'
    rw [← (List.cons.inj hf').1]
    exact f.mem_free_use (hd rfl)
  | assignment y d value b initializer =>
    cases d with
    | some d => cases hx
    | none =>
      obtain rfl := mem_singleton.mp hx
      obtain ⟨g, hg, hgscopes, -⟩ := passed_of_fits hfits.child hc
      rw [declared_of_fits hfits (by simp), map_nil, CaptureFrame.extend_nil] at hgscopes
      rw [visit, frames_use hg] at hf'
      rw [← (List.cons.inj hf').1]
      exact g.mem_free_use (hd hgscopes)
  | invocation y arguments target =>
    obtain rfl := mem_singleton.mp hx
    have huse := frames_useCallee hc x
    rw [hd rfl, (any_declares_iff hscopes.2).mpr hv] at huse
    obtain ⟨g, hg, -, hgrows⟩ := passed_of_fits hfits.child huse
    rw [visit, hg] at hf'
    rw [← (List.cons.inj hf').1]
    exact hgrows.free x (f.mem_free_use (hd rfl))
  | closure e bound => exact absurd rfl (hk e bound)
  | _ => cases hx

theorem captured_of_at (hu : u.Fresh) (hmarks : SameCaptures (visit {} u).marks marks)
    (h : At (u.marked marks) (l :: env) v) :
    Captured l env ∧ ∀ x ∈ needs v, l.find? x = none → Visible env x → x ∈ l.captures := by
  obtain ⟨l', env', ⟨⟩, hcaptured, v0, c, rfl, hfresh, hmeets⟩ := meets_of_at hu hmarks h
  refine ⟨hcaptured, fun x hx hfind hv => ?_⟩
  obtain ⟨i, k, o, us⟩ := v0
  by_cases hk : ∃ e bound, k = .closure e bound
  · obtain ⟨e, bound, rfl⟩ := hk
    obtain ⟨fn, rfl, hfn, hfunction⟩ := hfresh.fits.one rfl
    obtain ⟨j, k, o', vs⟩ := fn
    cases k <;> cases hfunction
    obtain ⟨body, rfl, -, -⟩ := hfn.one rfl
    rw [marked_node, rekind_closure, map_singleton, marked_node,
      rekind_function] at hx
    rcases (hmeets.closure_marked hmarks hfresh).1 x hx with hd | hd
    · rw [hfind] at hd
      cases hd
    · exact hd
  · have hk : ∀ e bound, k ≠ .closure e bound := fun e bound heq => hk ⟨e, bound, heq⟩
    rw [needs_marked marks hk] at hx
    exact hmeets.needs hfresh.fits hk hx hfind hv

end Capture

end Clausal
