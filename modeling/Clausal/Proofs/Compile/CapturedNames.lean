import Clausal.Proofs.Compile.InitializerScope

/-! # Captures are the free names

What a closure captures, said without walking over the module with frames: the names that it uses where nothing in
it declares them (`freeUses`), as far as they mean something where it is created, in the order of first use. -/

namespace Clausal

open Scoping
open Clausal.Tree

/-! ### The order of first use -/

namespace Scoping

def merge (xs ys : List String) : List String := xs ++ firsts xs ys

theorem firsts_append (seen xs ys : List String) :
    firsts seen (xs ++ ys) = firsts seen xs ++ firsts (seen ++ firsts seen xs) ys := by
  induction xs generalizing seen with
  | nil => simp [firsts]
  | cons x xs ih =>
    rw [List.cons_append, firsts, firsts]
    split_ifs with hx
    · exact ih seen
    · rw [ih, List.cons_append, List.append_assoc]
      rfl

theorem merge_merge (xs ys zs : List String) : merge (merge xs ys) zs = merge xs (ys ++ zs) := by
  rw [merge, merge, merge, firsts_append, List.append_assoc]

theorem firsts_firsts (seen seen' xs : List String) :
    firsts seen (firsts seen' xs) = firsts (seen ++ seen') xs := by
  induction xs generalizing seen seen' with
  | nil => rfl
  | cons x xs ih =>
    rw [firsts.eq_2 seen', firsts.eq_2 (seen ++ seen')]
    by_cases hx' : x ∈ seen'
    · rw [if_pos hx', if_pos (List.mem_append_right _ hx'), ih]
    · rw [if_neg hx', firsts, ih, ih]
      by_cases hx : x ∈ seen
      · rw [if_pos hx, if_pos (List.mem_append_left _ hx)]
        exact firsts_congr fun y _ => by grind
      · rw [if_neg hx, if_neg (by simp [hx, hx'])]
        exact congrArg _ (firsts_congr fun y _ => by grind)

theorem filter_firsts (p : String → Bool) (seen xs : List String) :
    (firsts seen xs).filter p = firsts seen (xs.filter p) := by
  induction xs generalizing seen with
  | nil => rfl
  | cons x xs ih =>
    rw [firsts]
    by_cases hx : x ∈ seen <;> by_cases hp : p x = true
    · rw [if_pos hx, List.filter_cons_of_pos hp, firsts, if_pos hx, ih]
    · rw [if_pos hx, List.filter_cons_of_neg hp, ih]
    · rw [if_neg hx, List.filter_cons_of_pos hp, List.filter_cons_of_pos hp, firsts, if_neg hx, ih]
    · rw [if_neg hx, List.filter_cons_of_neg hp, List.filter_cons_of_neg hp, ih]
      refine firsts_congr fun y hy => ?_
      have hne : y ≠ x := by
        rintro rfl
        exact hp (List.mem_filter.mp hy).2
      simp [hne]

def unbound (scopes : List (List String)) (x : String) : Bool := !scopes.any (·.contains x)

mutual

/-- The names that are used in an element where no scope of the function around it declares them, nor one of a
closure between, in the order of use.  The open scopes are given, innermost first. -/
def freeUses (scopes : List (List String)) : Unfolding → List String
  | .node _ kind _ us =>
    match kind with
    | .function _ params _ isClosure _ =>
      if isClosure then (freeUsesIn [params] us).filter (unbound scopes) else []
    | .block _ => freeUsesIn ([] :: scopes) us
    | .assignment x none _ _ _ => freeUsesIn scopes us ++ [x].filter (unbound scopes)
    | .reference x _ => [x].filter (unbound scopes)
    | .invocation x _ _ => [x].filter (unbound scopes) ++ freeUsesIn scopes us
    | _ => freeUsesIn scopes us

def freeUsesIn (scopes : List (List String)) : List Unfolding → List String
  | [] => []
  | u :: us =>
    freeUses scopes u ++ freeUsesIn (CaptureFrame.extend ((declared [u]).map Prod.fst) scopes) us

end

end Scoping

/-! ### What a visit adds -/

namespace CaptureFrame

variable (p : String → Bool)

theorem filter_use (f : CaptureFrame) (x : String) :
    (f.use x).free.filter p = merge (f.free.filter p) (([x].filter (unbound f.scopes)).filter p) := by
  have hunbound : unbound f.scopes x = !f.declares x := rfl
  unfold use
  cases hd : f.declares x with
  | true => simp [hunbound, hd, merge, firsts]
  | false => by_cases hx : x ∈ f.free <;> by_cases hp : p x = true <;> simp [hunbound, hd, merge, firsts, hx, hp]

theorem filter_foldl_use (names : List String) (f : CaptureFrame) :
    (names.foldl use f).free.filter p =
      merge (f.free.filter p) ((names.filter (unbound f.scopes)).filter p) := by
  induction names generalizing f with
  | nil => simp [merge, firsts]
  | cons x names ih =>
    rw [List.foldl_cons, ih, filter_use, merge_merge, scopes_use, ← List.filter_append, ← List.filter_append]
    rfl

end CaptureFrame

namespace Capture

def outer (fs : List CaptureFrame) (x : String) : Bool := fs.any (·.declares x)

/-- The innermost frame has got the free uses of some elements that mean something outside. -/
def Gathers (f : CaptureFrame) (fs : List CaptureFrame) (uses : List String) (c : Capture) : Prop :=
  ∃ f', c.frames = f' :: fs ∧ f'.free.filter (outer fs) = merge (f.free.filter (outer fs)) (uses.filter (outer fs))

variable {c c' : Capture} {f g : CaptureFrame} {fs : List CaptureFrame} {us : List Unfolding} {u : Unfolding}
  {uses : List String}

theorem gathers_of_eq (hc : c.frames = f :: fs) : Gathers f fs [] c := ⟨f, hc, by simp [merge, firsts]⟩

theorem Gathers.trans {xs ys : List String} (h : Gathers f fs xs c)
    (h' : ∀ f', c.frames = f' :: fs → Gathers f' fs ys c') : Gathers f fs (xs ++ ys) c' := by
  obtain ⟨f1, hf1, heq1⟩ := h
  obtain ⟨f2, hf2, heq2⟩ := h' f1 hf1
  exact ⟨f2, hf2, by rw [heq2, heq1, merge_merge, List.filter_append]⟩

theorem gathers_use (hc : c.frames = f :: fs) (x : String) :
    Gathers f fs ([x].filter (unbound f.scopes)) (c.use x) := ⟨f.use x, frames_use hc x, f.filter_use _ x⟩

theorem gathers_useCallee (hc : c.frames = f :: fs) (x : String) :
    Gathers f fs ([x].filter (unbound f.scopes)) (c.useCallee x) := by
  have hunbound : unbound f.scopes x = !f.declares x := rfl
  have hframes := frames_useCallee hc x
  split_ifs at hframes with hcond
  · exact ⟨f.use x, hframes, f.filter_use _ x⟩
  · refine ⟨f, hframes, ?_⟩
    have hnone : ([x].filter (unbound f.scopes)).filter (outer fs) = [] := by
      rw [List.filter_filter, List.filter_eq_nil_iff]
      intro y hy hboth
      obtain rfl := List.mem_singleton.mp hy
      rw [hunbound, Bool.and_comm] at hboth
      exact hcond hboth
    simp [hnone, merge, firsts]

theorem gathers_visitAll (hus : ∀ u ∈ us, u.Fits) (h : ∀ u ∈ us, ∀ {c : Capture} {f : CaptureFrame},
    c.frames = f :: fs → Gathers f fs (freeUses f.scopes u) (visit c u)) (hc : c.frames = f :: fs) :
    Gathers f fs (freeUsesIn f.scopes us) (visitAll c us) := by
  induction us generalizing c f with
  | nil => exact gathers_of_eq hc
  | cons u us ih =>
    rw [visitAll, freeUsesIn]
    refine (h u (.head _) hc).trans fun f1 hf1 => ?_
    obtain ⟨f2, hf2, hscopes, -⟩ := passed_visit (hus u (.head _)) hc
    cases (List.cons.inj (hf1.symm.trans hf2)).1
    rw [← hscopes]
    exact ih (fun v hv => hus v (.tail _ hv)) (fun v hv => h v (.tail _ hv)) hf1

theorem Gathers.same (h : Gathers f fs uses c)
    (hc : ∀ f', c.frames = f' :: fs → ∃ f'', c'.frames = f'' :: fs ∧ f''.free = f'.free) : Gathers f fs uses c' := by
  obtain ⟨f', hf', heq⟩ := h
  obtain ⟨f'', hf'', hfree⟩ := hc f' hf'
  exact ⟨f'', hf'', hfree ▸ heq⟩

theorem gathers_leave (hc : c.frames = g :: f :: fs)
    (hg : g.free.filter (outer (f :: fs)) = firsts [] (uses.filter (outer (f :: fs)))) (j : ElementId) :
    Gathers f fs (uses.filter (unbound f.scopes)) (c.leave j true) := by
  obtain ⟨hframes, -⟩ := leave_closure hc j
  refine ⟨_, hframes, ?_⟩
  have hboth : ∀ xs : List String, ((xs.filter (outer (f :: fs))).filter (unbound f.scopes)).filter (outer fs) =
      (xs.filter (unbound f.scopes)).filter (outer fs) := by
    intro xs
    rw [List.filter_filter, List.filter_filter, List.filter_filter]
    refine List.filter_congr fun x _ => ?_
    simp only [outer, List.any_cons]
    cases fs.any (·.declares x) <;> simp
  rw [CaptureFrame.filter_foldl_use]
  show merge _ (((g.free.filter (outer (f :: fs))).filter _).filter _) = _
  rw [hg, filter_firsts, filter_firsts, hboth, merge, merge, firsts_firsts, List.append_nil]

theorem gathers_visit (hu : u.Fits) (hc : c.frames = f :: fs) :
    Gathers f fs (freeUses f.scopes u) (visit c u) := by
  induction u generalizing c f fs with
  | node i k o us ih =>
    have hall : ∀ {fs : List CaptureFrame} {c : Capture} {f : CaptureFrame}, c.frames = f :: fs →
        Gathers f fs (freeUsesIn f.scopes us) (visitAll c us) := fun hc =>
      gathers_visitAll hu.child (fun u hm _ _ hc => ih u hm (hu.child u hm) hc) hc
    cases k with
    | function name params body lifted captures =>
      rw [visit, freeUses]
      have henter : (c.enter params).frames = ⟨[params], []⟩ :: f :: fs := by rw [enter, hc]
      obtain ⟨g, hg, heq⟩ := hall henter
      cases lifted with
      | false =>
        rw [leave_function hg]
        exact gathers_of_eq rfl
      | true => exact gathers_leave hg heq i
    | block ids =>
      rw [visit, freeUses]
      have hopen : c.openScope.frames = { f with scopes := [] :: f.scopes } :: fs := frames_modifyTop hc _
      obtain ⟨g, hg, heq⟩ := hall hopen
      exact ⟨_, frames_modifyTop hg _, heq⟩
    | assignment x d value b initializer =>
      cases d with
      | none =>
        rw [visit, freeUses]
        refine (hall hc).trans fun f1 hf1 => ?_
        obtain ⟨f2, hf2, hscopes, -⟩ := passed_of_fits hu.child hc
        cases (List.cons.inj (hf1.symm.trans hf2)).1
        rw [declared_of_fits hu (by simp), List.map_nil, CaptureFrame.extend_nil] at hscopes
        rw [← hscopes]
        exact gathers_use hf1 x
      | some d =>
        simp only [visit, freeUses]
        refine (hall hc).same fun f1 hf1 => ⟨_, frames_modifyTop hf1 _, ?_⟩
        unfold CaptureFrame.declare
        cases f1.scopes <;> rfl
    | reference x b =>
      rw [visit, freeUses]
      exact gathers_use hc x
    | invocation x arguments target =>
      rw [visit, freeUses]
      refine (gathers_useCallee hc x).trans fun f1 hf1 => ?_
      obtain ⟨f2, hf2, hscopes, -⟩ := passed_useCallee hc x
      cases (List.cons.inj (hf1.symm.trans hf2)).1
      rw [CaptureFrame.extend_nil] at hscopes
      rw [← hscopes]
      exact hall hf1
    | _ =>
      simp only [visit, freeUses]
      exact hall hc

/-! ### What a closure is given -/

variable {final marks : List (ElementId × Mark)} {l : Layer} {env : List Layer} {i e j b : ElementId}
  {o o' : Origin} {bound : List Binding} {name : String} {params captures : List String} {body : Unfolding}

def visibleIn (env : List Layer) (x : String) : Bool := env.any fun l => (l.find? x).isSome

theorem outer_eq (h : fs.map CaptureFrame.scopes = env.map Layer.names) : outer fs = visibleIn env := by
  funext x
  rw [Bool.eq_iff_iff, outer, any_declares_iff h, visibleIn, List.any_eq_true]
  rfl

theorem Meets.mem_captures (h : Meets final c (.node i (.closure e bound) o
    [.node j (.function name params b true captures) o' [body]]) l env) (hbody : body.Fits) :
    (j, .captures (firsts [] ((freeUses [params] body).filter (visibleIn (l :: env))))) ∈ final := by
  obtain ⟨f, fs, f', hc, hscopes, -, -⟩ := h.frames
  have henter : (c.enter params).frames = ⟨[params], []⟩ :: f :: fs := by rw [enter, hc]
  obtain ⟨g, hg, heq⟩ := gathers_visit hbody henter
  obtain ⟨-, hresults⟩ := leave_closure hg j
  refine h.window.kept _ ?_
  simp only [visit, visitAll, marks, hresults, Array.toList_push, List.map_append]
  refine List.mem_append_right _ (List.mem_singleton.mpr ?_)
  rw [← outer_eq hscopes]
  exact congrArg (fun names => (j, Mark.captures names)) heq.symm

theorem freeUses_marked (u : Unfolding) (scopes : List (List String)) :
    freeUses scopes (u.marked marks) = freeUses scopes u := by
  induction u generalizing scopes with
  | node i k o us ih =>
    have hall : ∀ scopes, freeUsesIn scopes (us.map (·.marked marks)) = freeUsesIn scopes us := by
      intro scopes
      induction us generalizing scopes with
      | nil => rfl
      | cons u us ihus =>
        have hdeclared : declared [u.marked marks] = declared [u] := declared_map_marked marks [u]
        rw [List.map_cons, freeUsesIn, freeUsesIn, ih u (.head _), hdeclared,
          ihus fun v hv => ih v (.tail _ hv)]
    rw [Unfolding.marked_node, Unfolding.rekind_def]
    cases k with
    | assignment x d value b initializer => cases d <;> simp only [freeUses, hall]
    | _ => simp only [freeUses, hall]

theorem captures_of_at (hu : u.Fresh) (hmarks : SameCaptures (visit {} u).marks marks) {lifted : Bool}
    (h : At (u.marked marks) env (.node i (.closure e bound) o [.node j (.function name params b lifted captures) o' [body]])) :
    captures = firsts [] ((freeUses [params] body).filter (visibleIn env)) := by
  obtain ⟨l, env', rfl, -, v0, c, hv0, hfresh, hmeets⟩ := meets_of_at hu hmarks h
  obtain ⟨bound0, captures0, body0, rfl, -, rfl, rfl⟩ := Unfolding.closure_of_marked hv0
  have hlifted : lifted = true := hfresh.plain.lifted (.head _)
  subst hlifted
  have hbody := (hfresh.child (.head _)).child (.head _)
  obtain ⟨names, hmem, hunique, -⟩ := hmeets.closure hbody.fits hfresh.nodup
  have heq := hunique _ (hmeets.mem_captures hbody.fits) rfl
  rw [hmarks.latest hmem hunique captures0, freeUses_marked]
  cases heq
  rfl

end Capture

/-! ### Nothing else changes -/

/-- An element without what it captures, if it is the function of a closure. -/
def Element.uncaptured (e : Element) : Element :=
  match e.kind with
  | .function name params body true _ => { e with kind := .function name params body true [] }
  | _ => e

theorem Capture.uncaptured_marked {t : Tree} {u : Unfolding} (hu : t.Shows u) {x : ElementId} {e : Element}
    (he : t.element? x = some e) :
    Element.uncaptured { e with kind := Unfolding.rekind x (visit {} u).marks e.kind } = e.uncaptured := by
  obtain ⟨k, parent, o⟩ := e
  have hmark : ∀ p ∈ (visit {} u).marks, (∃ names, p.2 = .captures names) ∧ u.Lifts p.1 := by
    intro p hp
    obtain ⟨q, hq, rfl⟩ := List.mem_map.mp hp
    exact ⟨⟨_, rfl⟩, (visit_results u {} q hq).resolve_left (by simp)⟩
  have hsilent : ∀ p ∈ (visit {} u).marks, p.2.binding? = none ∧ p.2.target? = none ∧
      p.2.closureBindings? = none := by
    intro p hp
    obtain ⟨⟨names, heq⟩, -⟩ := hmark p hp
    rw [heq]
    exact ⟨rfl, rfl, rfl⟩
  cases k with
  | function name params body lifted captures =>
    rw [Unfolding.rekind_function]
    cases lifted with
    | true => rfl
    | false =>
      have hself : Mark.latest Mark.captures? x (visit {} u).marks captures = captures := by
        refine Mark.latest_eq_self fun p hp hpx => ?_
        obtain ⟨_, _, _, _, hmem⟩ := (hmark p hp).2
        have hkind := hu.kind?_of_mem hmem
        rw [hpx, kind?, he] at hkind
        cases hkind
      rw [hself]
  | _ => simp only [Unfolding.rekind_def, Mark.latest_of_silent fun p hp => (hsilent p hp).1,
      Mark.latest_of_silent fun p hp => (hsilent p hp).2.1, Mark.latest_of_silent fun p hp => (hsilent p hp).2.2]

/-- Captures are the free names.  When a unit has been lowered, and expanded or not, closure capture gives each
closure the names that it uses freely and that mean something where it is created, each once and in the order of
first use.  The functions of the module capture nothing, and nothing else changes. -/
theorem captures_are_free_names {unit : Ast.CompilationUnit} {b b' : Builder} {t : Tree}
    (h : Lower.unit unit b = .ok t b') (ps : List Pass)
    (hps : ∀ p ∈ ps, p = .matchExpansion ∨ p = .caseExpansion) (journal : Array Event) :
    ∃ w found w' root, Pass.runInOrder ps ⟨t, journal⟩ = .ok [] w ∧ Capture.run w = .ok found w' ∧
      w'.tree.unfoldRoot = some root ∧ w'.tree.root = w.tree.root ∧
      (∀ x, (w'.tree.element? x).map Element.uncaptured = (w.tree.element? x).map Element.uncaptured) ∧
      (∀ p ∈ root.preorder, isPlaced p.2 = true → ∃ l env o us, At root (l :: env) (.node p.1 p.2 o us)) ∧
      (∀ env i f bound o j name params body lifted captures o' v, At root env (.node i (.closure f bound) o
        [.node j (.function name params body lifted captures) o' [v]]) →
          captures = firsts [] ((freeUses [params] v).filter (Capture.visibleIn env))) ∧
      ∀ j name params body lifted captures o v,
        .node j (.function name params body lifted captures) o [v] ∈ root.children → captures = [] := by
  obtain ⟨hfresh, hmodular⟩ := Lower.unit_fresh h
  obtain ⟨_, _, _, _, _, hroot₀⟩ := hmodular.unfoldRoot hfresh.owned
  have hshows₀ := (hfresh.owned.unfoldRoot_eq_some_iff.mp hroot₀).1
  obtain ⟨found, w, hrun, -⟩ := Pass.exists_runInOrder (w := ⟨t, journal⟩) ps hfresh.owned
  obtain ⟨rfl, howned, u, hu, hplain, -⟩ := Pass.fresh_runInOrder hps hfresh.owned hroot₀
    (hfresh.unfolding hshows₀).plain (announced_of_shows hfresh hshows₀ nofun) hrun
  obtain ⟨i, m, ids, o, us, hu'⟩ := (Pass.steady_runInOrder steady_modular hrun hmodular).unfoldRoot howned
  obtain rfl := Option.some.inj (hu.symm.trans hu')
  have hshows := (howned.unfoldRoot_eq_some_iff.mp hu).1
  have hU : (Unfolding.node i (.module m ids) o us).Fresh := ⟨hshows.fits howned, hshows.nodup_ids howned, hplain⟩
  -- what is written down
  obtain ⟨t', ht', howned', hroot⟩ := howned.recordAll_unfoldRoot hu (Capture.visit_takes _)
  obtain ⟨w', hcapture, rfl⟩ := Capture.run_of_recordAll hu ht'
  obtain ⟨-, hsame, helement⟩ := recordAll_eq_ok ht'
  have hmarks := fun j names => Iff.refl
    ((j, Mark.captures names) ∈ (Capture.visit {} (.node i (.module m ids) o us)).marks)
  have hmarked : ∀ as, (Unfolding.node i (.module m ids) o us).marked as =
      .node i (.module m ids) o (us.map (·.marked as)) := by
    intro as
    rw [Unfolding.marked_node, Unfolding.rekind_eq_self i as fun a => by cases a <;> rfl]
  refine ⟨w, _, w', _, hrun, hcapture, hroot, hsame, fun x => ?_, fun p hp hk => ?_, ?_, ?_⟩
  · rw [helement x]
    cases he : w.tree.element? x with
    | none => rfl
    | some e => exact congrArg some (Capture.uncaptured_marked hshows he)
  · have hfits := hU.fits.marked (Capture.visit {} (.node i (.module m ids) o us)).marks
    rw [hmarked] at hfits hp ⊢
    exact exists_at_of_mem_module hfits hp hk
  · intro env i f bound o j name params body lifted captures o' v hat
    exact Capture.captures_of_at hU hmarks hat
  · intro j name params body lifted captures o' v hmem
    rw [hmarked] at hmem
    obtain ⟨hcaptured, -⟩ := Capture.captured_of_at hU hmarks (At.function (hmarked _) hmem)
    refine List.eq_nil_iff_forall_not_mem.mpr fun x hx => ?_
    obtain ⟨l, hl, -⟩ := hcaptured.visible x hx
    cases hl

/-- A function that returns a closure, whose body is a closure that uses a name of each function around it, and a
callee that is one. -/
def relay : Ast.CompilationUnit where
  file := "relay"
  name := "relay"
  functions := [.mk (.function "main" ["f", "x"]) {} [.mk .block {} [
    .mk .returns {} [.mk (.closure ["y"]) {} [.mk (.closure ["z"]) {} [.mk (.binary "+") {} [
      .mk (.call "f") {} [.mk (.identifier "y") {} []], .mk (.binary "+") {} [
        .mk (.identifier "x") {} [], .mk (.identifier "z") {} []]]]]]]]]
  location := none

theorem relay_lowered : (match Lower.unit relay {} with
    | .ok _ _ => true
    | .error _ _ => false) = true := by
  decide +kernel

theorem relay_captures_free_names : ∃ t b, Lower.unit relay {} = .ok t b ∧ ∃ w found w' root,
    Pass.runInOrder [.matchExpansion, .caseExpansion] ⟨t, #[]⟩ = .ok [] w ∧ Capture.run w = .ok found w' ∧
      w'.tree.unfoldRoot = some root ∧
      ∀ env i f bound o j name params body lifted captures o' v, At root env (.node i (.closure f bound) o
        [.node j (.function name params body lifted captures) o' [v]]) →
          captures = firsts [] ((freeUses [params] v).filter (Capture.visibleIn env)) := by
  have htest := relay_lowered
  cases hlower : Lower.unit relay {} with
  | error e b =>
    rw [hlower] at htest
    cases htest
  | ok t b =>
    obtain ⟨w, found, w', root, hrun, hcapture, hroot, -, -, -, hcaptures, -⟩ :=
      captures_are_free_names hlower [.matchExpansion, .caseExpansion] (by simp) #[]
    exact ⟨t, b, rfl, w, found, w', root, hrun, hcapture, hroot, hcaptures⟩

end Clausal
