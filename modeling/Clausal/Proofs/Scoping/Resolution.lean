import Clausal.Proofs.Scoping.Visits

/-! # Every place is visited

Going down from the root, name resolution meets every place of a module: `Meets` says what it knows and
owes there, and is handed on to the parts of an element (`Meets.part`), the statements of a block
(`Meets.statement`) and the body of a closure (`Meets.closure`). -/

namespace Clausal

open Scoping List Unfolding

namespace Resolution

/-- The visit of an element of a function: the frame knows what the function has declared, the locals
from here on are still to come, and what the visit logs and reports ends up in `final` and `found`. -/
structure Meets (final : List (ElementId × Mark)) (found : List Diagnostic) (functions : List String)
    (r : Resolution) (u : Unfolding) (l : Layer) : Prop where
  nodup : l.locals.Nodup
  block : declared [u] ≠ [] → l.scopes ≠ []
  passed : ∃ fs done, Passed fs l done r ∧ done ++ (locals u ++ accepted l.seen u) <+: l.locals
  window : Window u.ids r.marks (visit r u).marks final
  found : ∀ d ∈ (visit r u).diagnostics, d ∈ found
  functions : ∀ x, r.functions.contains x = true ↔ x ∈ functions

variable {final : List (ElementId × Mark)} {found : List Diagnostic} {functions params captures : List String}
  {r : Resolution} {l : Layer} {fs : List Frame} {done : List ElementId} {after us before : List Unfolding}
  {k : Kind} {name : String} {lifted : Bool} {body u : Unfolding} {i j b : ElementId} {o : Origin}

theorem roomy_of_found (hroom : Roomy found) (h : ∀ d ∈ r.diagnostics, d ∈ found) :
    Roomy r.diagnostics.toList :=
  Roomy.mono hroom fun d hd => h d (Array.mem_toList_iff.mp hd)

theorem meets_child (hr : Passed fs l done r)
    (hnodup : l.locals.Nodup) (hl : done ++ localsIn l.seen (before ++ u :: after) <+: l.locals)
    (hs : declared (before ++ u :: after) ≠ [] → l.scopes ≠ []) (hus : ∀ v ∈ before ++ u :: after, v.Inner)
    (hids : ((before ++ u :: after).flatMap Unfolding.ids).Nodup) (hw : Window ((before ++ u :: after).flatMap
    Unfolding.ids) r.marks (visitAll r (before ++ u :: after)).marks final)
    (hfound : ∀ d ∈ (visitAll r (before ++ u :: after)).diagnostics, d ∈ found) (hroom : Roomy found)
    (hfunctions : ∀ x, r.functions.contains x = true ↔ x ∈ functions) :
    Meets final found functions (visitAll r before) u (l.extend (declared before)) := by
  have hbefore : ∀ v ∈ before, v.Inner := fun v hv => hus v (mem_append_left _ hv)
  have hafter : ∀ v ∈ after, v.Inner := fun v hv => hus v (by simp [hv])
  have hdeclared : declared (before ++ u :: after) = declared before ++ declared [u] ++ declared after := by
    rw [declared, filterMap_append, ← declared, ← declared, declared_cons, append_assoc]
  rw [hdeclared] at hs
  have hs1 : declared before ≠ [] → l.scopes ≠ [] := fun h =>
    hs (append_ne_nil_of_left_ne_nil (append_ne_nil_of_left_ne_nil h _) _)
  have hfound1 : ∀ d ∈ (visit (visitAll r before) u).diagnostics, d ∈ found := by
    intro d hd
    rw [visitAll_append_cons] at hfound
    exact hfound d ((later_visitAll hafter _).diagnostics d hd)
  have hroom1 : Roomy (visitAll r before).diagnostics.toList :=
    (later_visit (hus u (by simp)) _).roomy (roomy_of_found hroom hfound1)
  rw [localsIn_append, ← l.seen_extend hs1, localsIn, ← append_assoc, ← append_assoc] at hl
  refine ⟨hnodup, ?_, ⟨fs, _, ?_, (prefix_append ..).trans hl⟩, ?_, hfound1, ?_⟩
  · intro h
    obtain ⟨s, ss, hscopes⟩ := exists_cons_of_ne_nil
      (hs (append_ne_nil_of_left_ne_nil (append_ne_nil_of_right_ne_nil _ h) _))
    rw [l.scopes_extend hscopes]
    exact cons_ne_nil _ _
  · refine passed_visitAll_of (fun v hv => passed_visit (hbefore v hv).1) hbefore hr hnodup ?_ hs1 hroom1
    rw [append_assoc] at hl
    exact (prefix_append ..).trans hl
  · rw [visitAll_eq_foldl] at hw ⊢
    exact logs.child hus hids hw
  · intro x
    rw [(later_visitAll hbefore r).functions, hfunctions]

theorem visit_parts (r : Resolution) (hk : changesScope k = false) (hfits : Fits (.node i k o us)) :
    (visitAll r us).Later (visit r (.node i k o us)) ∧
      ∀ q ∈ (visit r (.node i k o us)).marks, q ∈ (visitAll r us).marks ∨ q.1 = i := by
  cases k with
  | assignment x d value b initializer =>
    cases d with
    | none =>
      simp only [visit]
      refine ⟨later_assign .., fun q hq => (mem_marks_assign _ hq).imp_right ?_⟩
      rintro ⟨b, rfl⟩
      rfl
    | some d =>
      simp only [visit]
      refine ⟨later_declareLocal .., fun q hq => (mem_marks_declareLocal _ hq).imp_right ?_⟩
      rintro ⟨b, rfl⟩
      rfl
  | reference x b =>
    obtain rfl := hfits.none rfl
    simp only [visit, visitAll]
    refine ⟨later_refer .., fun q hq => (mem_marks_refer _ hq).imp_right ?_⟩
    rintro ⟨b, rfl⟩
    rfl
  | invocation x arguments target =>
    simp only [visit]
    refine ⟨later_call .., fun q hq => (mem_marks_call _ hq).imp_right ?_⟩
    rintro ⟨c, rfl⟩
    rfl
  | module _ _ => cases hk
  | function _ _ _ _ _ => cases hk
  | block _ => cases hk
  | closure _ _ => cases hk
  | _ =>
    simp only [visit]
    exact ⟨.refl _, fun q hq => .inl hq⟩

theorem locals_parts (hk : changesScope k = false) : locals (.node i k o us) = localsAll us := by
  cases k <;> cases hk <;> simp only [locals]

theorem Meets.part (h : Meets final found functions r (.node i k o us) l)
    (hroom : Roomy found) (hfits : Fits (.node i k o us))
    (hids : (node i k o us).ids.Nodup) (hk : changesScope k = false) (hu : u ∈ us) :
    ∃ r', Meets final found functions r' u l := by
  obtain ⟨fs, done, hpassed, hl⟩ := h.passed
  obtain ⟨hlater, hmarks⟩ := visit_parts r hk hfits
  have hnone : declared us = [] := by
    refine declared_of_fits hfits ?_
    rintro ids rfl
    cases hk
  rw [ids_node, nodup_cons] at hids
  rw [locals_parts hk, ← localsIn_of_declared hnone l.seen, ← append_assoc] at hl
  obtain ⟨before, after, rfl⟩ := append_of_mem hu
  have hw := h.window
  rw [ids_node] at hw
  have hown : ∀ q : ElementId × Mark, q.1 = i → q.1 ∉ (before ++ u :: after).flatMap Unfolding.ids := by
    rintro q rfl
    exact hids.1
  have hmeets := meets_child hpassed h.nodup ((prefix_append ..).trans hl)
    (fun hd => absurd hnone hd) hfits.inner hids.2
    (hw.narrow (fun j hj => .tail _ hj) (fun _ hq => .inl hq)
      (fun q hq => (hmarks q hq).imp_right (hown q)) hlater.marks)
    (fun d hd => h.found d (hlater.diagnostics d hd)) hroom h.functions
  have hbefore : declared before = [] := by
    rw [declared, filterMap_append] at hnone
    exact (append_eq_nil_iff.mp hnone).1
  rw [hbefore, l.extend_nil] at hmeets
  exact ⟨_, hmeets⟩

theorem Meets.statement {ids : List ElementId}
    (h : Meets final found functions r (.node i (.block ids) o (before ++ u :: after)) l)
    (hroom : Roomy found) (hfits : Fits (.node i (.block ids) o (before ++ u :: after)))
    (hids : (node i (.block ids) o (before ++ u :: after)).ids.Nodup) :
    ∃ r', Meets final found functions r' u (l.opened before) := by
  obtain ⟨fs, done, ⟨f, hf, hagrees⟩, hl⟩ := h.passed
  have hopen : Passed fs (l.opened []) done r.openScope := ⟨_, frames_modifyTop hf _, hagrees.opened⟩
  have hfound := h.found
  have hw := h.window
  rw [locals, ← append_assoc] at hl
  rw [visit] at hfound hw
  rw [ids_node, nodup_cons] at hids
  rw [ids_node, closeScope, marks_modifyTop] at hw
  have hmarks : r.openScope.marks = r.marks := marks_modifyTop r _
  have hfunctions : ∀ x, r.openScope.functions.contains x = true ↔ x ∈ functions := by
    intro x
    rw [openScope, (later_modifyTop r _).functions, h.functions]
  have hmeets := meets_child hopen h.nodup ((prefix_append ..).trans hl)
    (fun _ => cons_ne_nil _ _) hfits.inner hids.2
    (hw.narrow (fun j hj => .tail _ hj) (fun q hq => .inl (hmarks ▸ hq)) (fun _ hq => .inl hq) fun _ hq => hq)
    (fun d hd => hfound d ((later_modifyTop _ _).diagnostics d hd)) hroom hfunctions
  rw [l.opened_append] at hmeets
  exact ⟨_, hmeets⟩

theorem meets_function (hfits : Fits (.node j (.function name params b lifted captures) o [body]))
    (hids : (node j (.function name params b lifted captures) o [body]).ids.Nodup) (hw : Window
    (node j (.function name params b lifted captures) o [body]).ids r.marks (visit r (.node j
    (.function name params b lifted captures) o [body])).marks final) (hfound : ∀ d ∈ (visit r (.node j
    (.function name params b lifted captures) o [body])).diagnostics, d ∈ found) (hroom : Roomy found)
    (hfunctions : ∀ x, r.functions.contains x = true ↔ x ∈ functions) (hcaptures : captures.Nodup)
    (hparams : ∀ x ∈ captures, x ∉ params) (bound : List Binding) :
    Meets final found functions (r.enter o name captures params) body
      (.ofBody captures bound params body) := by
  obtain ⟨hbody, role, hrole⟩ := hfits.inner body (.head _)
  have hnone : declared [body] = [] := declared_of_fits hfits fun _ => nofun
  have hvisit : visit r (.node j (.function name params b lifted captures) o [body]) =
      (visit (r.enter o name captures params) body).leave := by
    simp only [visit, visitAll]
  rw [hvisit] at hw hfound
  rw [ids_node, flatMap_singleton] at hw hids
  rw [nodup_cons] at hids
  have hproblems : ∀ p ∈ (Frame.enter name captures params).2, ∀ g x, p ≠ .frameFull g x := by
    intro p hp
    refine hroom ⟨p, o⟩ (hfound _ ?_)
    exact (later_visit ⟨hbody, role, hrole⟩ _).diagnostics _ (mem_diagnostics_foldl o (fun p => p) hp _)
  refine ⟨nodup_locals hids.2, fun h => absurd hnone h, ⟨r.frames, [], ⟨_, r.frames_enter .., ?_⟩, ?_⟩,
    ?_, hfound, ?_⟩
  · exact Frame.agrees_enter name hcaptures hparams hproblems bound body
  · rw [accepted_of_declared hnone, append_nil, nil_append]
    exact prefix_rfl
  · refine hw.narrow (fun i hi => .tail _ hi) (fun q hq => .inl ?_) (fun _ hq => .inl hq) fun _ hq => hq
    rwa [marks_enter] at hq
  · intro x
    rw [(later_enter ..).functions, hfunctions]

theorem Passed.lookup (h : Passed fs l done r) (x : String) : r.lookup x = l.meaning x := by
  obtain ⟨f, hf, hagrees⟩ := h
  rw [Resolution.lookup, hf, head?_cons, Option.bind_some, hagrees.lookup]

theorem Meets.closure {e : ElementId} {o' : Origin} {bound0 : List Binding} (h : Meets final found
    functions r (.node i (.closure e bound0) o [.node j (.function name params b lifted captures) o' [body]])
    l) (hroom : Roomy found) (hfits : Fits (.node i (.closure e bound0) o [.node j (.function name
    params b lifted captures) o' [body]])) (hids : (node i (.closure e bound0) o [.node j (.function
    name params b lifted captures) o' [body]]).ids.Nodup) (hcaptures : captures.Nodup)
    (hparams : ∀ x ∈ captures, x ∉ params) :
    Mark.latest Mark.closureBindings? i final bound0 =
        captures.filterMap (fun x => (l.meaning x).map Symbol.binding) ∧
      ∀ bound, ∃ r', Meets final found functions r' body (.ofBody captures bound params body) := by
  obtain ⟨fs, done, hpassed, -⟩ := h.passed
  have hw := h.window
  have hfound := h.found
  have hvisit : visit r (.node i (.closure e bound0) o
      [.node j (.function name params b lifted captures) o' [body]]) =
        visit (r.capture i o captures) (.node j (.function name params b lifted captures) o' [body]) := by
    rw [visit, visitAll, visitAll]
    rfl
  have hbindings : captures.filterMap (fun x => (l.meaning x).map Symbol.binding) =
      captures.filterMap fun x => (r.lookup x).map Symbol.binding := by
    simp only [hpassed.lookup]
  rw [hvisit] at hw hfound
  rw [hbindings]
  rw [ids_node, flatMap_singleton] at hw hids
  rw [nodup_cons] at hids
  have hinner := hfits.inner _ (.head _)
  constructor
  · refine hw.latest_eq Mark.closureBindings? (.head _)
      ((later_visit hinner _).marks _ ((mem_marks_capture r).mpr (.inr rfl))) rfl ?_ _
    rintro q hq rfl
    rcases logs.adds hinner _ q hq with hq | hq
    · exact ((mem_marks_capture r).mp hq).resolve_left fun hq =>
        hw.unmarked q hq (.head _)
    · exact absurd hq hids.1
  · intro bound
    refine ⟨_, meets_function hinner.1 hids.2 ?_ hfound hroom ?_ hcaptures hparams bound⟩
    · refine hw.narrow (fun k hk => .tail _ hk) (fun q hq => ?_) (fun _ hq => .inl hq) fun _ hq => hq
      refine ((mem_marks_capture r).mp hq).imp_right ?_
      rintro rfl
      exact hids.1
    · intro x
      rw [(later_capture ..).functions, h.functions]

end Resolution

end Clausal
