import Clausal.Proofs.Passes.Findings
import Clausal.Proofs.Scoping.Frames
import Clausal.Proofs.Scoping.Windows

/-! # Visits of name resolution

What a visit of a part of a module does to the state of name resolution: it keeps what was reported and
logged (`Later`), it leaves the frames of the functions around alone (`frames_visit`), and afterwards the
innermost frame agrees with a layer that has the new declarations too (`passed_visit`). -/

namespace Clausal

open Scoping List

/-! ### What a visit keeps -/

namespace Resolution

variable {r r' r'' : Resolution} {f : Frame} {fs : List Frame} {α : Type} {us : List Unfolding}
  {u : Unfolding} {l : Layer} {done rest : List ElementId} {x : String}

/-- The functions of the module are the same, and nothing that was reported or logged is lost. -/
structure Later (r r' : Resolution) : Prop where
  functions : r'.functions = r.functions
  diagnostics : ∀ d ∈ r.diagnostics, d ∈ r'.diagnostics
  marks : ∀ q ∈ r.marks, q ∈ r'.marks

theorem Later.refl (r : Resolution) : r.Later r := ⟨rfl, fun _ h => h, fun _ h => h⟩

theorem Later.trans (h : r.Later r') (h' : r'.Later r'') : r.Later r'' :=
  ⟨h'.functions.trans h.functions, fun d hd => h'.diagnostics d (h.diagnostics d hd),
    fun q hq => h'.marks q (h.marks q hq)⟩

section
variable (r) (i : ElementId) (o : Origin)

theorem later_frames (frames : List Frame) : r.Later { r with frames := frames } :=
  ⟨rfl, fun _ h => h, fun _ h => h⟩

theorem later_complain (problem : Problem) :
    r.Later (r.complain o problem) :=
  ⟨rfl, fun _ h => Array.mem_push_of_mem _ h, fun q h => by rwa [marks_complain]⟩

theorem later_foldl_complain (o : Origin) (g : α → Problem) (as : List α) (r : Resolution) :
    r.Later (as.foldl (fun r x => r.complain o (g x)) r) := by
  induction as generalizing r with
  | nil => exact .refl r
  | cons x as ih => exact (later_complain r o (g x)).trans (ih _)

theorem mem_diagnostics_foldl (o : Origin) (g : α → Problem) {as : List α} {x : α} (hx : x ∈ as)
    (r : Resolution) : ⟨g x, o⟩ ∈ (as.foldl (fun r x => r.complain o (g x)) r).diagnostics := by
  induction as generalizing r with
  | nil => cases hx
  | cons y as ih =>
    rcases mem_cons.mp hx with rfl | hx
    · exact (later_foldl_complain o g as _).diagnostics _ (Array.mem_push_self ..)
    · exact ih hx _

theorem later_bind (b : Binding) : r.Later (r.bind i b) :=
  ⟨rfl, fun _ h => h, fun _ h => (mem_marks_bind r).mpr (.inl h)⟩

theorem later_target (c : CallTarget) : r.Later (r.target i c) :=
  ⟨rfl, fun _ h => h, fun _ h => (mem_marks_target r).mpr (.inl h)⟩

theorem later_modifyTop (g : Frame → Frame) : r.Later (r.modifyTop g) := by
  unfold modifyTop
  split
  · exact .refl r
  · exact later_frames r _

theorem later_enter (function : String) (captures params : List String) :
    r.Later (r.enter o function captures params) :=
  (later_frames r _).trans (later_foldl_complain o (fun p => p) _ _)

theorem later_capture (names : List String) :
    r.Later (r.capture i o names) := by
  have hcomplain := later_foldl_complain o Problem.captureOutOfScope
    (names.filter fun name => (r.lookup name).isNone) r
  exact ⟨hcomplain.functions, hcomplain.diagnostics, fun q hq => (mem_marks_capture r).mpr (.inl hq)⟩

theorem later_declareLocal (x : String) (d : Declaration) : r.Later (r.declareLocal i o x d) := by
  unfold declareLocal
  split
  · exact later_complain r o _
  · split
    · exact (later_frames r _).trans (later_bind _ i _)
    · exact later_complain r o _

theorem later_assign (x : String) (initializer : Bool) :
    r.Later (r.assign i o x initializer) := by
  unfold assign
  split
  · exact later_complain r o _
  · split_ifs
    · exact later_complain r o _
    · exact later_complain r o _
    · exact later_bind r i _

theorem later_refer (x : String) :
    r.Later (r.refer i o x) := by
  unfold refer
  split
  · exact later_bind r i _
  · exact later_complain r o _

theorem later_call (x : String) (given : Nat) :
    r.Later (r.call i o x given) := by
  unfold call
  split
  · exact later_target r i _
  · split
    · refine .trans ?_ (later_target _ i _)
      split_ifs
      · exact .refl r
      · exact later_complain r o _
    · split_ifs
      · exact later_target r i _
      · exact later_complain r o _

end

theorem visitAll_append_cons (before after : List Unfolding) (u : Unfolding) (r : Resolution) :
    visitAll r (before ++ u :: after) = visitAll (visit (visitAll r before) u) after := by
  rw [visitAll_eq_foldl, visitAll_eq_foldl, visitAll_eq_foldl, foldl_append, foldl_cons]

theorem later_visitAll_of (h : ∀ u ∈ us, ∀ r : Resolution, r.Later (visit r u)) (r : Resolution) :
    r.Later (visitAll r us) := by
  induction us generalizing r with
  | nil => exact .refl r
  | cons u us ih =>
    rw [visitAll]
    exact (h u (.head _) r).trans (ih (fun v hv => h v (.tail _ hv)) _)

theorem later_visit (hu : u.Inner) (r : Resolution) : r.Later (visit r u) := by
  induction u generalizing r with
  | node i k o us ih =>
    have hall := later_visitAll_of fun u hm r => ih u hm (hu.1.inner u hm) r
    unfold visit
    cases k with
    | module name ids =>
      obtain ⟨role, hrole⟩ := hu.2
      cases role <;> cases hrole
    | function name params b lifted captures =>
      exact ((later_enter r o name captures params).trans (hall _)).trans (later_frames _ _)
    | block ids =>
      exact ((later_modifyTop r _).trans (hall _)).trans (later_modifyTop _ _)
    | assignment x d value b initializer =>
      cases d with
      | some d =>
        exact (hall r).trans (later_declareLocal _ i o x d)
      | none =>
        exact (hall r).trans (later_assign _ i o x initializer)
    | reference x b =>
      exact later_refer r i o x
    | invocation x arguments target =>
      exact (hall r).trans (later_call _ i o x _)
    | closure e bound =>
      exact (later_capture r i o _).trans (hall _)
    | _ =>
      exact hall r

theorem later_visitAll (hus : ∀ u ∈ us, u.Inner) (r : Resolution) : r.Later (visitAll r us) :=
  later_visitAll_of (fun u hu => later_visit (hus u hu)) r

theorem logs : Logs Unfolding.Inner visit marks :=
  ⟨fun hu r => (later_visit hu r).marks, fun {u} _ r q hq => (visit_marks u r q hq).imp_right (·.mem_ids)⟩

/-! ### What a visit does to the frames -/

section
variable (r) (i : ElementId) (o : Origin)

@[simp] theorem frames_complain (problem : Problem) :
    (r.complain o problem).frames = r.frames := rfl

@[simp] theorem frames_foldl_complain (o : Origin) (g : α → Problem) (as : List α) (r : Resolution) :
    (as.foldl (fun r x => r.complain o (g x)) r).frames = r.frames := by
  induction as generalizing r with
  | nil => rfl
  | cons x as ih => rw [foldl_cons, ih, frames_complain]

@[simp] theorem frames_enterFunctions (us : List Unfolding) (r : Resolution) :
    (r.enterFunctions us).frames = r.frames := by
  induction us generalizing r with
  | nil => rfl
  | cons u us ih =>
    obtain ⟨i, k, o, vs⟩ := u
    cases k <;> simp only [enterFunctions, ih]
    split_ifs <;> rfl

@[simp] theorem frames_checkMain : (r.checkMain o).frames = r.frames := by
  unfold checkMain
  split_ifs <;> rfl

theorem functions_checkMain : (r.checkMain o).functions = r.functions := by
  unfold checkMain
  split_ifs <;> rfl

@[simp] theorem frames_enter (function : String) (captures params : List String) :
    (r.enter o function captures params).frames = (Frame.enter function captures params).1 :: r.frames :=
  frames_foldl_complain o (fun p => p) _ _

@[simp] theorem frames_capture (names : List String) :
    (r.capture i o names).frames = r.frames :=
  frames_foldl_complain o Problem.captureOutOfScope _ r

@[simp] theorem frames_assign (x : String) (initializer : Bool) :
    (r.assign i o x initializer).frames = r.frames := by
  unfold assign
  split
  · rfl
  · split_ifs <;> rfl

@[simp] theorem frames_refer (x : String) :
    (r.refer i o x).frames = r.frames := by
  unfold refer
  split <;> rfl

@[simp] theorem frames_call (x : String) (given : Nat) :
    (r.call i o x given).frames = r.frames := by
  unfold call
  split
  · rfl
  · split
    · split_ifs <;> rfl
    · split_ifs <;> rfl

end

theorem frames_modifyTop (hr : r.frames = f :: fs) (g : Frame → Frame) :
    (r.modifyTop g).frames = g f :: fs := by
  unfold modifyTop
  rw [hr]

theorem frames_declareLocal (hr : r.frames = f :: fs) (i : ElementId) (o : Origin) (x : String)
    (d : Declaration) : ∃ f', (r.declareLocal i o x d).frames = f' :: fs := by
  unfold declareLocal
  rw [hr]
  dsimp only
  split
  · exact ⟨_, rfl⟩
  · exact ⟨f, hr⟩

theorem frames_visitAll_of
    (h : ∀ u ∈ us, ∀ {r : Resolution} {f : Frame}, r.frames = f :: fs → ∃ f', (visit r u).frames = f' :: fs)
    (hr : r.frames = f :: fs) : ∃ f', (visitAll r us).frames = f' :: fs := by
  induction us generalizing r f with
  | nil => exact ⟨f, hr⟩
  | cons u us ih =>
    obtain ⟨f', hf'⟩ := h u (.head _) hr
    rw [visitAll]
    exact ih (fun v hv => h v (.tail _ hv)) hf'

theorem frames_visit (u : Unfolding) (hr : r.frames = f :: fs) : ∃ f', (visit r u).frames = f' :: fs := by
  induction u generalizing fs r f with
  | node i k o us ih =>
    have hall : ∀ {fs : List Frame} {r : Resolution} {f : Frame}, r.frames = f :: fs →
        ∃ f', (visitAll r us).frames = f' :: fs := fun hr => frames_visitAll_of (fun u hu => ih u hu) hr
    cases k with
    | function name params b lifted captures =>
      obtain ⟨g, hg⟩ := hall (r.frames_enter o name captures params)
      refine ⟨f, ?_⟩
      simp only [visit, leave, hg, hr, tail_cons]
    | block ids =>
      obtain ⟨g, hg⟩ := hall (frames_modifyTop hr _)
      exact ⟨_, by simp only [visit]; exact frames_modifyTop hg _⟩
    | assignment x d value b initializer =>
      obtain ⟨g, hg⟩ := hall hr
      cases d with
      | some d =>
        simp only [visit]
        exact frames_declareLocal hg i o x d
      | none =>
        simp only [visit, frames_assign]
        exact ⟨g, hg⟩
    | reference x b =>
      simp only [visit, frames_refer]
      exact ⟨f, hr⟩
    | invocation x arguments target =>
      simp only [visit, frames_call]
      exact hall hr
    | module | closure =>
      simp only [visit]
      exact hall (by simpa using hr)
    | _ =>
      simp only [visit]
      exact hall hr

theorem frames_visitAll (us : List Unfolding) (hr : r.frames = f :: fs) :
    ∃ f', (visitAll r us).frames = f' :: fs :=
  frames_visitAll_of (fun u _ => frames_visit u) hr

/-! ### Visits and layers -/

theorem declareLocal_repeated (hr : r.frames = f :: fs) (hf : f.Agrees l done) (hs : l.scopes ≠ [])
    (hx : x ∈ l.seen) (i : ElementId) (o : Origin) (d : Declaration) :
    r.declareLocal i o x d = r.complain o (.repeatedVariable x) := by
  unfold declareLocal
  rw [hr]
  dsimp only
  rw [(hf.declare_repeated hs hx .local _ (.local i true)).1]
  rfl

theorem declareLocal_new (hr : r.frames = f :: fs) (hf : f.Agrees l done) (hs : l.scopes ≠ [])
    (hx : x ∉ l.seen) {i : ElementId} (hl : l.locals = done ++ i :: rest) (hi : i ∉ done) (o : Origin)
    (d : Declaration) (hroom : Roomy (r.declareLocal i o x d).diagnostics.toList) :
    ∃ f', r.declareLocal i o x d =
        ({ r with frames := f' :: fs } : Resolution).bind i (l.symbol (.local i (d = .constant))).binding ∧
      f'.Agrees (l.extend [(x, .local i (d = .constant))]) (done ++ [i]) := by
  unfold declareLocal at hroom ⊢
  rw [hr] at hroom ⊢
  dsimp only at hroom ⊢
  rcases hf.declare_new hs hx hl hi (d = .constant) with hfull | ⟨f', heq, hf'⟩
  · split at hroom
    · rename_i heq
      rw [heq] at hfull
      cases hfull
    · rename_i heq
      rw [heq] at hfull
      cases hfull
      exact absurd rfl (hroom _ (Array.mem_toList_iff.mpr (Array.mem_push_self ..)) _ x)
  · rw [heq]
    exact ⟨f', rfl, hf'⟩

theorem Roomy.mono {found found' : List Diagnostic} (h : Roomy found) (hsub : ∀ d ∈ found', d ∈ found) :
    Roomy found' := fun d hd => h d (hsub d hd)

theorem Later.roomy (h : r.Later r') (hroom : Roomy r'.diagnostics.toList) :
    Roomy r.diagnostics.toList :=
  Roomy.mono hroom fun d hd => Array.mem_toList_iff.mpr (h.diagnostics d (Array.mem_toList_iff.mp hd))

/-- The frame of the innermost function after a visit knows what was declared. -/
def Passed (fs : List Frame) (l : Layer) (done : List ElementId) (r : Resolution) : Prop :=
  ∃ f, r.frames = f :: fs ∧ f.Agrees l done

theorem passed_visitAll_of (h : ∀ u ∈ us, ∀ {r : Resolution} {l : Layer} {done : List ElementId}, Passed fs l
    done r → l.locals.Nodup → done ++ (locals u ++ accepted l.seen u) <+: l.locals → (declared [u] ≠ [] →
    l.scopes ≠ []) → Roomy (visit r u).diagnostics.toList → Passed fs (l.extend (declared [u])) (done ++
    (locals u ++ accepted l.seen u)) (visit r u)) (hus : ∀ u ∈ us, u.Inner) (hr : Passed fs l done r)
    (hnodup : l.locals.Nodup) (hl : done ++ localsIn l.seen us <+: l.locals)
    (hs : declared us ≠ [] → l.scopes ≠ []) (hroom : Roomy (visitAll r us).diagnostics.toList) :
    Passed fs (l.extend (declared us)) (done ++ localsIn l.seen us) (visitAll r us) := by
  induction us generalizing r l done with
  | nil =>
    rw [visitAll, localsIn, append_nil]
    exact (l.extend_nil).symm ▸ hr
  | cons u us ih =>
    rw [declared_cons] at hs ⊢
    have hs1 : declared [u] ≠ [] → l.scopes ≠ [] := fun h => hs (append_ne_nil_of_left_ne_nil h _)
    rw [localsIn, ← l.seen_extend hs1, ← append_assoc] at hl ⊢
    rw [visitAll] at hroom ⊢
    rw [← l.extend_extend]
    have hus1 : ∀ v ∈ us, v.Inner := fun v hv => hus v (.tail _ hv)
    refine ih (fun v hv => h v (.tail _ hv)) hus1 ?_ hnodup hl ?_ hroom
    · exact h u (.head _) hr hnodup ((prefix_append ..).trans hl) hs1
        ((later_visitAll hus1 _).roomy hroom)
    · intro hus
      obtain ⟨s, ss, hscopes⟩ := exists_cons_of_ne_nil (hs (append_ne_nil_of_right_ne_nil _ hus))
      rw [l.scopes_extend hscopes]
      exact cons_ne_nil _ _

theorem accepted_of_declared (h : declared [u] = []) (seen : List String) : accepted seen u = [] := by
  obtain ⟨i, k, o, us⟩ := u
  cases k with
  | assignment x d value b initializer =>
    cases d with
    | some d => cases h
    | none => rfl
  | _ => rfl

theorem localsIn_of_declared (h : declared us = []) (seen : List String) :
    localsIn seen us = localsAll us := by
  induction us generalizing seen with
  | nil => rw [localsIn, localsAll]
  | cons u us ih =>
    rw [declared_cons, append_eq_nil_iff] at h
    rw [localsIn, localsAll, accepted_of_declared h.1, append_nil, ih h.2]

theorem passed_visit (hu : u.Fits) (hr : Passed fs l done r) (hnodup : l.locals.Nodup)
    (hl : done ++ (locals u ++ accepted l.seen u) <+: l.locals) (hs : declared [u] ≠ [] → l.scopes ≠ [])
    (hroom : Roomy (visit r u).diagnostics.toList) :
    Passed fs (l.extend (declared [u])) (done ++ (locals u ++ accepted l.seen u)) (visit r u) := by
  induction u generalizing fs r l done with
  | node i k o us ih =>
    have hall : ∀ {fs : List Frame} {r : Resolution} {l : Layer} {done : List ElementId},
        Passed fs l done r → l.locals.Nodup → done ++ localsIn l.seen us <+: l.locals →
        (declared us ≠ [] → l.scopes ≠ []) → Roomy (visitAll r us).diagnostics.toList →
        Passed fs (l.extend (declared us)) (done ++ localsIn l.seen us) (visitAll r us) :=
      passed_visitAll_of (fun u hm => ih u hm (hu.child u hm)) hu.inner
    have hplain : ∀ {r : Resolution}, (∀ ids, k ≠ .block ids) → Passed fs l done r →
        done ++ localsAll us <+: l.locals → Roomy (visitAll r us).diagnostics.toList →
        Passed fs l (done ++ localsAll us) (visitAll r us) := by
      intro r hk hr hl hroom
      have hnone := declared_of_fits hu hk
      rw [← localsIn_of_declared hnone l.seen] at hl ⊢
      have := hall hr hnodup hl (fun h => absurd hnone h) hroom
      rwa [hnone, l.extend_nil] at this
    have hself : ∀ {r' : Resolution}, declared [.node i k o us] = [] →
        (done ++ locals (.node i k o us) <+: l.locals → Passed fs l (done ++ locals (.node i k o us)) r') →
        Passed fs (l.extend (declared [.node i k o us]))
          (done ++ (locals (.node i k o us) ++ accepted l.seen (.node i k o us))) r' := by
      intro r' hd hgoal
      rw [accepted_of_declared hd, append_nil] at hl ⊢
      rw [hd, l.extend_nil]
      exact hgoal hl
    cases k with
    | function name params b lifted captures =>
      refine hself rfl fun hl => ?_
      obtain ⟨f, hf, hagrees⟩ := hr
      obtain ⟨g, hg⟩ := frames_visitAll us (r.frames_enter o name captures params)
      rw [locals, append_nil]
      refine ⟨f, ?_, hagrees⟩
      simp only [visit, leave, hg, hf, tail_cons]
    | block ids =>
      refine hself rfl fun hl => ?_
      simp only [visit, locals] at hroom hl ⊢
      obtain ⟨f, hf, hagrees⟩ := hr
      have hopen : Passed fs (l.opened []) done r.openScope := ⟨_, frames_modifyTop hf _, hagrees.opened⟩
      obtain ⟨g, hg, hagrees'⟩ := hall hopen hnodup hl (fun _ => cons_ne_nil _ _)
        ((later_modifyTop _ _).roomy hroom)
      rw [l.opened_append] at hagrees'
      exact ⟨_, frames_modifyTop hg _, hagrees'.closed⟩
    | assignment x d value b initializer =>
      cases d with
      | none =>
        refine hself rfl fun hl => ?_
        simp only [visit, locals] at hroom hl ⊢
        obtain ⟨g, hg, hagrees⟩ := hplain (by simp) hr hl ((later_assign ..).roomy hroom)
        exact ⟨g, (frames_assign ..).trans hg, hagrees⟩
      | some d =>
        have hscopes : l.scopes ≠ [] := hs (cons_ne_nil _ _)
        simp only [visit, locals, accepted] at hroom hl ⊢
        obtain ⟨g, hg, hagrees⟩ := hplain (by simp) hr
          ((prefix_append_right_inj done).mpr (prefix_append ..) |>.trans hl)
          ((later_declareLocal ..).roomy hroom)
        by_cases hx : x ∈ l.seen
        · rw [declareLocal_repeated hg hagrees hscopes hx, if_pos hx, append_nil]
          exact ⟨g, hg, (hagrees.declare_repeated hscopes hx .local true _).2⟩
        · rw [if_neg hx, ← append_assoc] at hl ⊢
          obtain ⟨rest, hrest⟩ := hl
          rw [append_assoc, singleton_append] at hrest
          have hi : i ∉ done ++ localsAll us := by
            rw [← hrest, nodup_append'] at hnodup
            exact fun hi => hnodup.2.2 hi (.head _)
          obtain ⟨g', heq, hagrees'⟩ := declareLocal_new hg hagrees hscopes hx hrest.symm hi o d hroom
          rw [heq]
          exact ⟨g', rfl, hagrees'⟩
    | reference x b =>
      refine hself rfl fun hl => ?_
      obtain rfl := hu.none rfl
      simp only [visit, locals, localsAll, append_nil]
      obtain ⟨f, hf, hagrees⟩ := hr
      exact ⟨f, (frames_refer ..).trans hf, hagrees⟩
    | invocation x arguments target =>
      refine hself rfl fun hl => ?_
      simp only [visit, locals] at hroom hl ⊢
      obtain ⟨g, hg, hagrees⟩ := hplain (by simp) hr hl ((later_call ..).roomy hroom)
      exact ⟨g, (frames_call ..).trans hg, hagrees⟩
    | module | closure =>
      refine hself rfl fun hl => ?_
      simp only [visit, locals] at hroom hl ⊢
      obtain ⟨f, hf, hagrees⟩ := hr
      exact hplain (by simp) ⟨f, by simpa using hf, hagrees⟩ hl hroom
    | _ =>
      refine hself rfl fun hl => ?_
      simp only [visit, locals] at hroom hl ⊢
      exact hplain (by simp) hr hl hroom

end Resolution

end Clausal
