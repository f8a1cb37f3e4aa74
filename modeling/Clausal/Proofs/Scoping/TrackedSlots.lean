import Clausal.Proofs.Bytecode.Complete
import Clausal.Proofs.Meaning.Pouring
import Clausal.Proofs.Scoping.Tracking

/-! # Slots and expanded matches

Name resolution finds the same slots in an unfolding and in the expansion of its matches, provided that all
assignments get a slot in both (`Resolution.Lands`), and then it has something to complain of in both or in
neither. -/

namespace Clausal

open MatchExpansion Scoping List Option Unfolding

namespace Frame

/-- Two frames know the same names in the same slots, though one may have more blocks open. -/
structure Near (f f' : Frame) : Prop where
  next : f'.nextSlot = f.nextSlot
  lookup : ∀ x, f'.lookup x = f.lookup x

variable {f f' g g' : Frame} {kind : BindingKind} {constant : Bool} {x : String} {b : Binding}

theorem declare_ok (h : f.declare kind constant x = (g, .ok b)) :
    b = ⟨f.nextSlot.toUInt16, kind⟩ ∧ g.nextSlot = f.nextSlot + 1 ∧ g.scopes.tail = f.scopes.tail ∧
      ∀ y, g.lookup y = if x = y then some ⟨b, constant⟩ else f.lookup y := by
  obtain ⟨function, scopes, n⟩ := f
  cases scopes with
  | nil => cases h
  | cons scope outer =>
    rw [declare] at h
    split_ifs at h
    · cases h
    · cases h
    · cases h
      refine ⟨rfl, rfl, rfl, fun y => ?_⟩
      simp only [Frame.lookup, findSome?_cons, Std.HashMap.getElem?_insert, beq_iff_eq]
      by_cases hxy : x = y
      · simp only [hxy, if_true]
      · simp only [hxy, if_false]

theorem Near.declare (h : f.Near f') {b' : Binding} (hg : f.declare kind constant x = (g, .ok b))
    (hg' : f'.declare kind constant x = (g', .ok b')) : g.Near g' ∧ b' = b := by
  obtain ⟨hb, hnext, -, hlookup⟩ := declare_ok hg
  obtain ⟨hb', hnext', -, hlookup'⟩ := declare_ok hg'
  have hbb : b' = b := by rw [hb, hb', h.next]
  refine ⟨⟨by rw [hnext, hnext', h.next], fun y => ?_⟩, hbb⟩
  rw [hlookup, hlookup', hbb, h.lookup]

theorem lookup_open (f : Frame) (x : String) :
    ({ f with scopes := {} :: f.scopes } : Frame).lookup x = f.lookup x := by
  simp [Frame.lookup]

theorem lookup_of_scopes (h : f'.scopes = f.scopes) (x : String) : f'.lookup x = f.lookup x := by
  rw [Frame.lookup, h, Frame.lookup]

end Frame

namespace Resolution

variable {r r' r'' s s' : Resolution} {α : Type} {us us' : List Unfolding} {u v : Unfolding} {o : Origin}
  {i : ElementId} {x : String} {d : Declaration} {k k' : Kind}

/-! ### What a visit leaves alone -/

/-- The frames of the functions around are left alone, and so is something about the innermost frame. -/
def Keeps {α : Type} (g : Frame → α) (r r' : Resolution) : Prop :=
  r'.frames.tail = r.frames.tail ∧ r'.frames.head?.map g = r.frames.head?.map g

theorem Keeps.of_frames {g : Frame → α} (h : r'.frames = r.frames) : r.Keeps g r' := by
  rw [Keeps, h]
  exact ⟨rfl, rfl⟩

theorem Keeps.trans {g : Frame → α} (h : r.Keeps g r') (h' : r'.Keeps g r'') : r.Keeps g r'' :=
  ⟨h'.1.trans h.1, h'.2.trans h.2⟩

theorem Keeps.blocks (h : r.Keeps Frame.scopes r') : r.Keeps (·.scopes.tail) r' := by
  refine ⟨h.1, ?_⟩
  have htail := congrArg (Option.map List.tail) h.2
  rwa [Option.map_map, Option.map_map] at htail

theorem Keeps.frames {g : Frame → α} (h : r.Keeps g r') :
    r.frames = [] ∧ r'.frames = [] ∨ ∃ f f' fs, r.frames = f :: fs ∧ r'.frames = f' :: fs ∧ g f' = g f := by
  obtain ⟨htail, hhead⟩ := h
  cases hr : r.frames with
  | nil =>
    rw [hr] at hhead
    refine .inl ⟨rfl, ?_⟩
    cases hr' : r'.frames with
    | nil => rfl
    | cons f' fs' =>
      rw [hr'] at hhead
      cases hhead
  | cons f fs =>
    rw [hr] at hhead htail
    cases hr' : r'.frames with
    | nil =>
      rw [hr'] at hhead
      cases hhead
    | cons f' fs' =>
      rw [hr'] at hhead htail
      obtain rfl : fs' = fs := htail
      exact .inr ⟨f, f', fs', rfl, rfl, Option.some.inj hhead⟩

theorem Keeps.lookup (h : r.Keeps Frame.scopes r') (x : String) : r'.lookup x = r.lookup x := by
  rcases h.frames with ⟨hr, hr'⟩ | ⟨f, f', fs, hr, hr', hf⟩
  · rw [Resolution.lookup, Resolution.lookup, hr, hr']
  · rw [Resolution.lookup, Resolution.lookup, hr, hr']
    exact Frame.lookup_of_scopes hf x

theorem keeps_declareLocal (r : Resolution) (i : ElementId) (o : Origin) (x : String)
    (d : Declaration) : r.Keeps (·.scopes.tail) (r.declareLocal i o x d) := by
  unfold declareLocal
  cases hr : r.frames with
  | nil => exact .of_frames rfl
  | cons top outer =>
    dsimp only
    split
    · rename_i top' b heq
      have hscopes := (Frame.declare_ok heq).2.2.1
      rw [Keeps, hr]
      exact ⟨rfl, congrArg some hscopes⟩
    · exact .of_frames rfl

theorem frames_closeScope (h : r.openScope.Keeps (·.scopes.tail) r') :
    r.frames = [] ∧ r'.frames = [] ∧ r'.closeScope.frames = [] ∨
      ∃ f g fs, r.frames = f :: fs ∧ r'.frames = g :: fs ∧
        r'.closeScope.frames = { g with scopes := f.scopes } :: fs := by
  cases hr : r.frames with
  | nil =>
    have hopen : r.openScope = r := by
      unfold openScope modifyTop
      rw [hr]
    rw [hopen] at h
    rcases h.frames with ⟨-, hr'⟩ | ⟨f, f', fs, hf, -⟩
    · refine .inl ⟨rfl, hr', ?_⟩
      unfold closeScope modifyTop
      rw [hr']
      exact hr'
    · rw [hr] at hf
      cases hf
  | cons f fs =>
    have hopen : r.openScope.frames = { f with scopes := {} :: f.scopes } :: fs := frames_modifyTop hr _
    rcases h.frames with ⟨hnil, -⟩ | ⟨f0, g, fs0, hf0, hr', hg⟩
    · rw [hopen] at hnil
      cases hnil
    · rw [hopen] at hf0
      cases hf0
      have hclose : r'.closeScope.frames = { g with scopes := g.scopes.tail } :: fs := frames_modifyTop hr' _
      have hg : g.scopes.tail = f.scopes := hg
      rw [hg] at hclose
      exact .inr ⟨f, g, fs, rfl, hr', hclose⟩

theorem Keeps.closeScope (h : r.openScope.Keeps (·.scopes.tail) r') :
    r.Keeps Frame.scopes r'.closeScope := by
  rcases frames_closeScope h with ⟨hr, -, hclose⟩ | ⟨f, g, fs, hr, -, hclose⟩
  · exact .of_frames (by rw [hr, hclose])
  · rw [Keeps, hr, hclose]
    exact ⟨rfl, rfl⟩

theorem keeps_visitAll_of (h : ∀ u ∈ us, ∀ r : Resolution, r.Keeps (·.scopes.tail) (visit r u) ∧ (declares u =
    none → r.Keeps Frame.scopes (visit r u))) (r : Resolution) :
    r.Keeps (·.scopes.tail) (visitAll r us) ∧ (declared us = [] → r.Keeps Frame.scopes (visitAll r us)) := by
  induction us generalizing r with
  | nil =>
    rw [visitAll]
    exact ⟨.of_frames rfl, fun _ => .of_frames rfl⟩
  | cons u us ih =>
    obtain ⟨hblocks, hscopes⟩ := h u (.head _) r
    obtain ⟨hrest, hrests⟩ := ih (fun v hv => h v (.tail _ hv)) (visit r u)
    rw [visitAll]
    refine ⟨hblocks.trans hrest, fun hnone => ?_⟩
    rw [declared_cons, append_eq_nil_iff] at hnone
    refine (hscopes ?_).trans (hrests hnone.2)
    cases hu : declares u with
    | none => rfl
    | some d => simp [declared, hu] at hnone

theorem keeps_visit (hu : u.Fits) (r : Resolution) :
    r.Keeps (·.scopes.tail) (visit r u) ∧ (declares u = none → r.Keeps Frame.scopes (visit r u)) := by
  induction u generalizing r with
  | node i k o us ih =>
    have hall := keeps_visitAll_of fun u hm r => ih u hm (hu.child u hm) r
    have hplain : ∀ {r r' r'' : Resolution}, (∀ ids, k ≠ .block ids) → r'.frames = r.frames →
        r''.frames = (visitAll r' us).frames →
        r.Keeps (·.scopes.tail) r'' ∧ (declares (.node i k o us) = none → r.Keeps Frame.scopes r'') := by
      intro r r' r'' hk hr' hr''
      have hscopes := (hall r').2 (declared_of_fits hu hk)
      have hkeeps := ((Keeps.of_frames hr').trans hscopes).trans (.of_frames hr'')
      exact ⟨hkeeps.blocks, fun _ => hkeeps⟩
    unfold visit
    cases k with
    | function name params b lifted captures =>
      have hframes : (visit r (.node i (.function name params b lifted captures) o us)).frames =
          r.frames := by
        rw [visit, leave, ((hall _).1).1, frames_enter, tail_cons]
      exact ⟨.of_frames hframes, fun _ => .of_frames hframes⟩
    | block ids =>
      have hkeeps := ((hall r.openScope).1).closeScope
      exact ⟨hkeeps.blocks, fun _ => hkeeps⟩
    | assignment x d value b initializer =>
      cases d with
      | none =>
        exact hplain (by simp) rfl (frames_assign ..)
      | some d =>
        have hscopes := (hall r).2 (declared_of_fits hu (by simp))
        exact ⟨hscopes.blocks.trans (keeps_declareLocal ..), by rintro ⟨⟩⟩
    | reference x b =>
      exact ⟨.of_frames (frames_refer ..), fun _ => .of_frames (frames_refer ..)⟩
    | invocation x arguments target =>
      exact hplain (by simp) rfl (frames_call ..)
    | module name ids =>
      exact hplain (by simp) (by simp) rfl
    | closure f bound =>
      exact hplain (by simp) (frames_capture ..) rfl
    | _ =>
      exact hplain (by simp) rfl rfl

theorem lookup_visit (hv : v.Fits) (hquiet : declares v = none) (r : Resolution) (x : String) :
    (visit r v).lookup x = r.lookup x :=
  ((keeps_visit hv r).2 hquiet).lookup x

/-! ### Steps that report no error -/

theorem clean_complain_iff {problem : Problem} :
    (r.complain o problem).Clean ↔ r.Clean ∧ problem.level.isError = false := by
  constructor
  · intro h
    exact ⟨(later_complain r o problem).clean h, h ⟨problem, o⟩ (Array.mem_push_self ..)⟩
  · rintro ⟨h, hproblem⟩ d hd
    rcases Array.mem_push.mp hd with hd | rfl
    · exact h d hd
    · exact hproblem

theorem clean_foldl_complain_iff (o : Origin) (g : α → Problem) (as : List α) :
    (as.foldl (fun r x => r.complain o (g x)) r).Clean ↔ r.Clean ∧ ∀ x ∈ as, (g x).level.isError = false := by
  induction as generalizing r with
  | nil => simp
  | cons x as ih =>
    rw [foldl_cons, ih, clean_complain_iff, forall_mem_cons, and_assoc]

theorem clean_congr (h : r'.diagnostics = r.diagnostics) : r'.Clean ↔ r.Clean := by
  rw [Clean, h, Clean]

theorem clean_modifyTop_iff (g : Frame → Frame) : (r.modifyTop g).Clean ↔ r.Clean := by
  unfold modifyTop
  split <;> exact Iff.rfl

theorem clean_checkMain_iff (o : Origin) : (r.checkMain o).Clean ↔ r.Clean := by
  unfold checkMain
  split_ifs
  · exact Iff.rfl
  · rw [clean_complain_iff]
    exact and_iff_left rfl

theorem clean_enter_iff (o : Origin) (name : String) (captures params : List String) :
    (r.enter o name captures params).Clean ↔
      r.Clean ∧ ∀ problem ∈ (Frame.enter name captures params).2, problem.level.isError = false :=
  clean_foldl_complain_iff o id _

theorem clean_capture_iff {names : List String} :
    (r.capture i o names).Clean ↔ r.Clean ∧ ∀ x ∈ names, (r.lookup x).isSome = true := by
  have hcomplain : (r.capture i o names).Clean ↔ ((names.filter fun x => (r.lookup x).isNone).foldl
      (fun r x => r.complain o (.captureOutOfScope x)) r).Clean := clean_congr rfl
  rw [hcomplain, clean_foldl_complain_iff]
  refine and_congr_right fun _ => forall_congr' fun x => ?_
  rw [mem_filter]
  cases r.lookup x with
  | none =>
    refine ⟨fun h hx => ?_, fun h hx => ?_⟩
    · cases h ⟨hx, rfl⟩
    · cases h hx.1
  | some s => exact ⟨fun _ _ => rfl, fun _ hx => absurd hx.2 (by simp)⟩

theorem clean_declareLocal_iff :
    (r.declareLocal i o x d).Clean ↔ r.Clean ∧ (r.declared? x d).isSome = true := by
  refine ⟨fun h => ⟨(later_declareLocal ..).clean h, h.declareLocal⟩, fun ⟨h, hsome⟩ => ?_⟩
  unfold declared? at hsome
  unfold declareLocal
  cases hr : r.frames with
  | nil =>
    rw [hr] at hsome
    cases hsome
  | cons top outer =>
    rw [hr, head?_cons, bind_some] at hsome
    dsimp only
    generalize top.declare .local (d = .constant) x = result at hsome ⊢
    obtain ⟨top', refusal | b⟩ := result
    · cases hsome
    · exact h

theorem clean_assign_iff {initializer : Bool} :
    (r.assign i o x initializer).Clean ↔ r.Clean ∧ (r.assigned? x initializer).isSome = true := by
  refine ⟨fun h => ⟨(later_assign ..).clean h, h.assign⟩, fun ⟨h, hsome⟩ => ?_⟩
  unfold assigned? at hsome
  unfold assign
  cases hs : r.lookup x with
  | none =>
    rw [hs] at hsome
    cases hsome
  | some s =>
    rw [hs, bind_some] at hsome
    by_cases hcaptured : s.binding.kind = .captured
    · simp [hcaptured] at hsome
    · by_cases hconstant : (s.constant && !initializer) = true
      · simp [hconstant] at hsome
      · simp only [hcaptured, hconstant, if_false]
        exact h

/-! ### Visits side by side -/

/-- Two visits know the same names and the same functions, and both have reported an error or neither. -/
structure Near (r r' : Resolution) : Prop where
  functions : r'.functions = r.functions
  frames : Forall₂ Frame.Near r.frames r'.frames
  clean : r'.Clean ↔ r.Clean

section
variable (h : r.Near r')
include h

theorem Near.of_eq (hfunctions : s.functions = r.functions)
    (hframes : s.frames = r.frames) (hfunctions' : s'.functions = r'.functions)
    (hframes' : s'.frames = r'.frames) (hclean : s'.Clean ↔ s.Clean) : s.Near s' := by
  refine ⟨by rw [hfunctions', h.functions, hfunctions], ?_, hclean⟩
  rw [hframes, hframes']
  exact h.frames

theorem Near.lookup (x : String) : r'.lookup x = r.lookup x := by
  unfold Resolution.lookup
  rcases (forall₂_iff _ _ _).mp h.frames with ⟨hr, hr'⟩ | ⟨f, f', fs, fs', hf, -, hr, hr'⟩
  · rw [hr, hr']
  · rw [hr, hr']
    exact hf.lookup x

theorem Near.assigned? (x : String) (initializer : Bool) :
    r'.assigned? x initializer = r.assigned? x initializer := by
  rw [Resolution.assigned?, h.lookup, Resolution.assigned?]

theorem Near.called? (x : String) : r'.called? x = r.called? x := by
  rw [Resolution.called?, h.lookup, h.functions, Resolution.called?]

theorem Near.sources (names : List String) : r'.sources names = r.sources names := by
  unfold Resolution.sources
  simp only [h.lookup]

theorem Near.assign {j : ElementId} {p : Origin} (x : String) (initializer : Bool) :
    (r.assign i o x initializer).Near (r'.assign j p x initializer) := by
  refine h.of_eq (later_assign ..).functions (frames_assign ..) (later_assign ..).functions
    (frames_assign ..) ?_
  rw [clean_assign_iff, clean_assign_iff, h.assigned?, h.clean]

theorem Near.refer (i : ElementId) (o : Origin) (x : String) :
    (r.refer i o x).Near (r'.refer i o x) := by
  refine h.of_eq (later_refer ..).functions (frames_refer ..) (later_refer ..).functions (frames_refer ..) ?_
  unfold Resolution.refer
  rw [h.lookup]
  cases r.lookup x with
  | some s => exact h.clean
  | none => simp only [clean_complain_iff, h.clean]

theorem Near.call (i : ElementId) (o : Origin) (x : String) (given : Nat) :
    (r.call i o x given).Near (r'.call i o x given) := by
  refine h.of_eq (later_call ..).functions (frames_call ..) (later_call ..).functions (frames_call ..) ?_
  unfold Resolution.call
  rw [h.lookup, h.functions]
  cases r.lookup x with
  | some s => exact h.clean
  | none =>
    cases r.functions[x]? with
    | some expected =>
      have hcomplain : (r'.complain o (.wrongArity x expected given)).Clean ↔
          (r.complain o (.wrongArity x expected given)).Clean := by
        rw [clean_complain_iff, clean_complain_iff, h.clean]
      dsimp only
      split_ifs
      · exact h.clean
      · exact hcomplain
    | none =>
      dsimp only
      split_ifs
      · exact h.clean
      · simp only [clean_complain_iff, h.clean]

theorem Near.capture (i : ElementId) (o : Origin) (names : List String) :
    (r.capture i o names).Near (r'.capture i o names) := by
  refine h.of_eq (later_capture ..).functions (frames_capture ..) (later_capture ..).functions
    (frames_capture ..) ?_
  simp only [clean_capture_iff, h.lookup, h.clean]

theorem Near.enter (o : Origin) (name : String) (captures params : List String) :
    (r.enter o name captures params).Near (r'.enter o name captures params) := by
  refine ⟨?_, ?_, by rw [clean_enter_iff, clean_enter_iff, h.clean]⟩
  · rw [(later_enter ..).functions, (later_enter ..).functions, h.functions]
  · rw [frames_enter, frames_enter]
    exact .cons ⟨rfl, fun _ => rfl⟩ h.frames

theorem Near.modifyTop {g g' : Frame → Frame}
    (hg : ∀ {f f'}, Frame.Near f f' → (g f).Near (g' f')) : (r.modifyTop g).Near (r'.modifyTop g') := by
  refine ⟨?_, ?_, by rw [clean_modifyTop_iff, clean_modifyTop_iff, h.clean]⟩
  · rw [(later_modifyTop ..).functions, (later_modifyTop ..).functions, h.functions]
  · rcases (forall₂_iff _ _ _).mp h.frames with ⟨hr, hr'⟩ | ⟨f, f', fs, fs', hf, hfs, hr, hr'⟩
    · simp only [Resolution.modifyTop, hr, hr']
      exact .nil
    · rw [frames_modifyTop hr, frames_modifyTop hr']
      exact .cons (hg hf) hfs

theorem Near.openScope : r.openScope.Near r'.openScope :=
  h.modifyTop fun {f f'} hf => ⟨hf.next, fun x => by rw [f.lookup_open, f'.lookup_open, hf.lookup]⟩

theorem Near.openScope_right : r.Near r'.openScope := by
  refine ⟨?_, ?_, (clean_modifyTop_iff _).trans h.clean⟩
  · rw [Resolution.openScope, (later_modifyTop ..).functions, h.functions]
  · rcases (forall₂_iff _ _ _).mp h.frames with ⟨hr, hr'⟩ | ⟨f, f', fs, fs', hf, hfs, hr, hr'⟩
    · simp only [Resolution.openScope, Resolution.modifyTop, hr, hr']
      exact .nil
    · rw [Resolution.openScope, frames_modifyTop hr', hr]
      exact .cons ⟨hf.next, fun x => by rw [f'.lookup_open, hf.lookup]⟩ hfs

theorem Near.leave : r.leave.Near r'.leave := by
  refine ⟨h.functions, ?_, h.clean⟩
  rcases (forall₂_iff _ _ _).mp h.frames with ⟨hr, hr'⟩ | ⟨f, f', fs, fs', -, hfs, hr, hr'⟩
  · simp only [Resolution.leave, hr, hr']
    exact .nil
  · simp only [Resolution.leave, hr, hr']
    exact hfs

end

theorem Near.closeScope (h0 : r.Near r')
    (hs : r.openScope.Keeps (·.scopes.tail) s) (hs' : r'.openScope.Keeps (·.scopes.tail) s')
    (h : s.Near s') : s.closeScope.Near s'.closeScope := by
  refine ⟨?_, ?_, by rw [Resolution.closeScope, Resolution.closeScope, clean_modifyTop_iff,
    clean_modifyTop_iff, h.clean]⟩
  · rw [Resolution.closeScope, Resolution.closeScope, (later_modifyTop ..).functions,
      (later_modifyTop ..).functions, h.functions]
  · rcases frames_closeScope hs with ⟨hr, -, hclose⟩ | ⟨f, g, fs, hr, hg, hclose⟩
    · rcases frames_closeScope hs' with ⟨-, -, hclose'⟩ | ⟨f', g', fs', hr', -, -⟩
      · rw [hclose, hclose']
        exact .nil
      · have := h0.frames
        rw [hr, hr'] at this
        cases this
    · rcases frames_closeScope hs' with ⟨hr', -, -⟩ | ⟨f', g', fs', hr', hg', hclose'⟩
      · have := h0.frames
        rw [hr, hr'] at this
        cases this
      · have hframes := h0.frames
        rw [hr, hr', forall₂_cons] at hframes
        have hnear := h.frames
        rw [hg, hg', forall₂_cons] at hnear
        rw [hclose, hclose']
        refine .cons ⟨hnear.1.next, fun x => ?_⟩ hframes.2
        exact hframes.1.lookup x

theorem Near.closeScope_right (hu : u.Fits) (hquiet : declares u = none) (h : r.Near (visit r'.openScope u)) :
    r.Near (visit r'.openScope u).closeScope := by
  have hkeeps := (keeps_visit hu r'.openScope).2 hquiet
  refine ⟨?_, ?_, (clean_modifyTop_iff _).trans h.clean⟩
  · rw [Resolution.closeScope, (later_modifyTop ..).functions, h.functions]
  · rcases frames_closeScope hkeeps.blocks with ⟨-, hg, hclose⟩ | ⟨f', g', fs', hr', hg, hclose⟩
    · rw [hclose, ← hg]
      exact h.frames
    · have hnear := h.frames
      rw [hg] at hnear
      obtain ⟨f, fs, hf, hfs, hr⟩ := forall₂_cons_right_iff.mp hnear
      rw [hclose, hr]
      refine .cons ⟨hf.next, fun x => ?_⟩ hfs
      have hopen : r'.openScope.frames = { f' with scopes := {} :: f'.scopes } :: fs' :=
        frames_modifyTop hr' _
      have hscopes := hkeeps.2
      rw [hopen, hg] at hscopes
      have hscopes : g'.scopes = {} :: f'.scopes := Option.some.inj hscopes
      calc ({ g' with scopes := f'.scopes } : Frame).lookup x = f'.lookup x := Frame.lookup_of_scopes rfl x
        _ = ({ f' with scopes := {} :: f'.scopes } : Frame).lookup x := (f'.lookup_open x).symm
        _ = g'.lookup x := (Frame.lookup_of_scopes hscopes x).symm
        _ = f.lookup x := hf.lookup x

theorem exists_declare (h : (r.declared? x d).isSome = true) :
    ∃ f fs g b, r.frames = f :: fs ∧ f.declare .local (d = .constant) x = (g, .ok b) := by
  unfold declared? at h
  cases hr : r.frames with
  | nil =>
    rw [hr] at h
    cases h
  | cons f fs =>
    rw [hr, head?_cons, bind_some] at h
    generalize hdeclare : f.declare .local (d = .constant) x = result at h
    obtain ⟨g, refusal | b⟩ := result
    · cases h
    · exact ⟨f, fs, g, b, rfl, hdeclare⟩

theorem Near.declareLocal (h : r.Near r') (hr : (r.declared? x d).isSome = true)
    (hr' : (r'.declared? x d).isSome = true) :
    (r.declareLocal i o x d).Near (r'.declareLocal i o x d) ∧ r.declared? x d = r'.declared? x d := by
  obtain ⟨f, fs, g, b, hf, hdeclare⟩ := exists_declare hr
  obtain ⟨f', fs', g', b', hf', hdeclare'⟩ := exists_declare hr'
  have hframes := h.frames
  rw [hf, hf', forall₂_cons] at hframes
  obtain ⟨hnear, rfl⟩ := hframes.1.declare hdeclare hdeclare'
  refine ⟨⟨?_, ?_, by rw [clean_declareLocal_iff, clean_declareLocal_iff, hr, hr', h.clean]⟩, ?_⟩
  · rw [(later_declareLocal ..).functions, (later_declareLocal ..).functions, h.functions]
  · simp only [Resolution.declareLocal, hf, hf', hdeclare, hdeclare']
    exact .cons hnear hframes.2
  · simp only [declared?, hf, hf', head?_cons, bind_some, hdeclare, hdeclare']

/-! ### Functions of an expansion -/

theorem kind_of_expanded {u' : Unfolding} (h : Expanded MatchExpansion.Drains u u') :
    u.kind.Akin u'.kind ∨ u.kind.isStep = true ∧ u'.kind.isStep = true := by
  cases h with
  | node hakin => exact .inl hakin
  | poured hsame hpoured =>
    obtain ⟨sink, hk, rfl⟩ := hsame
    refine .inr ⟨Sink.isStep_of_ofKind? hk, ?_⟩
    cases hpoured with
    | value => exact Sink.isStep_of_ofKind? (Sink.ofKind?_statement sink _)
    | matchOf => rfl

theorem capturesOf_expanded (h : Forall₂ (Expanded MatchExpansion.Drains) us us') :
    capturesOf us' = capturesOf us := by
  cases h with
  | nil => rfl
  | @cons u u' us us' hu _ =>
    obtain ⟨i, k, o, vs⟩ := u
    obtain ⟨i', k', o', vs'⟩ := u'
    rcases kind_of_expanded hu with (hkind | ⟨ids, ids', hkind, hkind'⟩) | ⟨hkind, hkind'⟩
    · obtain rfl : k' = k := hkind
      cases k' <;> rfl
    · obtain rfl : k = .block ids := hkind
      obtain rfl : k' = .block ids' := hkind'
      rfl
    · cases k <;> cases hkind <;> cases k' <;> cases hkind' <;> rfl

theorem Near.enterFunctions (hus : Forall₂ (Expanded MatchExpansion.Drains) us us') (h : r.Near r') :
    (r.enterFunctions us).Near (r'.enterFunctions us') := by
  induction hus generalizing r r' with
  | nil => exact h
  | @cons u u' us us' hu _ ih =>
    obtain ⟨i, k, o, vs⟩ := u
    obtain ⟨i', k', o', vs'⟩ := u'
    rcases kind_of_expanded hu with (hkind | ⟨ids, ids', hkind, hkind'⟩) | ⟨hkind, hkind'⟩
    · obtain rfl : k' = k := hkind
      cases k' with
      | function name params b lifted captures =>
        have hinsert : ({ r with functions := r.functions.insert name params.length } : Resolution).Near
            { r' with functions := r'.functions.insert name params.length } :=
          ⟨by rw [h.functions], h.frames, h.clean⟩
        rw [Resolution.enterFunctions, Resolution.enterFunctions]
        refine ih ?_
        rw [h.functions] at hinsert ⊢
        split_ifs
        · exact ⟨hinsert.functions, hinsert.frames,
            by rw [clean_complain_iff, clean_complain_iff, hinsert.clean]⟩
        · exact hinsert
      | _ => exact ih h
    · obtain rfl : k = .block ids := hkind
      obtain rfl : k' = .block ids' := hkind'
      exact ih h
    · cases k <;> cases hkind <;> cases k' <;> cases hkind' <;> exact ih h

theorem Near.walker_enter (h : r.Near r') (hakin : k.Akin k')
    (hus : Forall₂ (Expanded MatchExpansion.Drains) us us') :
    (walker.enter r (.node i k o us)).Near (walker.enter r' (.node i k' o us')) := by
  rcases hakin with rfl | ⟨ids, ids', rfl, rfl⟩
  · cases k' with
    | module name ids =>
      have henter := h.enterFunctions hus
      refine ⟨?_, ?_, ?_⟩
      · simp only [walker, functions_checkMain, henter.functions]
      · simp only [walker, frames_checkMain]
        exact henter.frames
      · simp only [walker, clean_checkMain_iff, henter.clean]
    | function name params b lifted captures => exact h.enter o name captures params
    | block ids => exact h.openScope
    | closure f bound =>
      simp only [walker, capturesOf_expanded hus]
      exact h.capture i o _
    | _ => exact h
  · exact h.openScope

def Lands (r : Resolution) (u : Unfolding) : Prop :=
  ∀ x d v b f, u.kind = .assignment x d v b f → (walker.own r (walker.below r u) u).isSome = true

theorem lands_of_clean (h : (visit r u).Clean) : Lands r u := by
  intro x d v b f hk
  obtain ⟨i, k, o, us⟩ := u
  obtain rfl : k = .assignment x d v b f := hk
  rw [walker_below]
  cases d with
  | none =>
    rw [visit] at h
    simpa [walker, children] using h.assign
  | some d =>
    rw [visit] at h
    simpa [walker, children] using h.declareLocal

theorem Near.walker_leave (hu : Fits (.node i k o us))
    (hu' : Fits (.node i k' o us')) (h : r.Near r') (hakin : k.Akin k')
    (hus : Forall₂ (Expanded MatchExpansion.Drains) us us') (hlands : Lands r (.node i k o us))
    (hlands' : Lands r' (.node i k' o us'))
    (hbelow : (walker.below r (.node i k o us)).Near (walker.below r' (.node i k' o us'))) :
    (visit r (.node i k o us)).Near (visit r' (.node i k' o us')) ∧
      walker.own r (walker.below r (.node i k o us)) (.node i k o us) =
        walker.own r' (walker.below r' (.node i k' o us')) (.node i k' o us') := by
  have hkeeps : ∀ {us : List Unfolding}, (∀ u ∈ us, u.Fits) → ∀ r : Resolution,
      r.openScope.Keeps (·.scopes.tail) (visitAll r.openScope us) := fun hus r =>
    (keeps_visitAll_of (fun u hu => keeps_visit (hus u hu)) r.openScope).1
  rw [walker_below, walker_below] at hbelow ⊢
  rcases hakin with rfl | ⟨ids, ids', rfl, rfl⟩
  · cases k' with
    | function name params b lifted captures =>
      rw [visit, visit]
      exact ⟨hbelow.leave, rfl⟩
    | block ids => exact ⟨h.closeScope (hkeeps hu.child r) (hkeeps hu'.child r') hbelow, rfl⟩
    | assignment x d value b initializer =>
      cases d with
      | none =>
        exact ⟨hbelow.assign x initializer,
          congrArg (Option.map Mark.binding) (hbelow.assigned? x initializer).symm⟩
      | some d =>
        have hsome := hlands _ _ _ _ _ rfl
        have hsome' := hlands' _ _ _ _ _ rfl
        rw [walker_below] at hsome hsome'
        simp only [walker, isSome_map] at hsome hsome'
        obtain ⟨hnear, hdeclared⟩ := hbelow.declareLocal hsome hsome'
        exact ⟨by rwa [visit, visit], congrArg (Option.map Mark.binding) hdeclared⟩
    | reference x b =>
      rw [visit, visit]
      refine ⟨h.refer i o x, ?_⟩
      exact congrArg (Option.map fun s : Symbol => Mark.binding s.binding) (h.lookup x).symm
    | invocation x arguments target =>
      rw [visit, visit]
      refine ⟨hbelow.call i o x _, ?_⟩
      exact congrArg (Option.map Mark.target) (hbelow.called? x).symm
    | closure f bound =>
      rw [visit, visit]
      refine ⟨hbelow, ?_⟩
      simp only [walker, capturesOf_expanded hus, h.sources]
    | _ =>
      simp only [visit]
      exact ⟨hbelow, rfl⟩
  · exact ⟨h.closeScope (hkeeps hu.child r) (hkeeps hu'.child r') hbelow, rfl⟩

/-! ### Statements that take a value -/

/-- What becomes of statements that take a value: an assignment is bound to the slot of its target. -/
inductive Drains (r : Resolution) : (ElementId → Kind) → (ElementId → Kind) → Prop
  | assignment {x b initializer} : r.assigned? x initializer = some b →
      Drains r (fun y => .assignment x none y none initializer)
        (fun y => .assignment x none y (some b) initializer)
  | returns : Drains r (fun y => .returns (some y)) (fun y => .returns (some y))

theorem takes_of_drains {make : ElementId → Kind} (hu : Fits (.node i k o [v]))
    (hsame : MatchExpansion.Drains k make) (hlands : Lands r (.node i k o [v])) :
    (∀ t, (walker.visit r v).Near t → (walker.visit r (.node i k o [v])).Near t) ∧
    ∃ make', r.Drains make make' ∧
      Meaning.Yields (Mark.settle (walker.own r (walker.visit r v) (.node i k o [v])) k) make' := by
  have hexpr := hsame.isExpression hu
  have hv := hu.child v (.head _)
  have hlookup := fun x => lookup_visit hv (declares_of_isExpression hexpr) r x
  obtain ⟨sink, hk, rfl⟩ := hsame
  cases k with
  | assignment x d value b initializer =>
    cases d with
    | some d => cases hk
    | none =>
      cases hk
      have hassign : ((visit r v).assigned? x initializer).isSome = true := by
        have hsome := hlands _ _ _ _ _ rfl
        rw [walker_below] at hsome
        simpa [walker, children, visitAll] using hsome
      obtain ⟨b', hb'⟩ := isSome_iff_exists.mp hassign
      have hassigned : r.assigned? x initializer = some b' := by
        rw [← hb', assigned?, assigned?, hlookup]
      refine ⟨fun t ht => ?_, _, .assignment hassigned, ?_⟩
      · refine ht.of_eq (later_assign ..).functions (frames_assign ..) rfl rfl ?_
        refine ht.clean.trans (and_iff_left hassign).symm |>.trans clean_assign_iff.symm
      · have hown : walker.own r (walker.visit r v)
            (.node i (.assignment x none value b initializer) o [v]) = some (.binding b') := by
          rw [← map_some, ← hb']
          rfl
        rw [hown]
        exact .assignment
  | returns value =>
    cases value with
    | none => cases hk
    | some value =>
      cases hk
      exact ⟨fun t ht => ht, _, .returns, .returns⟩
  | _ => cases hk

theorem each_clean (hu : u.Fits) (hclean : (visit r u).Clean) :
    walker.Each (fun r u => (visit r u).Clean) r u := by
  induction u generalizing r with
  | node i k o us ih =>
    have hbelow := (later_below hu r).clean hclean
    rw [walker_below] at hbelow
    refine .node hclean fun before u after heq => ?_
    subst heq
    have hm : u ∈ before ++ u :: after := mem_append_right _ (.head _)
    refine ih u hm (hu.child u hm) ?_
    have hafter : ∀ v ∈ after, v.Inner := fun v hv =>
      hu.inner v (mem_append_right _ (.tail _ hv))
    have hfold := visitAll_append_cons before after u (walker.enter r (.node i k o (before ++ u :: after)))
    rw [children, hfold, visitAll_eq_foldl before] at hbelow
    exact (later_visitAll hafter _).clean hbelow

theorem each_lands (hu : u.Fits) (hclean : (visit r u).Clean) : walker.Each Lands r u :=
  (each_clean hu hclean).imp fun h => lands_of_clean h

theorem walker_tracks : walker.Tracks Lands Near Drains MatchExpansion.Drains Meaning.Yields where
  enter hs hakin hus := hs.walker_enter hakin hus
  leave hu hu' hs hakin hus hP hP' hbelow := hs.walker_leave hu hu' hakin hus hP hP' hbelow
  branch {i k o us} hk r := by
    have hfold : us.foldl walker.visit r = visitAll r us := (visitAll_eq_foldl _ _).symm
    rw [hfold]
    cases k <;> first | (cases hk; done) | exact ⟨rfl, rfl, fun _ => rfl⟩
  opens hs := ⟨hs.openScope_right, fun _ => rfl⟩
  closes hu hquiet _ hvisit := hvisit.closeScope_right (hu.child _ (.head _)) hquiet
  takes hu hsame hP := takes_of_drains hu hsame hP
  gives {r r' i x make make' o v} hdrains hvisit := by
    cases hdrains with
    | returns => exact ⟨hvisit, rfl⟩
    | assignment hassigned =>
      rename_i y b initializer
      have hsome : ((walker.visit r' v).assigned? y initializer).isSome = true := by
        rw [hvisit.assigned?, hassigned]
        rfl
      refine ⟨hvisit.of_eq rfl rfl (later_assign ..).functions (frames_assign ..) ?_, ?_⟩
      · exact clean_assign_iff.trans ((and_iff_left hsome).trans hvisit.clean)
      · have hown : walker.own r' (walker.visit r' v)
            (.node i (.assignment y none x none initializer) o [v]) = some (.binding b) := by
          rw [← map_some, ← hassigned, ← hvisit.assigned?]
          rfl
        rw [hown]
        rfl
  steady {r make make' v} hv hexpr hdrains := by
    cases hdrains with
    | returns => exact .returns
    | assignment hassigned =>
      refine .assignment ?_
      rw [assigned?, walker, lookup_visit hv (declares_of_isExpression hexpr)]
      exact hassigned
  quiet {r make make' i x o us} hdrains := by
    cases hdrains <;> rfl

end Resolution

end Clausal
