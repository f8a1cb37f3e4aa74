import Clausal.Proofs.Scoping.Constants

/-! # Slots of every frame

What name resolution does with the declarations of a function can be told without hash maps and without the
other functions.  The captures, the parameters and the body of a function make up a list of events
(`Unfolding.script`): names are declared, scopes are opened and closed. -/

namespace Clausal

open List Option Unfolding

/-- A declaration in a frame, with the element that declares the name, if it is a local one. -/
structure Attempt where
  id : Option ElementId
  kind : BindingKind
  name : String
  origin : Origin

inductive FrameEvent where
  | declares (a : Attempt)
  | opens
  | closes

inductive Verdict where
  | slot (n : Nat)
  | repeated
  | full

def Verdict.slot? : Verdict → Option Nat
  | slot n => some n
  | _ => none

/-- The names in the open scopes of a function, innermost first, with their slots, and how many were accepted. -/
structure Ledger where
  function : String
  scopes : List (List (String × Nat)) := [[]]
  taken : Nat := 0

namespace Ledger

def verdict (l : Ledger) (x : String) : Verdict :=
  if ((l.scopes.headD []).lookup x).isSome then .repeated
  else if 65536 ≤ l.taken then .full
  else .slot l.taken

def accept (l : Ledger) (x : String) (n : Nat) : Ledger :=
  ⟨l.function, ((x, n) :: l.scopes.headD []) :: l.scopes.tail, n + 1⟩

def play (l : Ledger) : FrameEvent → Ledger
  | .opens => { l with scopes := [] :: l.scopes }
  | .closes => { l with scopes := l.scopes.tail }
  | .declares a =>
    match l.verdict a.name with
    | .slot n => l.accept a.name n
    | _ => l

def playAll (l : Ledger) (es : List FrameEvent) : Ledger := es.foldl play l

/-- The declarations among some events, in order, and what becomes of them. -/
def verdicts (l : Ledger) : List FrameEvent → List (Attempt × Verdict)
  | [] => []
  | .declares a :: es => (a, l.verdict a.name) :: (l.play (.declares a)).verdicts es
  | e :: es => (l.play e).verdicts es

end Ledger

namespace Attempt

def repetition (a : Attempt) : Problem :=
  match a.kind with
  | .captured => .repeatedCapture a.name
  | .parameter => .repeatedParameter a.name
  | .local => .repeatedVariable a.name

/-- What is said of a declaration: the slot of an element, or a complaint. -/
def outcome (function : String) (a : Attempt) : Verdict → Option (Except Diagnostic (ElementId × Nat))
  | .slot n => a.id.map fun i => .ok (i, n)
  | .repeated => some (.error ⟨a.repetition, a.origin⟩)
  | .full => some (.error ⟨.frameFull function a.name, a.origin⟩)

end Attempt

def Ledger.told (l : Ledger) (es : List FrameEvent) : List (Except Diagnostic (ElementId × Nat)) :=
  (l.verdicts es).filterMap fun p => p.1.outcome l.function p.2

namespace Unfolding

mutual

/-- What happens in the frame of the function around an element.  A function below has a frame of its own. -/
def events : Unfolding → List FrameEvent
  | .node _ (.function ..) _ _ => []
  | .node _ (.block _) _ us => .opens :: eventsAll us ++ [.closes]
  | .node i (.assignment x (some _) _ _ _) o us => eventsAll us ++ [.declares ⟨some i, .local, x, o⟩]
  | .node _ _ _ us => eventsAll us

def eventsAll : List Unfolding → List FrameEvent
  | [] => []
  | u :: us => events u ++ eventsAll us

end

/-- What happens in the frame of a function: captures first, then parameters, then its body. -/
def script : Unfolding → List FrameEvent
  | .node _ (.function _ params _ _ captures) o us =>
    captures.map (fun x => .declares ⟨none, .captured, x, o⟩) ++
      params.map (fun x => .declares ⟨none, .parameter, x, o⟩) ++ eventsAll us
  | _ => []

def ledger : Unfolding → Ledger
  | .node _ (.function name _ _ _ _) _ _ => { function := name }
  | _ => { function := "" }

def outcomes (v : Unfolding) : List (Except Diagnostic (ElementId × Nat)) := v.ledger.told v.script

theorem taken_ledger (v : Unfolding) : v.ledger.taken = 0 := by
  obtain ⟨i, k, o, us⟩ := v
  cases k <;> rfl

/-- The slots of a function in the order in which they are given out. -/
def slotsGiven (v : Unfolding) : List Nat := (v.ledger.verdicts v.script).filterMap (·.2.slot?)

end Unfolding

def Problem.isRefusal : Problem → Bool
  | repeatedCapture _ | repeatedParameter _ | repeatedVariable _ | frameFull .. => true
  | _ => false

/-! ### Ledgers -/

namespace Ledger

variable {l : Ledger} {es : List FrameEvent}

theorem playAll_append (l : Ledger) (es es' : List FrameEvent) :
    l.playAll (es ++ es') = (l.playAll es).playAll es' := foldl_append

theorem function_play (l : Ledger) (e : FrameEvent) : (l.play e).function = l.function := by
  cases e with
  | declares a =>
    rw [play]
    split <;> rfl
  | _ => rfl

theorem function_playAll (l : Ledger) (es : List FrameEvent) : (l.playAll es).function = l.function := by
  induction es generalizing l with
  | nil => rfl
  | cons e es ih => exact (ih (l.play e)).trans (l.function_play e)

theorem verdicts_append (l : Ledger) (es es' : List FrameEvent) :
    l.verdicts (es ++ es') = l.verdicts es ++ (l.playAll es).verdicts es' := by
  induction es generalizing l with
  | nil => rfl
  | cons e es ih =>
    have hplay : l.playAll (e :: es) = (l.play e).playAll es := rfl
    cases e with
    | declares a => rw [cons_append, verdicts, verdicts, ih, hplay, cons_append]
    | opens | closes => rw [cons_append, verdicts, verdicts, ih, hplay] <;> nofun

theorem told_append (l : Ledger) (es es' : List FrameEvent) :
    l.told (es ++ es') = l.told es ++ (l.playAll es).told es' := by
  rw [told, verdicts_append, filterMap_append, told, told, function_playAll]

theorem told_declares (l : Ledger) (a : Attempt) (es : List FrameEvent) :
    l.told (.declares a :: es) =
      (a.outcome l.function (l.verdict a.name)).toList ++ (l.play (.declares a)).told es := by
  rw [told, verdicts, filterMap_cons, told, function_play]
  cases a.outcome l.function (l.verdict a.name) <;> rfl

theorem slots_verdicts (es : List FrameEvent) (h : l.taken ≤ 65536) :
    ∃ n, (l.verdicts es).filterMap (·.2.slot?) = range' l.taken n ∧ l.taken + n ≤ 65536 := by
  induction es generalizing l with
  | nil => exact ⟨0, rfl, h⟩
  | cons e es ih =>
    cases e with
    | opens => exact ih (l := l.play .opens) h
    | closes => exact ih (l := l.play .closes) h
    | declares a =>
      rw [verdicts, filterMap_cons, play]
      unfold verdict
      split_ifs with hrepeated hfull
      · exact ih h
      · exact ih h
      · obtain ⟨n, hslots, hle⟩ := ih (l := l.accept a.name l.taken) (Nat.not_le.mp hfull)
        dsimp only [Verdict.slot?, accept] at hslots hle ⊢
        exact ⟨n + 1, by rw [hslots, range'_succ], by omega⟩

theorem isRefusal_of_mem_told {d : Diagnostic} (h : .error d ∈ l.told es) : d.problem.isRefusal = true := by
  obtain ⟨⟨a, v⟩, -, hv⟩ := mem_filterMap.mp h
  cases v with
  | slot n =>
    obtain ⟨i, -, hi⟩ := map_eq_some_iff.mp hv
    cases hi
  | repeated =>
    cases hv
    obtain ⟨id, kind, name, origin⟩ := a
    cases kind <;> rfl
  | full =>
    cases hv
    rfl

theorem scopes_play_declares (h : l.scopes ≠ []) (a : Attempt) :
    (l.play (.declares a)).scopes.tail = l.scopes.tail ∧ (l.play (.declares a)).scopes ≠ [] := by
  rw [play]
  split
  · exact ⟨rfl, nofun⟩
  · exact ⟨rfl, h⟩

end Ledger

namespace Unfolding

variable {l : Ledger} {us : List Unfolding}

theorem scopes_playAll_of
    (h : ∀ u ∈ us, ∀ l : Ledger, l.scopes ≠ [] → (l.playAll u.events).scopes.tail = l.scopes.tail ∧
      (l.playAll u.events).scopes ≠ []) (hl : l.scopes ≠ []) :
    (l.playAll (eventsAll us)).scopes.tail = l.scopes.tail ∧ (l.playAll (eventsAll us)).scopes ≠ [] := by
  induction us generalizing l with
  | nil =>
    rw [eventsAll]
    exact ⟨rfl, hl⟩
  | cons u us ih =>
    obtain ⟨hu, hus⟩ := forall_mem_cons.mp h
    obtain ⟨htail, hopen⟩ := hu l hl
    obtain ⟨htail', hopen'⟩ := ih hus hopen
    rw [eventsAll, Ledger.playAll_append]
    exact ⟨htail'.trans htail, hopen'⟩

theorem scopes_playAll (u : Unfolding) (hl : l.scopes ≠ []) :
    (l.playAll u.events).scopes.tail = l.scopes.tail ∧ (l.playAll u.events).scopes ≠ [] := by
  induction u generalizing l with
  | node i k o us ih =>
    have hall : ∀ {l : Ledger}, l.scopes ≠ [] → _ := scopes_playAll_of fun u hu l => ih u hu
    cases k with
    | function =>
      rw [events]
      exact ⟨rfl, hl⟩
    | block ids =>
      obtain ⟨htail, -⟩ := hall (l := l.play .opens) nofun
      have hscopes : (l.playAll (events (.node i (.block ids) o us))).scopes = l.scopes := by
        rw [events, Ledger.playAll_append]
        exact htail
      rw [hscopes]
      exact ⟨rfl, hl⟩
    | assignment x d value b initializer =>
      cases d with
      | none =>
        simp only [events]
        exact hall hl
      | some d =>
        obtain ⟨htail, hopen⟩ := hall hl
        obtain ⟨htail', hopen'⟩ := Ledger.scopes_play_declares hopen ⟨some i, .local, x, o⟩
        simp only [events, Ledger.playAll_append]
        exact ⟨htail'.trans htail, hopen'⟩
    | _ =>
      simp only [events]
      exact hall hl

end Unfolding

/-! ### Frames -/

namespace Frame

variable {f : Frame} {l : Ledger}

/-- A frame has the names and the slots of a ledger. -/
structure Tallies (f : Frame) (l : Ledger) : Prop where
  function : f.function = l.function
  scopes : Forall₂ (fun (m : Std.HashMap String Symbol) s =>
    ∀ x : String, (m[x]?).map (fun b => b.binding.slot.toNat) = s.lookup x) f.scopes l.scopes
  taken : f.nextSlot = l.taken

theorem Tallies.declare (h : f.Tallies l) (hl : l.scopes ≠ []) (constant : Bool) (a : Attempt)
    (repeated : String → Problem) (hrepeated : repeated a.name = a.repetition) :
    (∃ refusal, f.declare a.kind constant a.name = (f, .error refusal) ∧ l.play (.declares a) = l ∧
      a.outcome l.function (l.verdict a.name) =
        some (.error ⟨problem f.function repeated (a.name, refusal), a.origin⟩)) ∨
    ∃ g b, f.declare a.kind constant a.name = (g, .ok b) ∧ g.Tallies (l.play (.declares a)) ∧
      l.verdict a.name = .slot b.slot.toNat := by
  obtain ⟨hfunction, hscopes, htaken⟩ := h
  obtain ⟨function, scopes, next⟩ := f
  obtain ⟨function', scopes', taken⟩ := l
  dsimp only at hfunction hscopes htaken
  subst hfunction htaken
  cases hscopes with
  | nil => exact absurd rfl hl
  | @cons scope s outer rest hscope houter =>
    have hcontains : scope.contains a.name = (s.lookup a.name).isSome := by
      rw [Std.HashMap.contains_eq_isSome_getElem?, ← hscope a.name, isSome_map]
    rw [Ledger.play]
    generalize hverdict : Ledger.verdict ⟨function, s :: rest, next⟩ a.name = verdict
    rw [Ledger.verdict, headD_cons, ← hcontains] at hverdict
    by_cases hx : scope.contains a.name = true
    · rw [if_pos hx] at hverdict
      subst hverdict
      exact .inl ⟨_, declare_of_contains hx, rfl, by rw [Attempt.outcome, problem, hrepeated]⟩
    have hnew := Bool.not_eq_true _ ▸ hx
    rw [if_neg hx] at hverdict
    by_cases hfull : 65536 ≤ next
    · rw [if_pos hfull] at hverdict
      subst hverdict
      exact .inl ⟨_, declare_of_full hnew hfull, rfl, rfl⟩
    have hlt : next < frameLimit := Nat.not_le.mp hfull
    rw [if_neg hfull] at hverdict
    subst hverdict
    refine .inr ⟨_, _, declare_of_lt hnew hlt, ⟨rfl, .cons (fun y => ?_) houter, rfl⟩,
      congrArg _ (toNat_toUInt16 hlt).symm⟩
    rw [Std.HashMap.getElem?_insert, headD_cons, lookup_cons]
    by_cases hy : y = a.name
    · subst hy
      rw [if_pos (beq_self_eq_true _), beq_self_eq_true]
      exact congrArg some (toNat_toUInt16 hlt)
    · rw [if_neg (by simpa using Ne.symm hy), beq_false_of_ne hy]
      exact hscope y

theorem Tallies.declareAll (kind : BindingKind) (constant : Bool) (repeated : String → Problem) (o : Origin)
    (h : f.Tallies l) (hl : l.scopes ≠ []) (hrepeated : ∀ x, repeated x = (Attempt.mk none kind x o).repetition)
    (names : List String) (refused : Array (String × Refusal)) {es : List FrameEvent}
    (hes : es = names.map fun x => .declares ⟨none, kind, x, o⟩) :
    (declareAll kind constant refused names f).1.Tallies (l.playAll es) ∧ (l.playAll es).scopes ≠ [] ∧
      ∃ more, (declareAll kind constant refused names f).2.toList = refused.toList ++ more ∧
        more.map (fun p => Except.error ⟨problem l.function repeated p, o⟩) = l.told es := by
  subst hes
  induction names generalizing f l refused with
  | nil => exact ⟨h, hl, [], (append_nil _).symm, rfl⟩
  | cons x names ih =>
    have hplay : ∀ es, l.playAll (.declares ⟨none, kind, x, o⟩ :: es) =
        (l.play (.declares ⟨none, kind, x, o⟩)).playAll es := fun _ => rfl
    rw [map_cons, Frame.declareAll, hplay, Ledger.told_declares]
    rcases h.declare hl constant ⟨none, kind, x, o⟩ repeated (hrepeated x) with
      ⟨refusal, hdeclare, hsame, houtcome⟩ | ⟨g, b, hdeclare, hg, hverdict⟩
    · rw [hdeclare, hsame, houtcome]
      obtain ⟨htallies, hopen, more, hmore, htold⟩ := ih h hl (refused.push (x, refusal))
      refine ⟨htallies, hopen, (x, refusal) :: more, ?_, ?_⟩
      · rw [hmore, Array.toList_push, append_assoc, singleton_append]
      · rw [map_cons, htold, h.function]
        rfl
    · rw [hdeclare, hverdict]
      have hopen := (Ledger.scopes_play_declares hl ⟨none, kind, x, o⟩).2
      have hfunction := l.function_play (.declares ⟨none, kind, x, o⟩)
      obtain ⟨htallies, hopen, more, hmore, htold⟩ := ih hg hopen refused
      exact ⟨htallies, hopen, more, hmore, by rw [← hfunction, htold]; rfl⟩

end Frame

/-! ### Visits -/

namespace Resolution

variable {D : ElementId → Bool} {r r' r'' : Resolution} {o : Origin} {p : Problem} {i : ElementId}

/-- What is said of the declarations in frames: the slots of their elements, and the complaints. -/
def outcomes (D : ElementId → Bool) (r : Resolution) : List (Except Diagnostic (ElementId × Nat)) :=
  (r.bindings.toList.filter fun q => D q.1).map (fun q => .ok (q.1, q.2.slot.toNat)) ++
    (r.diagnostics.toList.filter fun d => d.problem.isRefusal).map .error

theorem outcomes_complain (hp : p.isRefusal = false) : (r.complain o p).outcomes D = r.outcomes D := by
  simp [outcomes, complain, hp]

theorem outcomes_refuse (hp : p.isRefusal = true) :
    (r.complain o p).outcomes D = r.outcomes D ++ [.error ⟨p, o⟩] := by
  simp [outcomes, complain, hp]

theorem outcomes_bind_of_not (hi : D i = false) (b : Binding) : (r.bind i b).outcomes D = r.outcomes D := by
  simp [outcomes, bind, hi]

theorem outcomes_bind (hi : D i = true) (b : Binding) :
    ((r.bind i b).outcomes D).Perm (r.outcomes D ++ [.ok (i, b.slot.toNat)]) := by
  simp only [outcomes, bind, Array.toList_push, filter_append, map_append, append_assoc]
  refine .append_left _ ?_
  simp only [filter_cons, hi, if_true, filter_nil, map_cons, map_nil]
  exact perm_append_comm

theorem outcomes_foldl_complain {α : Type} (g : α → Problem) (as : List α) (hg : ∀ a ∈ as, (g a).isRefusal = false)
    (r : Resolution) : (as.foldl (fun r a => r.complain o (g a)) r).outcomes D = r.outcomes D := by
  induction as generalizing r with
  | nil => rfl
  | cons a as ih =>
    obtain ⟨ha, has⟩ := forall_mem_cons.mp hg
    rw [foldl_cons, ih has, outcomes_complain ha]

theorem outcomes_foldl_refuse (ps : List Problem) (hps : ∀ p ∈ ps, p.isRefusal = true) (r : Resolution) :
    (ps.foldl (·.complain o ·) r).outcomes D = r.outcomes D ++ ps.map (fun p => .error ⟨p, o⟩) := by
  induction ps generalizing r with
  | nil => exact (append_nil _).symm
  | cons p ps ih =>
    obtain ⟨hp, hps⟩ := forall_mem_cons.mp hps
    rw [foldl_cons, ih hps, outcomes_refuse hp, append_assoc, singleton_append, map_cons]

section quiet
variable {i : ElementId}

theorem outcomes_enterFunctions (us : List Unfolding) (r : Resolution) :
    (r.enterFunctions us).outcomes D = r.outcomes D := by
  induction us generalizing r with
  | nil => rfl
  | cons u us ih =>
    obtain ⟨i, k, o, vs⟩ := u
    cases k <;> simp only [enterFunctions, ih]
    split_ifs
    · exact outcomes_complain rfl
    · rfl

theorem outcomes_checkMain (r : Resolution) (o : Origin) : (r.checkMain o).outcomes D = r.outcomes D := by
  unfold checkMain
  split_ifs
  · rfl
  · exact outcomes_complain rfl

theorem outcomes_capture (r : Resolution) (o : Origin) (names : List String) :
    (r.capture i o names).outcomes D = r.outcomes D :=
  outcomes_foldl_complain Problem.captureOutOfScope _ (fun _ _ => rfl) r

theorem outcomes_assign (hi : D i = false) (r : Resolution) (o : Origin) (x : String) (initializer : Bool) :
    (r.assign i o x initializer).outcomes D = r.outcomes D := by
  unfold assign
  split
  · exact outcomes_complain rfl
  · split_ifs
    · exact outcomes_complain rfl
    · exact outcomes_complain rfl
    · exact outcomes_bind_of_not hi _

theorem outcomes_refer (hi : D i = false) (r : Resolution) (o : Origin) (x : String) :
    (r.refer i o x).outcomes D = r.outcomes D := by
  unfold refer
  split
  · exact outcomes_bind_of_not hi _
  · exact outcomes_complain rfl

theorem outcomes_call (r : Resolution) (o : Origin) (x : String) (given : Nat) :
    (r.call i o x given).outcomes D = r.outcomes D := by
  unfold call
  split
  · rfl
  · split
    · split_ifs
      · rfl
      · exact outcomes_complain (r := r) rfl
    · split_ifs
      · rfl
      · exact outcomes_complain rfl

theorem outcomes_modifyTop (r : Resolution) (g : Frame → Frame) : (r.modifyTop g).outcomes D = r.outcomes D := by
  unfold modifyTop
  split <;> rfl

end quiet

/-- The innermost frame, if there is one, has what a ledger has, with a scope open. -/
inductive Follows : List Frame → Option Ledger → Prop
  | outside : Follows [] none
  | inside {f fs l} : f.Tallies l → l.scopes ≠ [] → Follows (f :: fs) (some l)

/-- Between two states some events happened in the innermost frame, and some functions were visited. -/
structure Records (D : ElementId → Bool) (r r' : Resolution) (l? : Option Ledger) (es : List FrameEvent)
    (vs : List Unfolding) : Prop where
  outer : r'.frames.tail = r.frames.tail
  top : Follows r'.frames (l?.map (·.playAll es))
  outcomes : (r'.outcomes D).Perm
    (r.outcomes D ++ l?.toList.flatMap (·.told es) ++ vs.flatMap Unfolding.outcomes)

variable {l? : Option Ledger} {es es' : List FrameEvent} {vs vs' : List Unfolding}

theorem Records.trans (h : Records D r r' l? es vs) (h' : Records D r' r'' (l?.map (·.playAll es)) es' vs') :
    Records D r r'' l? (es ++ es') (vs ++ vs') := by
  refine ⟨h'.outer.trans h.outer, ?_, ?_⟩
  · have htop := h'.top
    simp only [Option.map_map, Function.comp_def, ← Ledger.playAll_append] at htop
    exact htop
  · have htold : l?.toList.flatMap (·.told (es ++ es')) =
        l?.toList.flatMap (·.told es) ++ (l?.map (·.playAll es)).toList.flatMap (·.told es') := by
      cases l? with
      | none => rfl
      | some l => simp [Ledger.told_append]
    refine h'.outcomes.trans ?_
    rw [htold, flatMap_append]
    refine ((h.outcomes.append_right _).append_right _).trans ?_
    simp only [append_assoc]
    exact .append_left _ (.append_left _ (perm_append_comm_assoc ..))

theorem Records.quiet (h : Follows r.frames l?) (hframes : r'.frames = r.frames)
    (houtcomes : r'.outcomes D = r.outcomes D) : Records D r r' l? [] [] := by
  refine ⟨congrArg _ hframes, ?_, ?_⟩
  · have hsame : l?.map (·.playAll []) = l? := Option.map_id' ..
    rw [hframes, hsame]
    exact h
  · have hnone : l?.toList.flatMap (·.told []) = [] := by cases l? <;> rfl
    rw [houtcomes, hnone, append_nil, flatMap_nil, append_nil]

theorem Records.of_quiet (h : Records D r' r'' l? es vs) (hframes : r'.frames = r.frames)
    (houtcomes : r'.outcomes D = r.outcomes D) : Records D r r'' l? es vs :=
  ⟨h.outer.trans (congrArg _ hframes), h.top, houtcomes ▸ h.outcomes⟩

theorem Records.of_modifyTop (h : Follows r.frames l?) (e : FrameEvent) (g : Frame → Frame)
    (htold : ∀ l, Ledger.told l [e] = [])
    (hg : ∀ f l, l? = some l → f.Tallies l → (g f).Tallies (l.play e) ∧ (l.play e).scopes ≠ []) :
    Records D r (r.modifyTop g) l? [e] [] := by
  have hnone : l?.toList.flatMap (·.told [e]) = [] := by simp [htold]
  have houtcomes : ((r.modifyTop g).outcomes D).Perm
      (r.outcomes D ++ l?.toList.flatMap (·.told [e]) ++ [].flatMap Unfolding.outcomes) := by
    rw [outcomes_modifyTop, hnone, append_nil, flatMap_nil, append_nil]
  generalize hframes : r.frames = frames at h
  cases h with
  | outside =>
    have hsame : r.modifyTop g = r := by
      unfold modifyTop
      rw [hframes]
    exact ⟨by rw [hsame], by rw [hsame, hframes]; exact .outside, houtcomes⟩
  | inside hf hopen =>
    obtain ⟨htallies, hopen'⟩ := hg _ _ rfl hf
    refine ⟨by rw [frames_modifyTop hframes, hframes]; rfl, ?_, houtcomes⟩
    rw [frames_modifyTop hframes]
    exact .inside htallies hopen'

theorem Records.openScope (h : Follows r.frames l?) : Records D r r.openScope l? [.opens] [] := by
  refine .of_modifyTop h _ _ (fun _ => rfl) fun f l _ hf => ⟨⟨hf.function, .cons (fun x => ?_) hf.scopes, hf.taken⟩,
    nofun⟩
  rw [Std.HashMap.getElem?_empty]
  rfl

theorem Records.closeScope (h : Follows r.frames l?) (hl : ∀ l ∈ l?, l.scopes.tail ≠ []) :
    Records D r r.closeScope l? [.closes] [] := by
  refine .of_modifyTop h _ _ (fun _ => rfl) fun f l hsome hf => ⟨⟨hf.function, ?_, hf.taken⟩, hl l hsome⟩
  obtain ⟨_, scopes, _⟩ := f
  obtain ⟨_, scopes', _⟩ := l
  cases hf.scopes with
  | nil => exact .nil
  | cons _ houter => exact houter

theorem Records.declareLocal (h : Follows r.frames l?) (hi : D i = true) (x : String) (d : Declaration) :
    Records D r (r.declareLocal i o x d) l? [.declares ⟨some i, .local, x, o⟩] [] := by
  generalize hframes : r.frames = frames at h
  unfold Resolution.declareLocal
  rw [hframes]
  cases h with
  | outside =>
    refine ⟨by rw [frames_complain], by rw [frames_complain, hframes]; exact .outside, ?_⟩
    rw [outcomes_complain rfl]
    simp
  | @inside f fs l hf hopen =>
    have hopen' := (Ledger.scopes_play_declares hopen ⟨some i, .local, x, o⟩).2
    have htold := l.told_declares ⟨some i, .local, x, o⟩ []
    have hnil : (l.play (.declares ⟨some i, .local, x, o⟩)).told [] = [] := rfl
    rw [hnil, append_nil] at htold
    dsimp only
    rcases hf.declare hopen (d = .constant) ⟨some i, .local, x, o⟩ .repeatedVariable rfl with
      ⟨refusal, hdeclare, hsame, houtcome⟩ | ⟨g, b, hdeclare, hg, hverdict⟩
    · rw [hdeclare]
      rw [houtcome] at htold
      have hrefusal : (Frame.problem f.function .repeatedVariable (x, refusal)).isRefusal = true :=
        Ledger.isRefusal_of_mem_told (d := ⟨_, o⟩) (by rw [htold]; exact .head _)
      refine ⟨by rw [frames_complain], ?_, ?_⟩
      · have hkept : f.Tallies (l.play (.declares ⟨some i, .local, x, o⟩)) := by rwa [hsame]
        rw [frames_complain, hframes]
        exact .inside hkept hopen'
      · rw [outcomes_refuse hrefusal]
        simp [htold]
    · rw [hdeclare]
      rw [hverdict] at htold
      refine ⟨by rw [hframes]; rfl, .inside hg hopen', ?_⟩
      refine (outcomes_bind hi b).trans ?_
      simp only [toList_some, flatMap_singleton, htold, flatMap_nil, append_nil]
      rfl

theorem enter_tallies (r : Resolution) (o : Origin) (name : String) (captures params : List String)
    {es : List FrameEvent} (hes : es = captures.map (fun x => .declares ⟨none, .captured, x, o⟩) ++
      params.map (fun x => .declares ⟨none, .parameter, x, o⟩)) :
    Follows (r.enter o name captures params).frames (some (Ledger.playAll { function := name } es)) ∧
      (r.enter o name captures params).outcomes D = r.outcomes D ++ Ledger.told { function := name } es := by
  have hstart : Frame.Tallies { function := name } { function := name } := by
    refine ⟨rfl, .cons (fun x => ?_) .nil, rfl⟩
    rw [Std.HashMap.getElem?_empty]
    rfl
  obtain ⟨hcaptures, hopen, refused, hrefused, htold⟩ := hstart.declareAll .captured true .repeatedCapture o
    nofun (fun _ => rfl) captures #[] rfl
  obtain ⟨hparams, hopen', refused', hrefused', htold'⟩ := hcaptures.declareAll .parameter false
    .repeatedParameter o hopen (fun _ => rfl) params #[] rfl
  have henter : Frame.enter name captures params =
      ((Frame.declareAll .parameter false #[] params
          (Frame.declareAll .captured true #[] captures { function := name }).1).1,
        refused.map (Frame.problem name .repeatedCapture) ++ refused'.map (Frame.problem name .repeatedParameter)) := by
    rw [← nil_append refused, ← nil_append refused']
    exact Prod.ext rfl (congrArg₂ _ (congrArg _ hrefused) (congrArg _ hrefused'))
  have hproblems : ((refused.map (Frame.problem name .repeatedCapture) ++
      refused'.map (Frame.problem name .repeatedParameter)).map fun p => Except.error ⟨p, o⟩) =
        Ledger.told { function := name } es := by
    rw [Ledger.function_playAll] at htold'
    rw [hes, Ledger.told_append, ← htold, ← htold', map_append, List.map_map, List.map_map]
    rfl
  subst hes
  refine ⟨?_, ?_⟩
  · rw [frames_enter, henter, Ledger.playAll_append]
    exact .inside hparams hopen'
  · unfold enter
    rw [henter]
    refine (outcomes_foldl_refuse _ (fun p hp => ?_) _).trans (congrArg _ hproblems)
    exact Ledger.isRefusal_of_mem_told (d := ⟨p, o⟩) (hproblems ▸ List.mem_map_of_mem hp)

variable {us : List Unfolding}

theorem records_visitAll_of (h : ∀ u ∈ us, ∀ {r : Resolution} {l? : Option Ledger}, Follows r.frames l? →
    Records D r (visit r u) l? u.events u.functions) (hr : Follows r.frames l?) :
    Records D r (visitAll r us) l? (Unfolding.eventsAll us) (us.flatMap Unfolding.functions) := by
  induction us generalizing r l? with
  | nil =>
    rw [visitAll, Unfolding.eventsAll]
    exact .quiet hr rfl rfl
  | cons u us ih =>
    obtain ⟨hu, hus⟩ := forall_mem_cons.mp h
    have hfirst := hu hr
    rw [visitAll, Unfolding.eventsAll, flatMap_cons]
    exact hfirst.trans (ih hus hfirst.top)

section
variable {i : ElementId} {name : String} {params : List String} {b : ElementId} {isClosure : Bool}
  {captures : List String}

theorem frames_of_function {v : Unfolding} (hv : v = .node i (.function name params b isClosure captures) o us)
    (hall : ∀ {r : Resolution} {l? : Option Ledger}, Follows r.frames l? →
      Records D r (visitAll r us) l? (Unfolding.eventsAll us) (us.flatMap Unfolding.functions))
    (r : Resolution) :
    (∃ f, (visitAll (r.enter o name captures params) us).frames = f :: r.frames ∧
      f.Tallies (v.ledger.playAll v.script)) ∧
    ((visitAll (r.enter o name captures params) us).outcomes D).Perm
      (r.outcomes D ++ (us.flatMap Unfolding.functions ++ [v]).flatMap Unfolding.outcomes) := by
  obtain ⟨hfollows, houtcomes⟩ := enter_tallies (D := D) r o name captures params rfl
  obtain ⟨houter, htop, hadded⟩ := hall hfollows
  subst hv
  refine ⟨?_, ?_⟩
  · rw [frames_enter, tail_cons] at houter
    rw [map_some, ← Ledger.playAll_append] at htop
    generalize (visitAll (r.enter o name captures params) us).frames = frames at houter htop
    cases htop with
    | inside hf => exact ⟨_, congrArg _ houter, hf⟩
  · rw [houtcomes, toList_some, flatMap_singleton] at hadded
    refine hadded.trans ?_
    rw [append_assoc (r.outcomes D), ← Ledger.told_append, append_assoc]
    refine .append_left _ ?_
    rw [flatMap_append, flatMap_singleton]
    exact perm_append_comm

end

theorem records_visit (u : Unfolding) (hu : u.Fits) (hD : ∀ q ∈ u.preorder, D q.1 = q.2.isDeclaration)
    {r : Resolution} {l? : Option Ledger} (hr : Follows r.frames l?) :
    Records D r (visit r u) l? u.events u.functions := by
  induction u generalizing r l? with
  | node i k o us ih =>
    rw [preorder_node] at hD
    obtain ⟨hi, hbelow⟩ := forall_mem_cons.mp hD
    have hall : ∀ {r : Resolution} {l? : Option Ledger}, Follows r.frames l? →
        Records D r (visitAll r us) l? (Unfolding.eventsAll us) (us.flatMap Unfolding.functions) :=
      records_visitAll_of fun u hm => ih u hm (hu.child u hm) fun q hq =>
        hbelow q (mem_flatMap.mpr ⟨u, hm, hq⟩)
    cases k with
    | function name params b isClosure captures =>
      obtain ⟨⟨f, hframes, -⟩, houtcomes⟩ := frames_of_function (D := D)
        (v := .node i (.function name params b isClosure captures) o us) rfl hall r
      have hleave : (visitAll (r.enter o name captures params) us).leave.frames = r.frames := by
        rw [leave, hframes, tail_cons]
      rw [visit, Unfolding.events, functions_of_function _ _ rfl]
      refine ⟨by rw [hleave], ?_, ?_⟩
      · have hsame : l?.map (·.playAll []) = l? := Option.map_id' ..
        rw [hleave, hsame]
        exact hr
      · have hnone : l?.toList.flatMap (·.told []) = [] := by cases l? <;> rfl
        rw [hnone, append_nil]
        exact houtcomes
    | block ids =>
      have hopened : Records D r r.openScope l? [.opens] [] := .openScope hr
      have hparts := hopened.trans (hall hopened.top)
      have hclosed := hparts.trans (.closeScope hparts.top ?_)
      · rw [visit, Unfolding.events, functions_of_not_function _ _ rfl]
        simpa using hclosed
      · intro l hl
        obtain ⟨l, hl', rfl⟩ := map_eq_some_iff.mp hl
        subst hl'
        generalize r.frames = frames at hr
        cases hr with
        | inside _ hopen =>
          rw [Ledger.playAll_append]
          exact (Unfolding.scopes_playAll_of (l := l.play .opens) (fun u _ l => u.scopes_playAll) (by rintro ⟨⟩)).1 ▸ hopen
    | assignment x d value b initializer =>
      rw [functions_of_not_function _ _ rfl]
      cases d with
      | none =>
        simp only [visit, Unfolding.events]
        have hassign := (hall hr).trans (.quiet (hall hr).top (frames_assign _ i o x initializer)
          (outcomes_assign hi _ o x initializer))
        simpa using hassign
      | some d =>
        simp only [visit, Unfolding.events]
        have hdeclare := (hall hr).trans (.declareLocal (hall hr).top (o := o) hi x d)
        simpa using hdeclare
    | reference x b =>
      obtain rfl := hu.none rfl
      rw [visit, functions_of_not_function _ _ rfl]
      simp only [Unfolding.events, Unfolding.eventsAll]
      exact .quiet hr (frames_refer r i o x) (outcomes_refer hi r o x)
    | invocation x arguments target =>
      rw [visit, functions_of_not_function _ _ rfl]
      simp only [Unfolding.events]
      have hcall := (hall hr).trans (.quiet (hall hr).top (frames_call _ i o x arguments.length)
        (outcomes_call _ o x arguments.length))
      simpa using hcall
    | module name ids =>
      have hframes : ((r.enterFunctions us).checkMain o).frames = r.frames := by
        rw [frames_checkMain, frames_enterFunctions]
      rw [visit, functions_of_not_function _ _ rfl]
      simp only [Unfolding.events]
      refine (hall (hframes ▸ hr)).of_quiet hframes ?_
      rw [outcomes_checkMain, outcomes_enterFunctions]
    | closure e bound =>
      rw [visit, functions_of_not_function _ _ rfl]
      simp only [Unfolding.events]
      exact (hall (frames_capture r i o _ ▸ hr)).of_quiet (frames_capture r i o _) (outcomes_capture r o _)
    | _ =>
      simp only [visit, Unfolding.events]
      rw [functions_of_not_function _ _ rfl]
      exact hall hr

end Resolution

/-! ### Trees -/

namespace Tree

open Resolution

variable {t : Tree} {u : Unfolding}

theorem kind?_of_mem_preorder (hs : t.Shows u) : ∀ q ∈ u.preorder, t.kind? q.1 = some q.2 := by
  induction hs with
  | @node i k o us hface _ _ ih =>
    rw [preorder_node]
    refine forall_mem_cons.mpr ⟨?_, fun q hq => ?_⟩
    · exact kind?_of_face? hface
    · obtain ⟨v, hv, hq⟩ := mem_flatMap.mp hq
      exact ih v hv q hq

/-- In one run, every function gives out the slots `0, 1, 2, …` in the order of its captures, parameters and
declarations, one to each that is accepted.  The slots of declarations and the complaints about those refused are
what the ledgers of the functions say, and so is the frame of a function when its body has been visited. -/
theorem slots_of_ofTree (h : t.Owned) (hu : t.unfoldRoot = some u) :
    (∀ v ∈ u.functions, v.slotsGiven = List.range v.slotsGiven.length ∧ v.slotsGiven.length ≤ 65536) ∧
    ((ofTree t).outcomes fun i => (t.kind? i).any Kind.isDeclaration).Perm (u.functions.flatMap Unfolding.outcomes) ∧
    ∀ v ∈ u.functions, ∀ r : Resolution, ∃ f, (walker.below r v).frames = f :: r.frames ∧
      f.Tallies (v.ledger.playAll v.script) := by
  have hshows := (h.unfoldRoot_eq_some_iff.mp hu).1
  have hD : ∀ {v : Unfolding}, t.Shows v → ∀ q ∈ v.preorder,
      (t.kind? q.1).any Kind.isDeclaration = q.2.isDeclaration := by
    intro v hv q hq
    rw [kind?_of_mem_preorder hv q hq, Option.any_some]
  refine ⟨fun v _ => ?_, ?_, fun v hv r => ?_⟩
  · obtain ⟨n, hslots, hle⟩ := Ledger.slots_verdicts (l := v.ledger) v.script (v.taken_ledger ▸ Nat.zero_le _)
    rw [v.taken_ledger] at hslots hle
    rw [Unfolding.slotsGiven, hslots, List.length_range', List.range_eq_range']
    exact ⟨rfl, by omega⟩
  · have hvisit := (records_visit (D := fun i => (t.kind? i).any Kind.isDeclaration) u (hshows.fits h)
      (hD hshows) (r := {}) .outside).outcomes
    rw [ofTree, hu, Option.map_some, Option.getD_some]
    simpa [Resolution.outcomes] using hvisit
  · obtain ⟨hwithin, hfunction⟩ := Scoping.mem_functions_iff.mp hv
    have hv := hshows.within hwithin
    obtain ⟨i, k, o, us⟩ := v
    cases k with
    | function name params b isClosure captures =>
      obtain ⟨hframe, -⟩ := frames_of_function (D := fun i => (t.kind? i).any Kind.isDeclaration)
        (v := .node i (.function name params b isClosure captures) o us) rfl
        (records_visitAll_of fun w hm => records_visit w ((hv.fits h).child w hm)
          (hD (hv.within (.child hm .here)))) r
      rw [walker_below]
      exact hframe
    | _ => cases hfunction

/-- A function with a parameter that is repeated, and a variable that is declared in two scopes and twice in one. -/
def crowded : Tree :=
  reached "crowded" [.alloc (.constant .null) .synthetic,
    .alloc (.assignment "b" (some .variable) 0 none false) .synthetic, .alloc (.constant .null) .synthetic,
    .alloc (.assignment "b" (some .variable) 2 none false) .synthetic,
    .alloc (.block [3]) .synthetic, .alloc (.constant .null) .synthetic,
    .alloc (.assignment "b" (some .constant) 5 none false) .synthetic, .alloc (.block [1, 4, 6]) .synthetic,
    .alloc (.function "f" ["a", "a"] 7 false []) .synthetic, .setRoot 8]

theorem crowded_owned : crowded.Owned := foldl_perform_owned (empty_owned _) _

theorem crowded_slots : crowded.Owned ∧ ∃ u, crowded.unfoldRoot = some u ∧
    ((ofTree crowded).outcomes fun i => (crowded.kind? i).any Kind.isDeclaration).Perm
      [.error ⟨.repeatedParameter "a", .synthetic⟩, .ok (1, 1), .ok (3, 2),
        .error ⟨.repeatedVariable "b", .synthetic⟩] :=
  ⟨crowded_owned, _, rfl, (slots_of_ofTree crowded_owned rfl).2.1⟩

end Tree

end Clausal
