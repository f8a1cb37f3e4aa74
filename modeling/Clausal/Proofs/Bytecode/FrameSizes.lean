import Clausal.Proofs.Bytecode.Mentions
import Clausal.Proofs.Scoping.TrackedSlots

/-! # The size of a frame

The frame of a function has one slot for each capture, each parameter and each declaration in its body, and no
more. -/

namespace Clausal

open List Option Unfolding

/-! ### Slots in code -/

def Op.slots : Op → List UInt16
  | load s | store s | callClosure s _ => [s]
  | makeClosure _ captures => captures
  | _ => []

variable {op : Op} {s : UInt16} {next : Nat} {c : FunctionCode} {u : Unfolding}

theorem Op.mentions_of_mem_slots (h : s ∈ op.slots) : op.mentions = true := by
  cases op <;> first | rfl | cases h

theorem Op.mem_slots_of_slot? (h : op.slot? = some s) : s ∈ op.slots := by
  cases op <;> cases h <;> exact .head _

/-- The code of a function puts every number from one on to another into a slot, mentions nothing from
the latter on, and writes no slot below some number. -/
structure Slotted (n first next : Nat) (ops : List Op) : Prop where
  below : ∀ op ∈ ops, ∀ s ∈ op.slots, s.toNat < next
  stores : ∀ s, .store s ∈ ops → n ≤ s.toNat
  covers : ∀ k, first ≤ k → k < next → .store k.toUInt16 ∈ ops

namespace Slotted

variable {n first next : Nat} {ops ops' : List Op}

theorem append {next' : Nat} (h : Slotted n first next ops) (h' : Slotted n next next' ops')
    (hle : next ≤ next') : Slotted n first next' (ops ++ ops') := by
  refine ⟨fun op hop s hs => ?_, fun s hs => ?_, fun k hk hk' => ?_⟩
  · rcases mem_append.mp hop with hop | hop
    · exact Nat.lt_of_lt_of_le (h.below op hop s hs) hle
    · exact h'.below op hop s hs
  · rcases mem_append.mp hs with hs | hs
    · exact h.stores s hs
    · exact h'.stores s hs
  · rcases Nat.lt_or_ge k next with hlt | hge
    · exact mem_append_left _ (h.covers k hk hlt)
    · exact mem_append_right _ (h'.covers k hge hk')

theorem nil (n next : Nat) : Slotted n next next [] :=
  ⟨nofun, nofun, fun _ hle hlt => absurd hlt (Nat.not_lt.mpr hle)⟩

theorem one {op : Op} (h : ∀ s ∈ op.slots, s.toNat < next) (hstore : ∀ s, op = .store s → n ≤ s.toNat) :
    Slotted n next next [op] := by
  refine ⟨fun op' hop => ?_, fun s hs => ?_, fun _ hle hlt => absurd hlt (Nat.not_lt.mpr hle)⟩
  · rw [mem_singleton.mp hop]
    exact h
  · exact hstore s (mem_singleton.mp hs).symm

end Slotted

/-! ### Declarations -/

def Kind.isDeclaration : Kind → Bool
  | assignment _ (some _) _ _ _ => true
  | _ => false

namespace Unfolding

/-- The number of declarations in an element, without those in functions below. -/
def declarations (u : Unfolding) : Nat :=
  (u.preorderUntil Role.function.accepts).countP (·.2.isDeclaration)

variable {i : ElementId} {k : Kind} (o : Origin) (us : List Unfolding)

theorem declarations_of_function (hk : Role.function.accepts k = true) :
    declarations (.node i k o us) = 0 := by
  rw [declarations, preorderUntil_node, if_pos hk]
  cases k <;> first | rfl | cases hk

theorem declarations_of_not_function (hk : Role.function.accepts k = false) :
    declarations (.node i k o us) = (us.map declarations).sum + if k.isDeclaration then 1 else 0 := by
  rw [declarations, preorderUntil_node, if_neg (by simp [hk]), countP_cons, countP_flatMap]
  rfl

end Unfolding

/-! ### Numbered frames -/

namespace Frame

/-- The slots of a frame are below the next one, and only captures are below the number of captures. -/
structure Numbered (n : Nat) (f : Frame) : Prop where
  room : f.nextSlot ≤ frameLimit
  slots : ∀ scope ∈ f.scopes, ∀ (x : String) (s : Symbol), scope[x]? = some s →
    s.binding.slot.toNat < f.nextSlot ∧ (s.binding.kind = .captured ∨ n ≤ s.binding.slot.toNat)

variable {n : Nat} {f g : Frame} {kind : BindingKind} {constant : Bool} {x : String}

theorem Numbered.lookup (h : f.Numbered n) {s : Symbol} (hs : f.lookup x = some s) :
    s.binding.slot.toNat < f.nextSlot ∧ (s.binding.kind = .captured ∨ n ≤ s.binding.slot.toNat) := by
  obtain ⟨scope, hscope, hs⟩ := exists_of_findSome?_eq_some hs
  exact h.slots scope hscope x s hs

theorem toNat_toUInt16 {k : Nat} (h : k < frameLimit) : k.toUInt16.toNat = k := by
  exact (UInt16.toNat_ofNat' ..).trans (Nat.mod_eq_of_lt h)

theorem Numbered.declare (h : f.Numbered n) (hn : kind = .captured ∨ n ≤ f.nextSlot) {b : Binding}
    (hd : f.declare kind constant x = (g, .ok b)) :
    g.Numbered n ∧ g.nextSlot = f.nextSlot + 1 ∧ b.slot = f.nextSlot.toUInt16 ∧ f.nextSlot < frameLimit := by
  obtain ⟨function, scopes, next⟩ := f
  cases scopes with
  | nil => cases hd
  | cons scope outer =>
    rw [Frame.declare] at hd
    split_ifs at hd with hcontains hfull
    · cases hd
    · cases hd
    · cases hd
      have hlt : next < frameLimit := Nat.not_le.mp hfull
      refine ⟨⟨hlt, fun scope' hscope y s hs => ?_⟩, rfl, rfl, hlt⟩
      have hold : ∀ scope' ∈ scope :: outer, scope'[y]? = some s →
          s.binding.slot.toNat < next + 1 ∧ (s.binding.kind = .captured ∨ n ≤ s.binding.slot.toNat) :=
        fun scope' hscope hs => by
          obtain ⟨hlt, hkind⟩ := h.slots scope' hscope y s hs
          exact ⟨Nat.lt_succ_of_lt hlt, hkind⟩
      rcases mem_cons.mp hscope with rfl | hscope
      · rw [Std.HashMap.getElem?_insert] at hs
        split_ifs at hs
        · cases hs
          refine ⟨?_, hn.imp_right fun hle => ?_⟩
          · exact (toNat_toUInt16 hlt).trans_lt (Nat.lt_succ_self next)
          · exact hle.trans_eq (toNat_toUInt16 hlt).symm
        · exact hold scope (.head _) hs
      · exact hold scope' (.tail _ hscope) hs

theorem Numbered.opened (h : f.Numbered n) : ({ f with scopes := {} :: f.scopes } : Frame).Numbered n := by
  refine ⟨h.room, fun scope hscope x s hs => ?_⟩
  rcases mem_cons.mp hscope with rfl | hscope
  · rw [Std.HashMap.getElem?_empty] at hs
    cases hs
  · exact h.slots scope hscope x s hs

theorem Numbered.closed (h : f.Numbered n) : ({ f with scopes := f.scopes.tail } : Frame).Numbered n :=
  ⟨h.room, fun scope hscope => h.slots scope (mem_of_mem_tail hscope)⟩

theorem Numbered.declareAll (names : List String) (h : f.Numbered n)
    (hn : kind = .captured ∨ n ≤ f.nextSlot)
    (hnone : (declareAll kind constant #[] names f).2 = #[]) :
    (declareAll kind constant #[] names f).1.Numbered n ∧
      (declareAll kind constant #[] names f).1.nextSlot = f.nextSlot + names.length := by
  induction names generalizing f with
  | nil => exact ⟨h, rfl⟩
  | cons x names ih =>
    rw [Frame.declareAll] at hnone ⊢
    split at hnone
    · rename_i g b hd
      obtain ⟨hg, hnext, -⟩ := h.declare hn hd
      obtain ⟨hall, hnext'⟩ := ih hg (hn.imp_right fun hle => by omega) hnone
      refine ⟨hall, ?_⟩
      rw [hnext', hnext, length_cons]
      omega
    · rename_i g refusal hd
      have hmem : (x, refusal) ∈ (Frame.declareAll kind constant (#[].push (x, refusal)) names g).2 :=
        declareAll_keeps _ _ _ _ (Array.mem_push_self ..)
      rw [hnone] at hmem
      simp at hmem

theorem numbered_enter {function : String} {captures params : List String}
    (h : (enter function captures params).2 = []) :
    (enter function captures params).1.Numbered captures.length ∧
      (enter function captures params).1.nextSlot = captures.length + params.length := by
  have henter : enter function captures params =
      ((Frame.declareAll .parameter false #[] params
          (Frame.declareAll .captured true #[] captures { function }).1).1,
        (Frame.declareAll .captured true #[] captures { function }).2.toList.map
            (problem function .repeatedCapture) ++
          (Frame.declareAll .parameter false #[] params
            (Frame.declareAll .captured true #[] captures { function }).1).2.toList.map
              (problem function .repeatedParameter)) := rfl
  rw [henter, append_eq_nil_iff, map_eq_nil_iff, map_eq_nil_iff,
    Array.toList_eq_nil_iff, Array.toList_eq_nil_iff] at h
  rw [henter]
  have hempty : ({ function } : Frame).Numbered captures.length := by
    refine ⟨Nat.zero_le _, fun scope hscope x s hs => ?_⟩
    rw [mem_singleton.mp hscope, Std.HashMap.getElem?_empty] at hs
    cases hs
  obtain ⟨hcaptures, hnext⟩ := hempty.declareAll captures (.inl rfl) h.1
  rw [Nat.zero_add] at hnext
  obtain ⟨hparams, hnext'⟩ := hcaptures.declareAll params (.inr hnext.ge) h.2
  exact ⟨hparams, hnext'.trans (congrArg (· + params.length) hnext)⟩

end Frame

/-! ### Visits -/

namespace Resolution

variable {n count count' : Nat} {r r' r'' : Resolution} {ops ops' : List Op} {i : ElementId} {x : String}
  {b : Binding} {o : Origin}

/-- Between two states the innermost frame has got some new slots, and operations mention what it has. -/
def Fills (n : Nat) (r r' : Resolution) (ops : List Op) (count : Nat) : Prop :=
  ∀ f fs, r.frames = f :: fs → f.Numbered n → n ≤ f.nextSlot → ∃ f', r'.frames = f' :: fs ∧
    f'.Numbered n ∧ f'.nextSlot = f.nextSlot + count ∧ Slotted n f.nextSlot f'.nextSlot ops

theorem Fills.trans (h : Fills n r r' ops count) (h' : Fills n r' r'' ops' count') :
    Fills n r r'' (ops ++ ops') (count + count') := by
  intro f fs hr hf hn
  obtain ⟨g, hr', hg, hnext, hslotted⟩ := h f fs hr hf hn
  obtain ⟨g', hr'', hg', hnext', hslotted'⟩ := h' g fs hr' hg (by omega)
  exact ⟨g', hr'', hg', by omega, hslotted.append hslotted' (by omega)⟩

theorem Fills.of_frames (h : r'.frames = r.frames) : Fills n r r' [] 0 :=
  fun f _ hr hf _ => ⟨f, h.trans hr, hf, rfl, .nil n _⟩

theorem Fills.of_left (h : Fills n r' r'' ops count) (hr : r'.frames = r.frames) :
    Fills n r r'' ops count := by
  rwa [Fills, hr] at h

theorem Fills.one {op : Op} (hframes : r'.frames = r.frames)
    (h : ∀ f : Frame, r.frames.head? = some f → f.Numbered n → (∀ s ∈ op.slots, s.toNat < f.nextSlot) ∧
      ∀ s, op = .store s → n ≤ s.toNat) : Fills n r r' [op] 0 := by
  intro f _ hr hf _
  obtain ⟨hslots, hstore⟩ := h f (by rw [hr]; rfl) hf
  exact ⟨f, hframes.trans hr, hf, rfl, .one hslots hstore⟩

theorem lookup_eq_of_head? {f : Frame} (hf : r.frames.head? = some f) (x : String) :
    r.lookup x = f.lookup x := by
  rw [Resolution.lookup, hf, bind_some]

theorem fills_refer {s : Symbol} (hs : r.lookup x = some s) :
    Fills n r (r.refer i o x) [.load s.binding.slot] 0 := by
  refine .one (frames_refer ..) fun f hf hnumbered => ⟨?_, nofun⟩
  rw [lookup_eq_of_head? hf] at hs
  simpa [Op.slots] using (hnumbered.lookup hs).1

theorem fills_assign {initializer : Bool} (hb : r.assigned? x initializer = some b) :
    Fills n r (r.assign i o x initializer) [.store b.slot] 0 := by
  refine .one (frames_assign ..) fun f hf hnumbered => ?_
  unfold assigned? at hb
  obtain ⟨s, hs, hb⟩ := bind_eq_some_iff.mp hb
  split_ifs at hb with hrefused
  cases hb
  rw [lookup_eq_of_head? hf] at hs
  obtain ⟨hlt, hkind⟩ := hnumbered.lookup hs
  refine ⟨by simpa [Op.slots] using hlt, ?_⟩
  rintro s' ⟨⟩
  refine hkind.resolve_left fun hcaptured => ?_
  simp [hcaptured] at hrefused

theorem fills_call {given argc : Nat} {c : CallTarget} (hc : r.called? x = some c) :
    Fills n r (r.call i o x given) [Generate.callOp x argc c] 0 := by
  refine .one (frames_call ..) fun f hf hnumbered => ⟨?_, by cases c <;> simp [Generate.callOp]⟩
  unfold called? at hc
  cases hs : r.lookup x with
  | some s =>
    rw [hs] at hc
    cases hc
    rw [lookup_eq_of_head? hf] at hs
    simpa [Generate.callOp, Op.slots] using (hnumbered.lookup hs).1
  | none =>
    rw [hs] at hc
    dsimp only at hc
    split_ifs at hc <;> cases hc <;> simp [Generate.callOp, Op.slots]

theorem fills_capture {names : List String} (name : String) :
    Fills n r (r.capture i o names) [.makeClosure name ((r.sources names).map (·.slot))] 0 := by
  refine .one (frames_capture ..) fun f hf hnumbered => ⟨fun s hs => ?_, nofun⟩
  obtain ⟨b, hb, rfl⟩ := List.mem_map.mp hs
  obtain ⟨x, -, hx⟩ := mem_filterMap.mp hb
  obtain ⟨symbol, hsymbol, rfl⟩ := map_eq_some_iff.mp hx
  rw [lookup_eq_of_head? hf] at hsymbol
  exact (hnumbered.lookup hsymbol).1

theorem fills_declareLocal {d : Declaration} (hb : r.declared? x d = some b) :
    Fills n r (r.declareLocal i o x d) [.store b.slot] 1 := by
  intro f fs hr hf hn
  unfold declared? at hb
  rw [hr, head?_cons, bind_some] at hb
  unfold declareLocal
  rw [hr]
  dsimp only
  generalize hd : f.declare .local (d = .constant) x = result at hb ⊢
  obtain ⟨g, refusal | b'⟩ := result
  · cases hb
  · cases hb
    obtain ⟨hg, hnext, hslot, hlt⟩ := hf.declare (.inr hn) hd
    refine ⟨g, rfl, hg, hnext, ?_, ?_, ?_⟩
    · intro op hop s hs
      rw [mem_singleton.mp hop, Op.slots, mem_singleton] at hs
      rw [hs, hslot, Frame.toNat_toUInt16 hlt, hnext]
      exact Nat.lt_succ_self _
    · intro s hs
      cases mem_singleton.mp hs
      rw [hslot, Frame.toNat_toUInt16 hlt]
      exact hn
    · intro k hle hlt'
      obtain rfl : k = f.nextSlot := by omega
      rw [hslot]
      exact .head _

theorem Fills.closeScope (h : Fills n r.openScope r' ops count) : Fills n r r'.closeScope ops count := by
  intro f fs hr hf hn
  obtain ⟨g, hr', hg, hnext, hslotted⟩ := h _ fs (frames_modifyTop hr _) hf.opened hn
  exact ⟨_, frames_modifyTop hr' _, hg.closed, hnext, hslotted⟩

theorem fills_visitAll {us : List Unfolding} (hus : ∀ u ∈ us, u.Inner)
    (ih : ∀ u ∈ us, ∀ r, (visit r u).Clean →
      Fills n r (visit r u) (walker.settle r u).mentions (walker.settle r u).declarations)
    (hclean : (visitAll r us).Clean) :
    Fills n r (visitAll r us) ((walker.settleAll r us).flatMap mentions)
      ((walker.settleAll r us).map Unfolding.declarations).sum := by
  induction us generalizing r with
  | nil => exact .of_frames rfl
  | cons u us ihus =>
    rw [visitAll] at hclean ⊢
    have hrest : ∀ v ∈ us, v.Inner := fun v hv => hus v (.tail _ hv)
    have hfirst : (visit r u).Clean := (later_visitAll hrest _).clean hclean
    rw [Walker.settleAll, flatMap_cons, map_cons, sum_cons]
    exact (ih u (.head _) r hfirst).trans (ihus hrest (fun v hv => ih v (.tail _ hv)) hclean)

theorem fills_visit {u : Unfolding} (hu : u.Fits) (hclean : (visit r u).Clean) :
    Fills n r (visit r u) (walker.settle r u).mentions (walker.settle r u).declarations := by
  induction u generalizing r with
  | node i k o us ih =>
    have hbelow : (visitAll (walker.enter r (.node i k o us)) us).Clean := by
      have hlater := later_below hu r
      rw [walker_below] at hlater
      exact hlater.clean hclean
    have hus := fills_visitAll (n := n) hu.inner (fun u hm r => ih u hm (hu.child u hm)) hbelow
    rw [Walker.settle, walker_below]
    by_cases hk : Role.function.accepts k = true
    · rw [mentions_of_function _ _ ((Mark.accepts_settle ..).trans hk),
        Unfolding.declarations_of_function _ _ ((Mark.accepts_settle ..).trans hk)]
      cases k <;> cases hk
      refine .of_frames ?_
      rw [visit, leave, (keeps_visitAll_of (fun u hm r => keeps_visit (hu.child u hm) r) _).1.1,
        frames_enter, tail_cons]
    rw [Bool.not_eq_true] at hk
    rw [mentions_of_not_function _ _ ((Mark.accepts_settle ..).trans hk),
      Unfolding.declarations_of_not_function _ _ ((Mark.accepts_settle ..).trans hk)]
    cases k with
    | function => cases hk
    | assignment x d value b initializer =>
      cases d with
      | some d =>
        rw [visit] at hclean ⊢
        obtain ⟨b', hb'⟩ := isSome_iff_exists.mp hclean.declareLocal
        simp only [walker, children, hb']
        exact hus.trans (fills_declareLocal hb')
      | none =>
        rw [visit] at hclean ⊢
        obtain ⟨b', hb'⟩ := isSome_iff_exists.mp hclean.assign
        simp only [walker, children, hb']
        exact hus.trans (fills_assign hb')
    | reference x b =>
      obtain rfl := hu.none rfl
      rw [visit] at hclean ⊢
      obtain ⟨s, hs⟩ := isSome_iff_exists.mp hclean.refer
      simp only [walker, hs]
      exact hus.trans (fills_refer hs)
    | invocation x arguments target =>
      rw [visit] at hclean ⊢
      obtain ⟨c, hc⟩ := isSome_iff_exists.mp hclean.call
      simp only [walker, children, hc]
      exact hus.trans (fills_call hc)
    | closure f bound =>
      obtain ⟨fn, rfl, -, hfn⟩ := hu.one rfl
      obtain ⟨j, kf, of, vs⟩ := fn
      cases kf <;> cases hfn
      rw [Walker.settleAll, Walker.settleAll, Walker.settle, flatMap_singleton, map_singleton,
        sum_singleton, mentions_of_function _ _ (Mark.accepts_settle ..),
        Unfolding.declarations_of_function _ _ (Mark.accepts_settle ..)] at hus ⊢
      -- the slots are found before the function is visited, which leaves the frame alone
      exact (fills_capture _).trans hus
    | block ids =>
      rw [visit]
      exact hus.closeScope.trans (.of_frames rfl)
    | module name ids =>
      rw [visit]
      exact (hus.trans (.of_frames rfl)).of_left (by simp [walker])
    | _ =>
      simp only [visit]
      exact hus.trans (.of_frames rfl)

theorem Clean.problems_enter {name : String} {captures params : List String}
    (h : (r.enter o name captures params).Clean) : (Frame.enter name captures params).2 = [] := by
  refine eq_nil_iff_forall_not_mem.mpr fun problem hproblem => ?_
  have herror := h _ (mem_diagnostics_foldl o (fun p => p) hproblem _)
  rcases mem_append.mp hproblem with hproblem | hproblem <;>
    obtain ⟨⟨x, refusal⟩, -, rfl⟩ := List.mem_map.mp hproblem <;> cases refusal <;> cases herror

end Resolution

/-! ### Functions -/

/-- The frame of a function has a slot for each capture, parameter and declaration, its code mentions no
other, and captures are never written. -/
inductive Framed : Unfolding → FunctionCode → Prop
  | function {i b name params captures lifted o body c} :
      c.name = name → c.arity = params.length → c.captures = captures.length →
      c.locals = captures.length + params.length + body.declarations →
      (∀ op ∈ c.code, ∀ s ∈ op.slots, s.toNat < c.locals) →
      (∀ s, .store s ∈ c.code → c.captures ≤ s.toNat) →
      Framed (.node i (.function name params b lifted captures) o [body]) c

theorem frameSize_of_slotted {arity captures : Nat} {code : List Op}
    (h : Slotted captures (captures + arity) next (code.filter Op.mentions)) (hle : captures + arity ≤ next)
    (hroom : next ≤ frameLimit) : FunctionCode.frameSize arity captures code = next := by
  refine Nat.le_antisymm (FunctionCode.frameSize_le (by omega) fun op hop s hs => ?_) ?_
  · have hslot := Op.mem_slots_of_slot? hs
    exact h.below op (mem_filter.mpr ⟨hop, Op.mentions_of_mem_slots hslot⟩) s hslot
  · rcases Nat.eq_or_lt_of_le hle with heq | hlt
    · have hinit := FunctionCode.le_frameSize arity captures code
      omega
    · -- the last slot belongs to a declaration, which writes it
      obtain ⟨last, rfl⟩ : ∃ last, next = last + 1 := ⟨next - 1, by omega⟩
      have hstore := mem_of_mem_filter (h.covers last (by omega) (Nat.lt_succ_self last))
      have hlast := FunctionCode.lt_frameSize arity captures hstore rfl
      rwa [Frame.toNat_toUInt16 hroom] at hlast

theorem Generate.Codes.framed {i b : ElementId} {name : String} {params captures : List String}
    {lifted : Bool} {o : Origin} {body : Unfolding}
    (hc : Codes (.node i (.function name params b lifted captures) o [body]) c)
    (h : Slotted captures.length (captures.length + params.length) next body.mentions)
    (hnext : next = captures.length + params.length + body.declarations) (hroom : next ≤ frameLimit) :
    Framed (.node i (.function name params b lifted captures) o [body]) c := by
  have hmentions := hc.mentions_eq
  rw [children, flatMap_singleton] at hmentions
  cases hc with
  | function _ _ _ =>
    rw [← hmentions] at h
    have hsize := frameSize_of_slotted h (by omega) hroom
    refine .function rfl rfl rfl (hsize.trans hnext) (fun op hop s hs => ?_) fun s hs => ?_
    · have hbelow := h.below op (mem_filter.mpr ⟨hop, Op.mentions_of_mem_slots hs⟩) s hs
      exact hbelow.trans_eq hsize.symm
    · exact h.stores s (mem_filter.mpr ⟨hs, rfl⟩)

theorem framed_of_codes (hu : u.Fits) {r : Resolution} (hclean : (Resolution.visit r u).Clean)
    (hc : Generate.Codes (Resolution.walker.settle r u) c) : Framed (Resolution.walker.settle r u) c := by
  have hbelow := (Resolution.later_below hu r).clean hclean
  obtain ⟨i, k, o, us⟩ := u
  rw [Walker.settle] at hc ⊢
  have hk : Role.function.accepts k = true := (Mark.accepts_settle ..).symm.trans hc.accepts
  cases k <;> cases hk
  rename_i name params b lifted captures
  obtain ⟨body, rfl, hbody⟩ := hu.one rfl
  rw [Resolution.walker_below, children, Resolution.visitAll, Resolution.visitAll] at hbelow
  rw [Walker.settleAll, Walker.settleAll] at hc ⊢
  have henter := (Resolution.later_visit ⟨hbody.1, .block, hbody.2⟩ _).clean hbelow
  obtain ⟨hnumbered, hnext⟩ := Frame.numbered_enter henter.problems_enter
  obtain ⟨f, -, hf, hsize, hslotted⟩ := Resolution.fills_visit (n := captures.length) hbody.1 hbelow _ _
    (Resolution.frames_enter ..) hnumbered (by omega)
  rw [hnext] at hslotted hsize
  exact hc.framed hslotted hsize hf.room

theorem framed_all (hu : u.Fits) (hclean : (Resolution.visit {} u).Clean) {cs : List FunctionCode}
    (hcs : Forall₂ Generate.Codes (Resolution.walker.settle {} u).functions cs) :
    Forall₂ Framed (Resolution.walker.settle {} u).functions cs := by
  refine (forall₂_iff_zip.mp hcs).elim fun hlength hzip => ?_
  refine forall₂_iff_zip.mpr ⟨hlength, fun {g c} hmem => ?_⟩
  obtain ⟨t, v, rfl, hv, hcleanv⟩ := (Resolution.each_clean hu hclean).exists_of_within hu
    (within_of_mem_functions (of_mem_zip hmem).1)
  exact framed_of_codes hv hcleanv (hzip hmem)

end Clausal
