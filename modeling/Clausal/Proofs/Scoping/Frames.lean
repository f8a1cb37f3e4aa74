import Clausal.Proofs.Scoping.Places

/-! # The frames of name resolution

Name resolution has a hash map for every open scope and one counter for the next slot.  A frame agrees with a
layer (`Frame.Agrees`) if its maps hold what the scopes of the layer declare, with the slots that the layer
gives. -/

namespace Clausal

open Scoping List Option

/-! ### Declaring names in a frame -/

namespace Frame

variable {function : String} {scope : Std.HashMap String Symbol}
  {outer : List (Std.HashMap String Symbol)} {n : Nat} {name : String} {kind : BindingKind}
  {constant : Bool}

theorem declare_of_contains (h : scope.contains name = true) :
    declare kind constant name ⟨function, scope :: outer, n⟩ =
      (⟨function, scope :: outer, n⟩, .error .repeated) := by
  rw [declare, if_pos h]

theorem declare_of_full (h : scope.contains name = false) (hn : frameLimit ≤ n) :
    declare kind constant name ⟨function, scope :: outer, n⟩ =
      (⟨function, scope :: outer, n⟩, .error .frameFull) := by
  rw [declare, h, if_neg Bool.false_ne_true, if_pos hn]

theorem declare_of_lt (h : scope.contains name = false) (hn : n < frameLimit) :
    declare kind constant name ⟨function, scope :: outer, n⟩ =
      (⟨function, scope.insert name ⟨⟨n.toUInt16, kind⟩, constant⟩ :: outer, n + 1⟩,
        .ok ⟨n.toUInt16, kind⟩) := by
  rw [declare, h, if_neg Bool.false_ne_true, if_neg (Nat.not_le.mpr hn)]

theorem declareAll_keeps (names : List String) (refused : Array (String × Refusal)) (f : Frame) :
    ∀ p ∈ refused, p ∈ (declareAll kind constant refused names f).2 := by
  induction names generalizing refused f with
  | nil => exact fun p hp => hp
  | cons y names ih =>
    intro p hp
    rw [declareAll]
    split
    · exact ih refused _ p hp
    · exact ih _ _ p (Array.mem_push_of_mem _ hp)

theorem declareAll_eq (names : List String) {seen : List String} {refused : Array (String × Refusal)}
    (hseen : ∀ x, scope.contains x = true ↔ x ∈ seen) (hn : n ≤ frameLimit)
    (hroom : ∀ p ∈ (declareAll kind constant refused names ⟨function, scope :: outer, n⟩).2,
      p.2 ≠ .frameFull) :
    ∃ scope', (declareAll kind constant refused names ⟨function, scope :: outer, n⟩).1 =
        ⟨function, scope' :: outer, n + (firsts seen names).length⟩ ∧
      n + (firsts seen names).length ≤ frameLimit ∧
      ∀ x, scope'[x]? = scope[x]?.or (((firsts seen names).idxOf? x).map fun k =>
        ⟨⟨(n + k).toUInt16, kind⟩, constant⟩) := by
  induction names generalizing scope n seen refused with
  | nil => exact ⟨scope, rfl, hn, fun x => by simp [firsts]⟩
  | cons y names ih =>
    rw [firsts]
    rw [declareAll] at hroom ⊢
    by_cases hy : y ∈ seen
    · rw [declare_of_contains ((hseen y).mpr hy)] at hroom ⊢
      rw [if_pos hy]
      exact ih hseen hn hroom
    · have hcontains : scope.contains y = false := by
        rw [← Bool.not_eq_true, hseen]
        exact hy
      rw [if_neg hy]
      rcases Nat.lt_or_ge n frameLimit with hlt | hge
      · rw [declare_of_lt hcontains hlt] at hroom ⊢
        have hseen' : ∀ x, (scope.insert y ⟨⟨n.toUInt16, kind⟩, constant⟩).contains x = true ↔
            x ∈ seen ++ [y] := by
          intro x
          rw [Std.HashMap.contains_insert, Bool.or_eq_true, hseen, mem_append,
            mem_singleton, beq_iff_eq]
          exact or_comm.trans (or_congr_right eq_comm)
        have hadd : ∀ k, n + 1 + k = n + (k + 1) := fun k => by omega
        obtain ⟨scope', heq, hle, hlookup⟩ := ih (n := n + 1) hseen' hlt hroom
        refine ⟨scope', ?_, ?_, ?_⟩
        · rw [heq, length_cons, hadd]
        · rw [length_cons]
          omega
        · intro x
          rw [hlookup, idxOf?_cons, Std.HashMap.getElem?_insert]
          by_cases hxy : y = x
          · subst hxy
            rw [if_pos (beq_self_eq_true y), if_pos (beq_self_eq_true y),
              Std.HashMap.getElem?_eq_none_of_contains_eq_false hcontains]
            rfl
          · have hne : (y == x) = false := beq_false_of_ne hxy
            rw [hne, if_neg Bool.false_ne_true, if_neg Bool.false_ne_true, Option.map_map]
            congr 2
            funext k
            rw [Function.comp_apply, hadd]
      · rw [declare_of_full hcontains hge] at hroom
        exact absurd rfl (hroom (y, .frameFull) (declareAll_keeps names _ _ _ (Array.mem_push_self ..)))

end Frame

/-! ### What a frame knows -/

namespace Scoping

theorem firsts_congr {seen seen' xs : List String} (h : ∀ x ∈ xs, x ∈ seen ↔ x ∈ seen') :
    firsts seen xs = firsts seen' xs := by
  induction xs generalizing seen seen' with
  | nil => rfl
  | cons y ys ih =>
    have hys : ∀ x ∈ ys, x ∈ seen ↔ x ∈ seen' := fun x hx => h x (.tail _ hx)
    rw [firsts, firsts, ih hys]
    have hcons : firsts (seen ++ [y]) ys = firsts (seen' ++ [y]) ys := by
      refine ih fun x hx => ?_
      rw [mem_append, mem_append, hys x hx]
    rw [hcons]
    exact if_congr (h y (.head _)) rfl rfl

theorem firsts_of_nodup {seen xs : List String} (hxs : xs.Nodup) (h : ∀ x ∈ xs, x ∉ seen) :
    firsts seen xs = xs := by
  induction xs generalizing seen with
  | nil => rfl
  | cons y ys ih =>
    rw [nodup_cons] at hxs
    rw [firsts, if_neg (h y (.head _)), ih hxs.2]
    intro x hx
    rw [mem_append, mem_singleton, not_or]
    exact ⟨h x (.tail _ hx), fun heq => hxs.1 (heq ▸ hx)⟩

namespace Layer

variable (l : Layer)

def symbol (d : Decl) : Symbol := ⟨⟨(l.slot d).toUInt16, d.kind⟩, d.isConstant⟩

def captured (x : String) : Option Symbol :=
  (l.captures.idxOf? x).map fun k => ⟨⟨k.toUInt16, .captured⟩, true⟩

def base (x : String) : Option Symbol :=
  (((firsts [] l.params).idxOf? x).map fun k => l.symbol (.parameter k)).or (l.captured x)

def views : List (String → Option Symbol) :=
  l.scopes.map (fun s x => (s.lookup x).map l.symbol) ++ [l.base]

def meaning (x : String) : Option Symbol := ((l.find? x).map l.symbol).or (l.captured x)

def seen : List String := (l.scopes.headD []).map Prod.fst

def extend (ds : List (String × Decl)) : Layer :=
  { l with scopes := match l.scopes with | [] => [] | s :: ss => (s ++ ds) :: ss }

theorem extend_nil : l.extend [] = l := by
  obtain ⟨captures, bound, params, locals, scopes⟩ := l
  cases scopes <;> simp [extend]

theorem extend_extend (ds es : List (String × Decl)) : (l.extend ds).extend es = l.extend (ds ++ es) := by
  obtain ⟨captures, bound, params, locals, scopes⟩ := l
  cases scopes <;> simp [extend]

theorem opened_append (us vs : List Unfolding) :
    (l.opened us).extend (declared vs) = l.opened (us ++ vs) := by
  simp [extend, opened, declared]

theorem seen_extend {ds : List (String × Decl)} (h : ds ≠ [] → l.scopes ≠ []) :
    (l.extend ds).seen = l.seen ++ ds.map Prod.fst := by
  obtain ⟨captures, bound, params, locals, scopes⟩ := l
  cases scopes with
  | nil =>
    have hds : ds = [] := by_contra fun hds => h hds rfl
    simp [extend, seen, hds]
  | cons s ss => simp [extend, seen]

theorem findSome?_views (x : String) : l.views.findSome? (· x) = l.meaning x := by
  rw [views, meaning, find?, findSome?_append, findSome?_map, map_or, Option.or_assoc,
    map_findSome?, Option.map_map, findSome?_singleton, base]
  rfl

theorem scopes_extend {s : List (String × Decl)} {ss : List (List (String × Decl))}
    (hl : l.scopes = s :: ss) (ds : List (String × Decl)) :
    (l.extend ds).scopes = (s ++ ds) :: ss := by
  unfold extend
  rw [hl]

end Layer

end Scoping

namespace Frame

def view (scope : Std.HashMap String Symbol) (x : String) : Option Symbol := scope[x]?

/-- A frame knows what its function has declared, and the locals that are done have their slots. -/
structure Agrees (f : Frame) (l : Layer) (done : List ElementId) : Prop where
  views : f.scopes.map view = l.views
  next : f.nextSlot = l.captures.length + (firsts [] l.params).length + done.length
  room : f.nextSlot ≤ frameLimit
  below : ∀ s ∈ l.scopes, ∀ x d, s.lookup x = some d → l.slot d < f.nextSlot

variable {f : Frame} {l : Layer} {done : List ElementId} {x : String}

theorem Agrees.lookup (h : f.Agrees l done) (x : String) : f.lookup x = l.meaning x := by
  have hviews : f.scopes.findSome? (·[x]?) = (f.scopes.map view).findSome? (· x) := by
    rw [findSome?_map]
    rfl
  rw [Frame.lookup, hviews, h.views, Layer.findSome?_views]

theorem agrees_enter (function : String) {captures params : List String} (hnodup : captures.Nodup)
    (hparams : ∀ x ∈ captures, x ∉ params)
    (hroom : ∀ p ∈ (enter function captures params).2, ∀ g x, p ≠ .frameFull g x)
    (bound : List Binding) (body : Unfolding) :
    (enter function captures params).1.Agrees (.ofBody captures bound params body) [] := by
  have henter : enter function captures params =
      ((declareAll .parameter false #[] params (declareAll .captured true #[] captures { function }).1).1,
        (declareAll .captured true #[] captures { function }).2.toList.map
            (problem function .repeatedCapture) ++
          (declareAll .parameter false #[] params
            (declareAll .captured true #[] captures { function }).1).2.toList.map
              (problem function .repeatedParameter)) := rfl
  rw [henter] at hroom ⊢
  have hrefused : ∀ {g : String → Problem} {p : String × Refusal},
      (∀ h x, problem function g p ≠ .frameFull h x) → p.2 ≠ .frameFull := by
    rintro g ⟨x, refusal⟩ hp rfl
    exact hp function x rfl
  have hempty : ∀ x, (∅ : Std.HashMap String Symbol).contains x = true ↔ x ∈ ([] : List String) := by
    simp
  obtain ⟨scope, heq, hle, hlookup⟩ := declareAll_eq captures hempty (Nat.zero_le _)
    fun p hp => hrefused (hroom _ (mem_append_left _ (List.mem_map_of_mem
      (Array.mem_toList_iff.mpr hp))))
  rw [firsts_of_nodup hnodup fun _ _ => not_mem_nil, Nat.zero_add] at heq hle
  simp only [firsts_of_nodup hnodup fun _ _ => not_mem_nil, Nat.zero_add,
    Std.HashMap.getElem?_empty, none_or] at hlookup
  have hscope : ∀ x, scope.contains x = true ↔ x ∈ captures := by
    intro x
    rw [Std.HashMap.contains_eq_isSome_getElem?, hlookup, isSome_map, isSome_idxOf?]
  rw [heq] at hroom ⊢
  obtain ⟨scope', heq', hle', hlookup'⟩ := declareAll_eq params hscope hle
    fun p hp => hrefused (hroom _ (mem_append_right _ (List.mem_map_of_mem
      (Array.mem_toList_iff.mpr hp))))
  have hfirsts : firsts captures params = firsts [] params := by
    refine firsts_congr fun x hx => ?_
    simpa using fun hc => hparams x hc hx
  rw [hfirsts] at heq' hle'
  rw [heq']
  refine ⟨?_, rfl, hle', nofun⟩
  rw [map_singleton, Layer.views, Layer.ofBody, map_nil, nil_append]
  congr 1
  funext x
  rw [view, hlookup', hlookup, hfirsts, Layer.base, Layer.captured]
  by_cases hx : x ∈ captures
  · have hnone : (firsts [] params).idxOf? x = none := by
      rw [idxOf?_eq_none_iff, mem_firsts]
      exact fun h => hparams x hx h.1
    rw [hnone, map_none, map_none, or_none, none_or]
  · rw [idxOf?_eq_none_iff.mpr hx, map_none, none_or, or_none]
    rfl

theorem Agrees.opened (h : f.Agrees l done) :
    ({ f with scopes := {} :: f.scopes } : Frame).Agrees (l.opened []) done := by
  refine ⟨?_, h.next, h.room, ?_⟩
  · rw [map_cons, h.views]
    have hempty : view ∅ = fun _ => none := by
      funext x
      exact Std.HashMap.getElem?_empty
    rw [hempty]
    rfl
  · intro s hs x d hd
    rcases mem_cons.mp hs with rfl | hs
    · cases hd
    · exact h.below s hs x d hd

theorem Agrees.closed {us : List Unfolding} (h : f.Agrees (l.opened us) done) :
    ({ f with scopes := f.scopes.tail } : Frame).Agrees l done := by
  refine ⟨?_, h.next, h.room, fun s hs => h.below s (.tail _ hs)⟩
  have hviews := congrArg List.tail h.views
  rwa [← map_tail] at hviews

theorem Agrees.exists_scope (h : f.Agrees l done) (hs : l.scopes ≠ []) :
    ∃ scope outer s ss, f = ⟨f.function, scope :: outer, f.nextSlot⟩ ∧ l.scopes = s :: ss ∧
      (∀ x, scope[x]? = (s.lookup x).map l.symbol) ∧
      outer.map view = ss.map (fun s x => (s.lookup x).map l.symbol) ++ [l.base] ∧
      ∀ x, scope.contains x = true ↔ x ∈ l.seen := by
  obtain ⟨function, scopes, n⟩ := f
  have hviews := h.views
  rw [Layer.views] at hviews
  obtain ⟨s, ss, hl⟩ := exists_cons_of_ne_nil hs
  rw [hl, map_cons, cons_append] at hviews
  obtain ⟨scope, outer, rfl, hscope, houter⟩ := map_eq_cons_iff.mp hviews
  have hlookup : ∀ x, scope[x]? = (s.lookup x).map l.symbol := fun x => congrFun hscope x
  refine ⟨scope, outer, s, ss, rfl, hl, hlookup, houter, fun x => ?_⟩
  rw [Std.HashMap.contains_eq_isSome_getElem?, hlookup, isSome_map, Layer.seen, hl,
    headD_cons, isSome_lookup, contains_iff_mem]

theorem Agrees.declare_repeated (h : f.Agrees l done) (hs : l.scopes ≠ []) (hx : x ∈ l.seen)
    (kind : BindingKind) (constant : Bool) (d : Decl) :
    f.declare kind constant x = (f, .error .repeated) ∧ f.Agrees (l.extend [(x, d)]) done := by
  obtain ⟨scope, outer, s, ss, hf, hl, hscope, houter, hseen⟩ := h.exists_scope hs
  -- the first declaration of a name in a block is the one that counts
  have hsame : ∀ y, (s ++ [(x, d)]).lookup y = s.lookup y := by
    intro y
    rw [lookup_append, lookup_cons, lookup_nil]
    by_cases hy : y = x
    · have hsome : (s.lookup x).isSome = true := by
        rw [isSome_lookup, contains_iff_mem]
        rwa [Layer.seen, hl] at hx
      rw [hy, or_of_isSome hsome]
    · rw [beq_false_of_ne hy, or_none]
  refine ⟨?_, ?_, h.next, h.room, ?_⟩
  · rw [hf]
    exact declare_of_contains ((hseen x).mpr hx)
  · rw [h.views, Layer.views, Layer.views, l.scopes_extend hl, hl, map_cons, map_cons]
    simp only [hsame]
    rfl
  · intro s' hs' y e he
    rw [l.scopes_extend hl] at hs'
    rcases mem_cons.mp hs' with rfl | hs'
    · rw [hsame] at he
      exact h.below s (hl ▸ .head _) y e he
    · exact h.below s' (hl ▸ mem_cons_of_mem _ hs') y e he

theorem Agrees.declare_new (h : f.Agrees l done) (hs : l.scopes ≠ []) (hx : x ∉ l.seen) {i : ElementId}
    {rest : List ElementId} (hl : l.locals = done ++ i :: rest) (hi : i ∉ done) (constant : Bool) :
    (f.declare .local constant x).2 = .error .frameFull ∨
      ∃ f', f.declare .local constant x = (f', .ok (l.symbol (.local i constant)).binding) ∧
        f'.Agrees (l.extend [(x, .local i constant)]) (done ++ [i]) := by
  obtain ⟨scope, outer, s, ss, hf, hscopes, hscope, houter, hseen⟩ := h.exists_scope hs
  have hcontains : scope.contains x = false := by
    rw [← Bool.not_eq_true, hseen]
    exact hx
  rcases Nat.lt_or_ge f.nextSlot frameLimit with hlt | hge
  · right
    have hslot : l.slot (.local i constant) = f.nextSlot := by
      rw [Layer.slot, hl, idxOf_append_of_notMem hi, idxOf_cons_self, h.next, Nat.add_zero]
    have hbinding : (l.symbol (.local i constant)).binding = ⟨f.nextSlot.toUInt16, .local⟩ := by
      rw [Layer.symbol, hslot]
      rfl
    have hlookup : ∀ y, (s ++ [(x, Decl.local i constant)]).lookup y =
        if y = x then some (.local i constant) else s.lookup y := by
      intro y
      rw [lookup_append, lookup_cons, lookup_nil]
      by_cases hy : y = x
      · have hnone : s.lookup x = none := by
          rw [← not_isSome_iff_eq_none, isSome_lookup, contains_iff_mem]
          rwa [Layer.seen, hscopes] at hx
        rw [hy, hnone, if_pos rfl, beq_self_eq_true]
        rfl
      · rw [beq_false_of_ne hy, if_neg hy, or_none]
    refine ⟨⟨f.function, scope.insert x (l.symbol (.local i constant)) :: outer, f.nextSlot + 1⟩, ?_, ?_⟩
    · rw [hf, declare_of_lt hcontains hlt, hbinding, Layer.symbol, hslot]
      rfl
    · refine ⟨?_, ?_, hlt, ?_⟩
      · rw [map_cons, houter, Layer.views, l.scopes_extend hscopes, map_cons, cons_append]
        congr 1
        funext y
        rw [view, hlookup, Std.HashMap.getElem?_insert]
        by_cases hy : y = x
        · rw [hy, if_pos rfl, if_pos (beq_self_eq_true x)]
          rfl
        · rw [if_neg hy, beq_false_of_ne (Ne.symm hy), if_neg Bool.false_ne_true, hscope]
          rfl
      · rw [h.next, length_append, length_singleton, Nat.add_assoc]
        rfl
      · intro s' hs' y e he
        rw [l.scopes_extend hscopes] at hs'
        rcases mem_cons.mp hs' with rfl | hs'
        · rw [hlookup] at he
          split_ifs at he
          · cases he
            exact Nat.lt_succ_of_le (Nat.le_of_eq hslot)
          · exact Nat.lt_succ_of_lt (h.below s (hscopes ▸ .head _) y e he)
        · exact Nat.lt_succ_of_lt (h.below s' (hscopes ▸ mem_cons_of_mem _ hs') y e he)
  · left
    rw [hf, declare_of_full hcontains hge]

end Frame

end Clausal
