import Clausal.Proofs.Tree.Splices
import Clausal.Tree.Substitution

/-! # Substituting for constants

A walk that puts new constants in the place of some it meets reads the children of an element again before each
step, and yet meets every constant there was once and none of its own (`substitute_swaps`).  What a part of the
walk leaves of a tree is `Substituted`: every element there was holds, in the place of a child that was exchanged,
the constant that it was exchanged for. -/

namespace Clausal

open List Unfolding

open Option hiding map_map map_id'

/-! ### Kinds with other children -/

namespace Kind

def mapChildren (f : ElementId → ElementId) : Kind → Kind
  | module name functions => module name (functions.map f)
  | function name params body isClosure captures => function name params (f body) isClosure captures
  | block statements => block (statements.map f)
  | caseOf clauses otherwise => caseOf (clauses.map f) (f otherwise)
  | whenClause condition action arm => whenClause (f condition) (f action) arm
  | conditional condition thenBlock elseBranch => conditional (f condition) (f thenBlock) (elseBranch.map f)
  | loop condition body => loop (f condition) (f body)
  | assignment name declaration value binding initializer =>
    assignment name declaration (f value) binding initializer
  | returns value => returns (value.map f)
  | binary operator left right => binary operator (f left) (f right)
  | unary operator operand => unary operator (f operand)
  | invocation name arguments target => invocation name (arguments.map f) target
  | closure lifted captured => closure (f lifted) captured
  | matchOf clauses otherwise => matchOf (clauses.map f) (f otherwise)
  | constant value => constant value
  | reference name binding => reference name binding

variable {f g : ElementId → ElementId} {k : Kind} {i : Nat} {role : Role} {old new : ElementId} {v : Value}

theorem slots_mapChildren (f : ElementId → ElementId) (k : Kind) :
    (k.mapChildren f).slots = k.slots.map fun s => (s.1, f s.2) := by
  cases k with
  | conditional condition thenBlock elseBranch => cases elseBranch <;> rfl
  | returns value => cases value <;> rfl
  | _ => simp [mapChildren, slots]

theorem payload_mapChildren (f : ElementId → ElementId) (k : Kind) : (k.mapChildren f).payload = k.payload := by
  cases k <;> simp [mapChildren, payload, Function.comp_def]

theorem children_mapChildren (f : ElementId → ElementId) (k : Kind) :
    (k.mapChildren f).children = k.children.map f := by
  rw [children, slots_mapChildren, children, map_map, map_map]
  rfl

theorem mapChildren_eq_self (h : ∀ c ∈ k.children, f c = c) : k.mapChildren f = k := by
  refine eq_of_payload_eq ?_ (payload_mapChildren f k)
  have hslot : ∀ s ∈ k.slots, (s.1, f s.2) = s := fun s hs =>
    Prod.ext rfl (h s.2 (mem_map_of_mem hs))
  rw [slots_mapChildren, map_congr_left hslot, map_id']

theorem mapChildren_mapChildren (f g : ElementId → ElementId) (k : Kind) :
    (k.mapChildren f).mapChildren g = k.mapChildren (g ∘ f) := by
  cases k <;> simp [mapChildren]

theorem eq_constant_of_mapChildren (h : k.mapChildren f = .constant v) : k = .constant v := by
  cases k <;> cases h
  rfl

/-- Writing a position is exchanging the child that stands there. -/
theorem setSlot_eq_mapChildren (hk : k.children.Nodup) (hs : k.slots[i]? = some (role, old)) :
    k.setSlot i new = k.mapChildren fun c => if c = old then new else c := by
  refine eq_of_payload_eq ?_ (by rw [payload_setSlot, payload_mapChildren])
  rw [slots_setSlot_eq_set hs, slots_mapChildren]
  obtain ⟨hlt, -⟩ := List.getElem?_eq_some_iff.mp hs
  apply ext_getElem?
  intro m
  rw [getElem?_set, getElem?_map]
  by_cases hm : i = m
  · subst hm
    rw [if_pos rfl, if_pos hlt, hs, map_some, if_pos rfl]
  · rw [if_neg hm]
    cases hc : k.slots[m]? with
    | none => rfl
    | some s =>
      have hne : s.2 ≠ old := by
        intro heq
        have hat (n : Nat) : k.children[n]? = k.slots[n]?.map Prod.snd := getElem?_map ..
        refine hm ((getElem?_inj (by rwa [children, length_map]) hk).mp ?_)
        rw [hat, hat, hs, hc, map_some, map_some, heq]
      rw [map_some, if_neg hne]

end Kind

/-! ### What a walk meets and exchanges -/

/-- The constants of an unfolding in pre-order, with their values. -/
def Unfolding.constants (u : Unfolding) : List (ElementId × Value) :=
  u.preorder.filterMap fun
    | (i, .constant v) => some (i, v)
    | _ => none

/-- The new value of a constant, if one is picked and somebody holds the constant. -/
def Tree.held (t : Tree) (pick : ElementId → Value → Option Value) (i : ElementId) (v : Value) : Option Value :=
  (t.parent i).bind fun _ => pick i v

/-- The constants that are exchanged. -/
def Tree.exchanged (t : Tree) (pick : ElementId → Value → Option Value) (u : Unfolding) : List ElementId :=
  (u.constants.filter fun c => (t.held pick c.1 c.2).isSome).map Prod.fst

/-- The second unfolding is the first with new constants, numbered from `n` on, in the places of those that a new
value is picked for. -/
inductive Unfolding.Swapped (pick : ElementId → Value → Option Value) (n : Nat) : Unfolding → Unfolding → Prop
  | exchanged {i v v' o j} : pick i v = some v' → n ≤ j →
      Swapped pick n (.node i (.constant v) o []) (.node j (.constant v') .synthetic [])
  | kept {i v o} : pick i v = none → Swapped pick n (.node i (.constant v) o []) (.node i (.constant v) o [])
  | node {i k k' o us us'} : (∀ v, k ≠ .constant v) → k'.payload = k.payload → Forall₂ (Swapped pick n) us us' →
      Swapped pick n (.node i k o us) (.node i k' o us')

/-- Constants `xs` have been exchanged, each for a new one under the id that `f` gives. -/
structure Tree.Substituted (pick : ElementId → Value → Option Value) (t t' : Tree) (xs : List ElementId)
    (f : ElementId → ElementId) : Prop where
  owned : t'.Owned
  root : t'.root = t.root
  size : t.size ≤ t'.size
  face? : ∀ x < t.size, t'.face? x = (t.face? x).map fun g => (g.1.mapChildren f, g.2)
  parent : ∀ x < t.size, t'.parent x = if x ∈ xs then none else t.parent x
  fixed : ∀ x, x ∉ xs → f x = x
  fresh : ∀ x ∈ xs, ∃ v v', t.kind? x = some (.constant v) ∧ pick x v = some v' ∧ t.size ≤ f x ∧
    t'.face? (f x) = some (.constant v', .synthetic)

variable {pick : ElementId → Value → Option Value} {t t1 t2 : Tree} {u : Unfolding} {us : List Unfolding}
  {xs ys : List ElementId} {f g : ElementId → ElementId} {x : ElementId}

namespace Unfolding

theorem constants_node (i : ElementId) (k : Kind) (o : Origin) (us : List Unfolding) :
    (node i k o us).constants = (match k with | .constant v => [(i, v)] | _ => []) ++ us.flatMap constants := by
  unfold constants preorder
  rw [preorderUntil_node, if_neg Bool.false_ne_true, filterMap_cons, filterMap_flatMap]
  cases k <;> rfl

theorem mem_ids_of_mem_constants {c : ElementId × Value} (h : c ∈ u.constants) : c.1 ∈ u.ids := by
  obtain ⟨⟨i, k⟩, hmem, heq⟩ := mem_filterMap.mp h
  cases k <;> cases heq
  exact mem_map_of_mem hmem

theorem map_fst_constants_sublist (u : Unfolding) : (u.constants.map Prod.fst).Sublist u.ids := by
  unfold constants ids
  induction u.preorder with
  | nil => exact .slnil
  | cons p ps ih =>
    obtain ⟨i, k⟩ := p
    cases k with
    | constant v => exact ih.cons_cons i
    | _ => exact ih.cons i

end Unfolding

namespace Tree

theorem mem_exchanged_iff : x ∈ t.exchanged pick u ↔ ∃ v, (x, v) ∈ u.constants ∧ (t.held pick x v).isSome := by
  simp [exchanged]

theorem mem_ids_of_mem_exchanged (h : x ∈ t.exchanged pick u) : x ∈ u.ids := by
  obtain ⟨v, hv, -⟩ := mem_exchanged_iff.mp h
  exact mem_ids_of_mem_constants hv

namespace Substituted

theorem refl (h : t.Owned) : Substituted pick t t [] id := by
  refine ⟨h, rfl, le_rfl, fun x _ => ?_, fun x _ => (if_neg not_mem_nil).symm, fun _ _ => rfl, nofun⟩
  cases t.face? x with
  | none => rfl
  | some g => rw [map_some, Kind.mapChildren_eq_self (f := id) fun _ _ => rfl]

theorem trans (h : Substituted pick t t1 xs f) (h' : Substituted pick t1 t2 ys g) (hys : ∀ y ∈ ys, y < t.size)
    (hd : xs.Disjoint ys) : Substituted pick t t2 (xs ++ ys) (g ∘ f) := by
  have hlt : ∀ {x}, x < t.size → x < t1.size := fun hx => Nat.lt_of_lt_of_le hx h.size
  refine ⟨h'.owned, h'.root.trans h.root, h.size.trans h'.size, fun x hx => ?_, fun x hx => ?_, fun x hx => ?_,
    fun x hx => ?_⟩
  · rw [h'.face? x (hlt hx), h.face? x hx, Option.map_map]
    simp only [Function.comp_def, Kind.mapChildren_mapChildren]
  · rw [h'.parent x (hlt hx), h.parent x hx, ← ite_or]
    exact if_congr (by rw [mem_append, or_comm]) rfl rfl
  · rw [mem_append, not_or] at hx
    rw [Function.comp_apply, h.fixed x hx.1, h'.fixed x hx.2]
  · rw [Function.comp_apply]
    rcases mem_append.mp hx with hx | hx
    · obtain ⟨v, v', hk, hpick, hle, hface⟩ := h.fresh x hx
      have hfix : g (f x) = f x := h'.fixed _ fun hy => Nat.not_lt.mpr hle (hys _ hy)
      refine ⟨v, v', hk, hpick, hfix.symm ▸ hle, ?_⟩
      rw [hfix, h'.face? _ (lt_size_of_face? hface), hface]
      rfl
    · obtain ⟨v, v', hk, hpick, hle, hface⟩ := h'.fresh x hx
      have hfix : f x = x := h.fixed x fun hx' => hd hx' hx
      refine ⟨v, v', ?_, hpick, hfix.symm ▸ h.size.trans hle, hfix.symm ▸ hface⟩
      -- the constant was there before, with the same value
      obtain ⟨e, he, hkind⟩ := map_eq_some_iff.mp hk
      have hface' := h.face? x (hys x hx)
      rw [face?_of_element? he] at hface'
      obtain ⟨⟨k, o⟩, hf, heq⟩ := map_eq_some_iff.mp hface'.symm
      have hconstant : k.mapChildren f = .constant v := (Prod.mk.inj heq).1.trans hkind
      rw [kind?_of_face? hf, Kind.eq_constant_of_mapChildren hconstant]

theorem children (h : Substituted pick t t1 xs f) (hx : x < t.size) : t1.children x = (t.children x).map f := by
  have hsome : t.element? x ≠ none := fun hnone => Nat.not_lt.mpr (element?_eq_none_iff.mp hnone) hx
  obtain ⟨e, he⟩ := ne_none_iff_exists'.mp hsome
  have hface := h.face? x hx
  rw [face?_of_element? he, map_some] at hface
  rw [children_of_kind? (kind?_of_face? hface), children_of_kind? (kind?_of_element? he), Kind.children_mapChildren]

theorem shows (h : Substituted pick t t1 xs f) (hu : t.Shows u) (hout : ∀ x ∈ u.ids, x ∉ xs) : t1.Shows u := by
  induction hu with
  | @node i k o us hface hchildren hbelow ih =>
    rw [ids_node] at hout
    have hself : k.mapChildren f = k := by
      refine Kind.mapChildren_eq_self fun c hc => h.fixed c (hout c (.tail _ ?_))
      rw [← hchildren] at hc
      obtain ⟨u, hu, rfl⟩ := mem_map.mp hc
      exact mem_flatMap.mpr ⟨u, hu, u.id_mem_ids⟩
    refine .node ?_ hchildren fun u hu => ih u hu fun x hx => hout x (.tail _ (mem_flatMap.mpr ⟨u, hu, hx⟩))
    rw [h.face? i (lt_size_of_face? hface), hface, map_some, hself]

/-- One constant is exchanged for a new one. -/
theorem one (h : t.Owned) {k : Kind} {o o' : Origin} {owner : ElementId} {i : Nat} {role : Role} {v v' : Value}
    (hf : t.face? owner = some (k, o)) (hs : k.slots[i]? = some (role, x))
    (hx : t.face? x = some (.constant v, o')) (hpick : pick x v = some v') :
    t.Adoptable (Kind.constant v').slots ∧
      (t.adopt (.constant v') .synthetic).Exchangeable owner x t.size i ∧
      Substituted pick t ((t.adopt (.constant v') .synthetic).splice owner x t.size i) [x]
        fun c => if c = x then t.size else c := by
  have hk := kind?_of_face? hf
  have hxsize := lt_size_of_face? hx
  have hmem : x ∈ k.children := mem_map.mpr ⟨(role, x), mem_of_getElem? hs, rfl⟩
  have haccepts : role.accepts (.constant v') = true := by
    obtain ⟨k', hk', ha⟩ := h.fits owner k _ hk (mem_of_getElem? hs)
    cases (kind?_of_face? hx).symm.trans hk'
    -- a role looks at no value
    cases role <;> exact ha
  obtain ⟨hadopt, hex⟩ := h.exchangeable_adopt hf hs rfl haccepts .synthetic
  have hnodup : k.children.Nodup := by
    have hnodup := h.nodup_children owner
    rwa [children_of_kind? hk] at hnodup
  have hne : ∀ {y}, y < t.size → y ≠ t.size := fun hy => Nat.ne_of_lt hy
  have hface : (t.adopt (.constant v') .synthetic).face? owner = some (k, o) := by
    rw [face?_adopt, if_neg (hne (lt_size_of_face? hf)), hf]
  refine ⟨hadopt, hex, (h.adopt hadopt _).splice hex, by rw [root_splice, root_adopt], ?_, fun y hy => ?_,
    fun y hy => ?_, fun y hy => ?_, fun y hy => ?_⟩
  · rw [size_splice, size_adopt]
    exact Nat.le_succ _
  · rw [face?_splice hface, face?_adopt, if_neg (hne hy)]
    split_ifs with hy'
    · rw [hy', hf, Kind.setSlot_eq_mapChildren hnodup hs]
      rfl
    · cases hfy : t.face? y with
      | none => rfl
      | some g =>
        -- nobody but the owner holds the constant
        rw [map_some, Kind.mapChildren_eq_self]
        intro c hc
        refine if_neg ?_
        rintro rfl
        have hp := h.parent_of_kind? (kind?_of_face? (o := g.2) hfy) hc
        exact hy' (some.inj (hp.symm.trans (h.parent_of_kind? hk hmem)))
  · rw [parent_splice (by rw [size_adopt]; exact Nat.lt_succ_of_lt hxsize) (by rw [size_adopt]; exact Nat.lt_succ_self _),
      if_neg (hne hy), parent_adopt hadopt]
    exact if_congr mem_singleton.symm rfl (if_neg not_mem_nil)
  · exact if_neg (by simpa using hy)
  · obtain rfl := mem_singleton.mp hy
    refine ⟨v, v', kind?_of_face? hx, hpick, by rw [if_pos rfl], ?_⟩
    rw [if_pos rfl, face?_splice hface, if_neg (hne (lt_size_of_face? hf)).symm, face?_adopt, if_pos rfl]

theorem exists_swapped (h : Substituted pick t t1 xs f) (hu : t.Shows u)
    (hxs : ∀ c ∈ u.constants, c.1 ∈ xs ↔ (t.held pick c.1 c.2).isSome) :
    ∃ u', t1.Shows u' ∧ u'.id = f u.id ∧ u.Swapped (t.held pick) t.size u' := by
  induction hu with
  | @node i k o us hface hchildren _ ih =>
    have hface1 := h.face? i (lt_size_of_face? hface)
    rw [hface, map_some] at hface1
    by_cases hk : ∃ v, k = .constant v
    · obtain ⟨v, rfl⟩ := hk
      obtain rfl : us = [] := map_eq_nil_iff.mp hchildren
      have hi := hxs (i, v) (by rw [constants_node]; exact .head _)
      by_cases hmem : i ∈ xs
      · obtain ⟨v0, v', hkind, hpick, hle, hfresh⟩ := h.fresh i hmem
        cases (kind?_of_face? hface).symm.trans hkind
        obtain ⟨v'', hheld⟩ := isSome_iff_exists.mp (hi.mp hmem)
        obtain ⟨-, -, hpick'⟩ := bind_eq_some_iff.mp hheld
        cases hpick.symm.trans hpick'
        exact ⟨.node (f i) (.constant v') .synthetic [], .node hfresh rfl nofun, rfl, .exchanged hheld hle⟩
      · have hnone := not_isSome_iff_eq_none.mp fun hsome => hmem (hi.mpr hsome)
        exact ⟨.node i (.constant v) o [], .node hface1 rfl nofun, (h.fixed i hmem).symm, .kept hnone⟩
    · have hi : i ∉ xs := by
        intro hmem
        obtain ⟨v, -, hkind, -⟩ := h.fresh i hmem
        exact hk ⟨v, some.inj ((kind?_of_face? hface).symm.trans hkind)⟩
      have hbelow : ∀ u ∈ us, ∀ c ∈ u.constants, c ∈ (node i k o us).constants := fun u hu c hc => by
        rw [constants_node]
        exact mem_append_right _ (mem_flatMap.mpr ⟨u, hu, hc⟩)
      obtain ⟨us', hids, hshows, hswapped⟩ := exists_shows_map (f := fun u => f u.id) fun u hu =>
        ih u hu fun c hc => hxs c (hbelow u hu c hc)
      refine ⟨.node i (k.mapChildren f) o us', .node hface1 ?_ hshows, (h.fixed i hi).symm,
        .node (fun v hv => hk ⟨v, hv⟩) (Kind.payload_mapChildren f k) hswapped⟩
      rw [hids, Kind.children_mapChildren, ← hchildren, map_map]
      rfl

end Substituted

end Tree

/-! ### The walk -/

namespace Substitute

variable {choose : ElementId → Value → Option Kind} {r r' : Substitution} {i : ElementId}

theorem bind_apply_ok {α β : Type} {x : Substitute α} {a : α} (h : x r = some (.ok a, r')) (f : α → Substitute β) :
    (x >>= f) r = f a r' := by
  change (x r).bind _ = _
  rw [h]
  rfl

theorem constant_apply (choose : ElementId → Value → Option Kind) (i : ElementId) (v : Value) (r : Substitution) :
    constant choose i v r = match r.bench.tree.parent i, choose i v with
      | some owner, some kind =>
        edit (do Edit.replace owner i (← Edit.alloc kind .synthetic)) { r with visited := r.visited.push i }
      | _, _ => some (.ok (), { r with visited := r.visited.push i }) := by
  have heq : constant choose i v r = (match r.bench.tree.parent i, choose i v with
      | some owner, some kind => edit (do Edit.replace owner i (← Edit.alloc kind .synthetic))
      | _, _ => pure () : Substitute Unit) { r with visited := r.visited.push i } := rfl
  rw [heq]
  cases r.bench.tree.parent i <;> cases choose i v <;> rfl

theorem walk_succ (choose : ElementId → Value → Option Kind) (fuel : Nat) {e : Element}
    (he : r.bench.tree.element? i = some e) :
    (∀ v, e.kind = .constant v → walk choose (fuel + 1) i r = constant choose i v r) ∧
    ((¬ ∃ v, e.kind = .constant v) → walk choose (fuel + 1) i r = walkFrom choose fuel i 0 r) := by
  have hget : edit (Edit.element i) r = some (.ok e, r) := by
    rw [edit, Edit.element_apply, Tree.get_eq_ok_iff.mpr he]
  rw [walk, bind_apply_ok hget]
  obtain ⟨kind, parent, origin⟩ := e
  cases kind <;> simp

theorem walkFrom_succ (choose : ElementId → Value → Option Kind) (fuel n : Nat) :
    walkFrom choose (fuel + 1) i n r = (match (r.bench.tree.children i)[n]? with
      | some child => do
        walk choose fuel child
        walkFrom choose fuel i (n + 1)
      | none => return : Substitute Unit) r := by
  rw [walkFrom]
  rfl

/-- What a walk over some unfoldings does: it meets their constants in order, and exchanges those that it should. -/
structure Walked (pick : ElementId → Value → Option Value) (us : List Unfolding) (r r' : Substitution)
    (f : ElementId → ElementId) : Prop where
  visited : r'.visited.toList = r.visited.toList ++ us.flatMap fun u => u.constants.map Prod.fst
  tree : Tree.Substituted pick r.bench.tree r'.bench.tree (us.flatMap (r.bench.tree.exchanged pick)) f

/-- A walk over an element ends, having met its constants and exchanged those that are picked; it takes two units
of fuel for each element, and more makes no difference. -/
def Walks (pick : ElementId → Value → Option Value) (u : Unfolding) : Prop :=
  ∀ r, r.bench.tree.Owned → r.bench.tree.Shows u →
    ∃ r' f, (∀ fuel, 2 * u.ids.length ≤ fuel → walk (fun i v => (pick i v).map .constant) fuel u.id r = some (.ok (), r')) ∧
      Walked pick [u] r r' f

theorem walked_constant (h : r.bench.tree.Owned) {o : Origin} {v : Value}
    (hface : r.bench.tree.face? i = some (.constant v, o)) :
    ∃ r' f, constant (fun i v => (pick i v).map .constant) i v r = some (.ok (), r') ∧
      Walked pick [.node i (.constant v) o []] r r' f := by
  have hconstants : (node i (.constant v) o []).constants = [(i, v)] := constants_node ..
  have hvisited : (r.visited.push i).toList = r.visited.toList ++
      [node i (.constant v) o []].flatMap fun u => u.constants.map Prod.fst := by
    simp [hconstants]
  rw [constant_apply]
  -- nothing is done if no one holds the constant or no value is picked
  have hnothing (hnone : r.bench.tree.held pick i v = none) :
      Walked pick [.node i (.constant v) o []] r { r with visited := r.visited.push i } id := by
    refine ⟨hvisited, ?_⟩
    have hexchanged : [node i (.constant v) o []].flatMap (r.bench.tree.exchanged pick) = [] := by
      simp [Tree.exchanged, hconstants, hnone]
    rw [hexchanged]
    exact .refl h
  cases hp : r.bench.tree.parent i with
  | none => exact ⟨_, id, rfl, hnothing (by rw [Tree.held, hp]; rfl)⟩
  | some owner =>
    cases hpick : pick i v with
    | none => exact ⟨_, id, rfl, hnothing (by rw [Tree.held, hp]; exact hpick)⟩
    | some v' =>
      obtain ⟨k, hk, hmem⟩ := h.mem_children_of_parent hp
      obtain ⟨role, hslot⟩ := Kind.exists_slot_of_mem_children hmem
      obtain ⟨n, hn⟩ := mem_iff_getElem?.mp hslot
      obtain ⟨e, he, rfl⟩ := map_eq_some_iff.mp hk
      obtain ⟨hadopt, hex, hone⟩ := Tree.Substituted.one h (Tree.face?_of_element? he) hn hface hpick
      obtain ⟨event, hreplace⟩ := Edit.replace_eq
        (w := { r.bench with tree := r.bench.tree.adopt (.constant v') .synthetic }) (h.adopt hadopt _) hex
      have hrun : (do Edit.replace owner i (← Edit.alloc (.constant v') .synthetic) : Edit Unit) r.bench =
          .ok () ⟨(r.bench.tree.adopt (.constant v') .synthetic).splice owner i r.bench.tree.size n,
            r.bench.journal.push event⟩ := by
        rw [bind_apply, Edit.alloc_eq hadopt]
        exact hreplace
      refine ⟨⟨⟨(r.bench.tree.adopt (.constant v') .synthetic).splice owner i r.bench.tree.size n,
        r.bench.journal.push event⟩, r.visited.push i⟩, fun c => if c = i then r.bench.tree.size else c, ?_, hvisited,
        ?_⟩
      · simp only [map_some, edit, hrun]
      · have hexchanged : [node i (.constant v) o []].flatMap (r.bench.tree.exchanged pick) = [i] := by
          simp [Tree.exchanged, hconstants, Tree.held, hp, hpick]
        rw [hexchanged]
        exact hone

theorem notMem_exchanged_of_disjoint {rest : List Unfolding} (hd : u.ids.Disjoint (rest.flatMap ids))
    {v : Unfolding} (hv : v ∈ rest) (hx : x ∈ v.ids) : x ∉ [u].flatMap (t.exchanged pick) := by
  rw [flatMap_singleton]
  exact fun hmem => hd (Tree.mem_ids_of_mem_exchanged hmem) (mem_flatMap.mpr ⟨v, hv, hx⟩)

theorem Walked.cons {rest : List Unfolding} {r1 r2 : Substitution} (h : Walked pick [u] r r1 f)
    (h' : Walked pick rest r1 r2 g) (hrest : ∀ v ∈ rest, r.bench.tree.Shows v)
    (hd : u.ids.Disjoint (rest.flatMap ids)) : Walked pick (u :: rest) r r2 (g ∘ f) := by
  -- what is still to be met is held as before
  have hsame : rest.flatMap (r1.bench.tree.exchanged pick) = rest.flatMap (r.bench.tree.exchanged pick) := by
    refine flatMap_congr fun v hv => congrArg (map Prod.fst) (filter_congr fun c hc => ?_)
    have hid := mem_ids_of_mem_constants hc
    rw [Tree.held, h.tree.parent c.1 ((hrest v hv).ids_lt_size _ hid),
      if_neg (notMem_exchanged_of_disjoint hd hv hid), Tree.held]
  have htree := h'.tree
  rw [hsame] at htree
  refine ⟨?_, ?_⟩
  · rw [h'.visited, h.visited, flatMap_singleton, flatMap_cons, append_assoc]
  · have hall := h.tree.trans htree ?_ ?_
    · rwa [flatMap_singleton] at hall
    · intro y hy
      obtain ⟨v, hv, hy⟩ := mem_flatMap.mp hy
      exact (hrest v hv).ids_lt_size _ (Tree.mem_ids_of_mem_exchanged hy)
    · intro y hy hy'
      obtain ⟨v, hv, hy'⟩ := mem_flatMap.mp hy'
      exact notMem_exchanged_of_disjoint hd hv (Tree.mem_ids_of_mem_exchanged hy') hy

/-- The children that a walk comes to are those there were, since it has exchanged only children before them. -/
theorem walked_rest {rest : List Unfolding} (hwalk : ∀ u ∈ rest, Walks pick u) (n : Nat)
    (h : r.bench.tree.Owned) (hi : i < r.bench.tree.size)
    (hchildren : (r.bench.tree.children i).drop n = rest.map Unfolding.id)
    (hshows : ∀ u ∈ rest, r.bench.tree.Shows u) (hnodup : (rest.flatMap ids).Nodup) :
    ∃ r' f, (∀ fuel, 2 * (rest.flatMap ids).length < fuel →
      walkFrom (fun i v => (pick i v).map .constant) fuel i n r = some (.ok (), r')) ∧ Walked pick rest r r' f := by
  induction rest generalizing n r with
  | nil =>
    have hnone : (r.bench.tree.children i)[n]? = none := getElem?_eq_none_iff.mpr (drop_eq_nil_iff.mp hchildren)
    refine ⟨r, id, fun fuel hfuel => ?_, ⟨(append_nil _).symm, .refl h⟩⟩
    obtain ⟨fuel, rfl⟩ := Nat.exists_eq_add_one_of_ne_zero (Nat.ne_zero_of_lt hfuel)
    rw [walkFrom_succ, hnone]
    rfl
  | cons u rest ih =>
    obtain ⟨hu, hrest⟩ := forall_mem_cons.mp hshows
    rw [flatMap_cons, nodup_append'] at hnodup
    have hat : (r.bench.tree.children i)[n]? = some u.id := by
      rw [← head?_drop, hchildren]
      rfl
    obtain ⟨r1, f, hrun, hwalked⟩ := hwalk u (.head _) r h hu
    have hout : ∀ v ∈ rest, ∀ x ∈ v.ids, x ∉ [u].flatMap (r.bench.tree.exchanged pick) := fun v hv x hx =>
      notMem_exchanged_of_disjoint hnodup.2.2 hv hx
    have hnext : (r1.bench.tree.children i).drop (n + 1) = rest.map Unfolding.id := by
      rw [hwalked.tree.children hi, ← map_drop, ← tail_drop, hchildren, map_cons, tail_cons, map_map]
      exact map_congr_left fun v hv => hwalked.tree.fixed _ (hout v hv _ v.id_mem_ids)
    obtain ⟨r2, g, hruns, hwalkeds⟩ := ih (fun v hv => hwalk v (.tail _ hv)) (n + 1) hwalked.tree.owned
      (Nat.lt_of_lt_of_le hi hwalked.tree.size) hnext (fun v hv => hwalked.tree.shows (hrest v hv) (hout v hv))
      hnodup.2.1
    refine ⟨r2, g ∘ f, fun fuel hfuel => ?_, hwalked.cons hwalkeds hrest hnodup.2.2⟩
    obtain ⟨fuel, rfl⟩ := Nat.exists_eq_add_one_of_ne_zero (Nat.ne_zero_of_lt hfuel)
    have hpos : 0 < u.ids.length := length_pos_of_mem u.id_mem_ids
    rw [flatMap_cons, length_append] at hfuel
    rw [walkFrom_succ, hat]
    exact (bind_apply_ok (hrun fuel (by omega)) _).trans (hruns fuel (by omega))

theorem walks (pick : ElementId → Value → Option Value) (u : Unfolding) : Walks pick u := by
  induction u using inductOn with
  | node i k o us ih =>
    intro r h hu
    have hnodup := hu.nodup_ids h
    rw [ids_node, nodup_cons] at hnodup
    have hface : r.bench.tree.face? i = some (k, o) := hu.face?
    obtain ⟨e, he, heq⟩ := map_eq_some_iff.mp hface
    cases heq
    have hsucc {k : Kind} (fuel : Nat) (hfuel : 2 * (node i k e.origin us).ids.length ≤ fuel) :
        ∃ left, fuel = left + 1 ∧ 2 * (us.flatMap ids).length < left := by
      rw [ids_node, length_cons] at hfuel
      exact ⟨fuel - 1, by omega, by omega⟩
    have hchildren : us.map Unfolding.id = e.kind.children := hu.children
    by_cases hk : ∃ v, e.kind = .constant v
    · obtain ⟨v, hv⟩ := hk
      rw [hv] at hchildren hface ⊢
      obtain rfl : us = [] := map_eq_nil_iff.mp hchildren
      obtain ⟨r', f, hrun, hwalked⟩ := walked_constant h hface
      refine ⟨r', f, fun fuel hfuel => ?_, hwalked⟩
      obtain ⟨left, rfl, -⟩ := hsucc fuel hfuel
      exact ((walk_succ _ left he).1 v hv).trans hrun
    · have hconstants : (node i e.kind e.origin us).constants = us.flatMap constants := by
        rw [constants_node]
        split
        · exact absurd ⟨_, ‹_›⟩ hk
        · rfl
      obtain ⟨r', f, hrun, hwalked⟩ := walked_rest ih 0 h (Tree.lt_size_of_face? hface)
        (by rw [drop_zero, Tree.children_of_kind? (Tree.kind?_of_face? hface), hchildren]) hu.child hnodup.2
      refine ⟨r', f, fun fuel hfuel => ?_, ?_, ?_⟩
      · obtain ⟨left, rfl, hleft⟩ := hsucc fuel hfuel
        exact ((walk_succ _ left he).2 hk).trans (hrun left hleft)
      · rw [hwalked.visited, flatMap_singleton, hconstants, map_flatMap]
      · have htree := hwalked.tree
        rwa [flatMap_singleton, Tree.exchanged, hconstants, filter_flatMap, map_flatMap]

end Substitute

namespace Tree

/-- What a walk over an element leaves: it has met the constants there were, each once, and in the place of the
element stands one with new constants in the places of those that were picked. -/
structure Swept (pick : ElementId → Value → Option Value) (t : Tree) (u u' : Unfolding) (r : Substitution) :
    Prop where
  visited : r.visited.toList = u.constants.map Prod.fst
  once : r.visited.toList.Nodup
  owned : r.bench.tree.Owned
  root : r.bench.tree.root = t.root
  unfold : r.bench.tree.unfold u'.id = some u'
  swapped : u.Swapped (t.held pick) t.size u'
  place : ∀ owner, t.parent u.id = some owner →
    r.bench.tree.children owner = (t.children owner).map fun c => if c = u.id then u'.id else c
  released : ∀ c ∈ u.constants, (t.held pick c.1 c.2).isSome → r.bench.tree.parent c.1 = none
  outside : ∀ x < t.size, x ∉ u.ids → t.parent u.id ≠ some x → r.bench.tree.face? x = t.face? x

theorem Shows.parent_mem_ids (hu : t.Shows u) (h : t.Owned) {c p : ElementId} (hc : c ∈ u.ids) (hne : c ≠ u.id)
    (hp : t.parent c = some p) : p ∈ u.ids := by
  rcases Relation.ReflTransGen.cases_head (hu.mem_ids h hc) with heq | ⟨q, hq, hrest⟩
  · exact absurd heq hne
  · cases hp.symm.trans hq
    rcases Relation.reflTransGen_iff_eq_or_transGen.mp hrest with heq | hbelow
    · exact heq ▸ u.id_mem_ids
    · exact hu.mem_ids_of_below h hbelow

theorem Substituted.swept (h : t.Owned) (hu : t.Shows u) {r : Substitution}
    (hvisited : r.visited.toList = u.constants.map Prod.fst)
    (htree : Substituted pick t r.bench.tree (t.exchanged pick u) f) : ∃ u', Swept pick t u u' r := by
  have hnodup := hu.nodup_ids h
  -- the values of constants are those that the tree has
  have hxs : ∀ c ∈ u.constants, c.1 ∈ t.exchanged pick u ↔ (t.held pick c.1 c.2).isSome := by
    intro c hc
    refine ⟨fun hmem => ?_, fun hsome => mem_exchanged_iff.mpr ⟨c.2, hc, hsome⟩⟩
    obtain ⟨v, hv, hsome⟩ := mem_exchanged_iff.mp hmem
    have heq : c = (c.1, v) :=
      inj_on_of_nodup_map (u.map_fst_constants_sublist.nodup hnodup) hc hv rfl
    rwa [heq]
  obtain ⟨u', hshows, hid, hswapped⟩ := htree.exists_swapped hu hxs
  -- an element outside holds nothing of the unfolding but its top
  have hsibling : ∀ {x c}, t.parent c = some x → x ∉ u.ids → c ≠ u.id → f c = c := fun hp hx hne =>
    htree.fixed _ fun hmem => hx (hu.parent_mem_ids h (mem_ids_of_mem_exchanged hmem) hne hp)
  refine ⟨u', hvisited, ?_, htree.owned, htree.root, htree.owned.unfold_eq_some_iff.mpr ⟨hshows, rfl⟩, hswapped,
    fun owner howner => ?_, fun c hc hsome => ?_, fun x hx hout hnot => ?_⟩
  · rw [hvisited]
    exact u.map_fst_constants_sublist.nodup hnodup
  · have hout : owner ∉ u.ids := fun hm =>
      h.acyclic u.id (Relation.TransGen.head' howner (hu.mem_ids h hm))
    rw [htree.children (h.parent_lt_size howner)]
    refine map_congr_left fun c hc => ?_
    split_ifs with hcu
    · rw [hcu, hid]
    · exact hsibling (h.mem_children_iff.mp hc) hout hcu
  · have hmem := (hxs c hc).mpr hsome
    rw [htree.parent _ (hu.ids_lt_size _ (mem_ids_of_mem_constants hc)), if_pos hmem]
  · rw [htree.face? x hx]
    cases hf : t.face? x with
    | none => rfl
    | some g =>
      rw [map_some, Kind.mapChildren_eq_self fun c hc => ?_]
      have hp := h.parent_of_kind? (kind?_of_face? (o := g.2) hf) hc
      exact hsibling hp hout fun heq => hnot (heq ▸ hp)

/-- A walk that exchanges constants for new ones ends well, from any element and from the root, whatever constants
are picked, the new ones not excluded. -/
theorem substitute_swaps (h : t.Owned) (pick : ElementId → Value → Option Value) :
    (∀ start < t.size, ∃ u u' r, t.unfold start = some u ∧
      (∀ fuel, 2 * t.size ≤ fuel →
        t.substitute (fun i v => (pick i v).map .constant) fuel (some start) = some (.ok (), r)) ∧ Swept pick t u u' r) ∧
    (t.root = none → ∀ fuel,
      t.substitute (fun i v => (pick i v).map .constant) fuel t.root = some (.ok (), { bench := { tree := t } })) := by
  refine ⟨fun start hstart => ?_, fun hroot fuel => by rw [hroot]; rfl⟩
  obtain ⟨u, hu, rfl⟩ := h.exists_shows hstart
  obtain ⟨r, f, hrun, hwalked⟩ := Substitute.walks pick u { bench := { tree := t } } h hu
  obtain ⟨hvisited, htree⟩ := hwalked
  rw [flatMap_singleton] at hvisited htree
  obtain ⟨u', hswept⟩ := htree.swept h hu hvisited
  have hlength := hu.length_ids_le h
  exact ⟨u, u', r, h.unfold_eq_some_iff.mpr ⟨hu, rfl⟩, fun fuel hfuel => hrun fuel (by omega), hswept⟩

/-- A block of three constants. -/
def counted : Tree :=
  reached "counted" <| [Kind.constant (.int 1), .constant (.int 2), .constant (.int 3), .block [0, 1, 2]].map
    (Call.alloc · {}) ++ [.setRoot 3]

theorem counted_swaps :
    counted.Owned ∧ 3 < counted.size ∧
    ∃ u u' r, counted.unfold 3 = some u ∧
      counted.substitute (fun _ _ => some (.constant .null)) 8 (some 3) = some (.ok (), r) ∧
      Swept (fun _ _ => some .null) counted u u' r ∧ r.visited.toList = [0, 1, 2] := by
  have howned : counted.Owned := foldl_perform_owned (empty_owned _) _
  have hsize : 3 < counted.size := by decide
  obtain ⟨u, u', r, hu, hrun, hswept⟩ := (substitute_swaps howned fun _ _ => some .null).1 3 hsize
  refine ⟨howned, hsize, u, u', r, hu, hrun 8 (by decide), hswept, ?_⟩
  rw [hswept.visited]
  cases hu
  rfl

end Tree

end Clausal
