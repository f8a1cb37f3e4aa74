import Clausal.Proofs.Tree.Adoption
import Clausal.Proofs.Tree.Replacement
import Clausal.Tree.Unfolding

/-! # Trees show unfoldings

An unfolding is a picture of a part of an arena.  `Shows t u` says that the picture is true: every node of `u`
is an element of `t` with that kind and origin, and the nodes below it are its children. -/

namespace Clausal

open List Option

theorem Kind.block_of_statement {k : Kind} {c : ElementId} (hs : (Role.statement, c) ∈ k.slots) :
    ∃ ids, k = .block ids := by
  cases k with
  | block ids => exact ⟨ids, rfl⟩
  | whenClause _ _ arm => cases arm <;> simp [Kind.slots, Arm.actionRole] at hs
  | _ => simp [Kind.slots] at hs

namespace Unfolding

@[elab_as_elim, induction_eliminator]
theorem inductOn {P : Unfolding → Prop}
    (node : ∀ id k o us, (∀ u ∈ us, P u) → P (.node id k o us)) : ∀ u, P u
  | .node id k o us => node id k o us fun u _ => inductOn node u

@[elab_as_elim]
theorem induct₂ {P : Unfolding → Prop}
    (node : ∀ id k o us, (∀ u ∈ us, P u) → (∀ u ∈ us, ∀ v ∈ u.children, P v) → P (.node id k o us))
    (u : Unfolding) : P u := by
  have key : P u ∧ ∀ v ∈ u.children, P v := by
    induction u with
    | node id k o us ih =>
      have hus : ∀ u ∈ us, P u := fun u hu => (ih u hu).1
      exact ⟨node id k o us hus fun u hu => (ih u hu).2, hus⟩
  exact key.1

def ids (u : Unfolding) : List ElementId := u.preorder.map Prod.fst

/-- What goes through a list and appends is a `flatMap`. -/
theorem eq_flatMap {α β : Type} {f : α → List β} {F : List α → List β} (hnil : F [] = [])
    (hcons : ∀ x xs, F (x :: xs) = f x ++ F xs) (xs : List α) : F xs = xs.flatMap f := by
  induction xs with
  | nil => exact hnil
  | cons x xs ih => rw [hcons, ih, flatMap_cons]

theorem collect_node {α : Type} (f : Unfolding → List α → List α) (i : ElementId) (k : Kind) (o : Origin)
    (us : List Unfolding) : collect f (node i k o us) = f (node i k o us) (us.flatMap (collect f)) := by
  rw [collect, eq_flatMap (F := collectAll f) (by rw [collectAll]) fun _ _ => by rw [collectAll]]

theorem preorderUntil_node (stop : Kind → Bool) (i : ElementId) (k : Kind) (o : Origin) (us : List Unfolding) :
    (node i k o us).preorderUntil stop = (i, k) :: if stop k then [] else us.flatMap (preorderUntil stop) :=
  collect_node ..

@[simp] theorem ids_node (i : ElementId) (k : Kind) (o : Origin) (us : List Unfolding) :
    (node i k o us).ids = i :: us.flatMap ids := by
  unfold ids preorder
  rw [preorderUntil_node]
  simp [map_flatMap]

theorem id_mem_ids (u : Unfolding) : u.id ∈ u.ids := by
  cases u
  simp [Unfolding.id]

/-- The first unfolding is the second one or lies below it. -/
inductive Within (v : Unfolding) : Unfolding → Prop
  | here : Within v v
  | child {i k o us u} : u ∈ us → Within v u → Within v (.node i k o us)

theorem Within.trans {u v w : Unfolding} (h : u.Within v) (h' : v.Within w) : u.Within w := by
  induction h' with
  | here => exact h
  | child hu _ ih => exact .child hu ih

/-! ### Rows of unfoldings -/

section rows
variable {R S : Unfolding → Unfolding → Prop} {us us' : List Unfolding}

theorem forall₂_of_mem (hus : Forall₂ R us us') (h : ∀ u ∈ us, ∀ u', R u u' → S u u') :
    Forall₂ S us us' := by
  induction hus with
  | nil => exact .nil
  | @cons u u' us us' hu _ ih =>
    exact .cons (h u (.head _) u' hu) (ih fun v hv => h v (.tail _ hv))

theorem forall₂_one {u : Unfolding} (h : Forall₂ R [u] us') : ∃ u', us' = [u'] ∧ R u u' := by
  obtain ⟨u', _, hu, hnil, rfl⟩ := forall₂_cons_left_iff.mp h
  cases hnil
  exact ⟨u', rfl, hu⟩

theorem forall₂_two {u v : Unfolding} (h : Forall₂ R [u, v] us') :
    ∃ u' v', us' = [u', v'] ∧ R u u' ∧ R v v' := by
  obtain ⟨u', _, hu, hrest, rfl⟩ := forall₂_cons_left_iff.mp h
  obtain ⟨v', rfl, hv⟩ := forall₂_one hrest
  exact ⟨u', v', rfl, hu, hv⟩

end rows

/-! ### Fitting kinds -/

/-- The nodes of an unfolding are of kinds that their places accept. -/
inductive Fits : Unfolding → Prop
  | node {i k o us} : Forall₂ (fun s u => s.2 = u.id ∧ s.1.accepts u.kind = true) k.slots us →
      (∀ u ∈ us, Fits u) → Fits (.node i k o us)

/-- An unfolding that has a place in another one: it is no module, and there is none below. -/
def Inner (u : Unfolding) : Prop := u.Fits ∧ ∃ role : Role, role.accepts u.kind = true

/-- The clauses of a case or match with its fallback, which comes last. -/
inductive Arms (arm : Arm) : List Unfolding → Prop
  | fallback {u} : u.Fits → arm.actionRole.accepts u.kind = true → Arms arm [u]
  | clause {i c a o condition action rest} : condition.Fits → condition.kind.isExpression = true → action.Fits →
      arm.actionRole.accepts action.kind = true → Arms arm rest →
      Arms arm (.node i (.whenClause c a arm) o [condition, action] :: rest)

namespace Fits

variable {i x otherwise : ElementId} {k : Kind} {o : Origin} {us : List Unfolding} {r : Role} {arm : Arm}
  {clauses : List ElementId}

theorem child (h : Fits (.node i k o us)) : ∀ u ∈ us, u.Fits := by
  cases h with
  | node _ hbelow => exact hbelow

theorem slots (h : Fits (.node i k o us)) :
    Forall₂ (fun s u => s.2 = u.id ∧ s.1.accepts u.kind = true) k.slots us := by
  cases h with
  | node hslots _ => exact hslots

theorem slot_of_mem (h : Fits (.node i k o us)) {u : Unfolding} (hu : u ∈ us) :
    ∃ s ∈ k.slots, s.2 = u.id ∧ s.1.accepts u.kind = true := by
  have hs := h.slots
  generalize k.slots = slots at hs ⊢
  clear h
  induction hs with
  | nil => cases hu
  | @cons s v ss vs hsv _ ih =>
    rcases mem_cons.mp hu with rfl | hu
    · exact ⟨s, .head _, hsv⟩
    · obtain ⟨s', hs', hsu⟩ := ih hu
      exact ⟨s', .tail _ hs', hsu⟩

theorem inner (h : Fits (.node i k o us)) : ∀ u ∈ us, u.Inner := by
  intro u hu
  obtain ⟨⟨role, c⟩, -, -, ha⟩ := h.slot_of_mem hu
  exact ⟨h.child u hu, role, ha⟩

theorem none (h : Fits (.node i k o us)) (hk : k.slots = []) : us = [] := by
  have hs := h.slots
  rw [hk] at hs
  exact forall₂_nil_left_iff.mp hs

theorem one (h : Fits (.node i k o us)) (hk : k.slots = [(r, x)]) :
    ∃ u, us = [u] ∧ u.Fits ∧ r.accepts u.kind = true := by
  have hs := h.slots
  rw [hk] at hs
  obtain ⟨u, _, ⟨-, ha⟩, hnil, rfl⟩ := forall₂_cons_left_iff.mp hs
  cases hnil
  exact ⟨u, rfl, h.child u (by simp), ha⟩

theorem two {r' : Role} {y : ElementId} (h : Fits (.node i k o us)) (hk : k.slots = [(r, x), (r', y)]) :
    ∃ u v, us = [u, v] ∧ u.Fits ∧ r.accepts u.kind = true ∧ v.Fits ∧ r'.accepts v.kind = true := by
  have hs := h.slots
  rw [hk] at hs
  obtain ⟨u, _, ⟨-, ha⟩, hs', rfl⟩ := forall₂_cons_left_iff.mp hs
  obtain ⟨v, _, ⟨-, ha'⟩, hnil, rfl⟩ := forall₂_cons_left_iff.mp hs'
  cases hnil
  exact ⟨u, v, rfl, h.child u (by simp), ha, h.child v (by simp), ha'⟩

theorem all {xs : List ElementId} (h : Fits (.node i k o us)) (hk : k.slots = xs.map (r, ·)) :
    ∀ u ∈ us, u.Fits ∧ r.accepts u.kind = true := by
  have hs := h.slots
  have hbelow := h.child
  rw [hk, forall₂_map_left_iff] at hs
  clear hk h
  induction hs with
  | nil => simp
  | @cons x u xs us hu _ ih =>
    intro v hv
    rcases mem_cons.mp hv with rfl | hv
    · exact ⟨hbelow v (.head _), hu.2⟩
    · exact ih (fun u hu => hbelow u (.tail _ hu)) v hv

theorem conditional {c a : ElementId} {e : Option ElementId}
    (h : Fits (.node i (.conditional c a e) o us)) :
    ∃ condition action rest, us = condition :: action :: rest ∧
      condition.Fits ∧ condition.kind.isExpression = true ∧
      action.Fits ∧ Role.block.accepts action.kind = true ∧
      (rest = [] ∨ ∃ other, rest = [other] ∧ other.Fits ∧ Role.elseBranch.accepts other.kind = true) := by
  have hs := h.slots
  rw [Kind.slots] at hs
  obtain ⟨condition, _, ⟨-, hc⟩, hs', rfl⟩ := forall₂_cons_left_iff.mp hs
  obtain ⟨action, rest, ⟨-, ha⟩, hrest, rfl⟩ := forall₂_cons_left_iff.mp hs'
  refine ⟨condition, action, rest, rfl, h.child _ (by simp), hc, h.child _ (by simp), ha, ?_⟩
  cases e with
  | none =>
    cases hrest
    exact .inl rfl
  | some x =>
    obtain ⟨other, _, ⟨-, ho⟩, hnil, rfl⟩ := forall₂_cons_left_iff.mp hrest
    cases hnil
    exact .inr ⟨other, rfl, h.child _ (by simp), ho⟩

theorem clause {u : Unfolding} (h : u.Fits) (ha : (Role.clause arm).accepts u.kind = true) :
    ∃ i c a o condition action, u = .node i (.whenClause c a arm) o [condition, action] ∧
      condition.Fits ∧ condition.kind.isExpression = true ∧ action.Fits ∧
      arm.actionRole.accepts action.kind = true := by
  obtain ⟨i, k, o, us⟩ := u
  cases k <;> simp only [Unfolding.kind, Role.accepts, decide_eq_true_eq, Bool.false_eq_true] at ha
  subst ha
  obtain ⟨condition, action, rfl, hc, hce, hf, haccepts⟩ := h.two rfl
  exact ⟨_, _, _, _, condition, action, rfl, hc, hce, hf, haccepts⟩

theorem alternatives (h : Fits (.node i k o us))
    (hk : k.slots = clauses.map (Role.clause arm, ·) ++ [(arm.actionRole, otherwise)]) :
    ∃ vs v, us = vs ++ [v] ∧ vs.map Unfolding.id = clauses ∧ v.id = otherwise ∧
      (∀ u ∈ vs, (Role.clause arm).accepts u.kind = true) ∧
      arm.actionRole.accepts v.kind = true := by
  have hs := h.slots
  rw [hk] at hs
  clear hk h
  induction clauses generalizing us with
  | nil =>
    obtain ⟨v, _, ⟨hid, ha⟩, hnil, rfl⟩ := forall₂_cons_left_iff.mp hs
    cases hnil
    exact ⟨[], v, rfl, rfl, hid.symm, by simp, ha⟩
  | cons c clauses ih =>
    obtain ⟨u, rest, ⟨hid, ha⟩, hrest, rfl⟩ := forall₂_cons_left_iff.mp hs
    obtain ⟨vs, v, rfl, hids, hv, hclauses, haction⟩ := ih hrest
    refine ⟨u :: vs, v, rfl, ?_, hv, ?_, haction⟩
    · rw [map_cons, hids, ← hid]
    · intro w hw
      rcases mem_cons.mp hw with rfl | hw
      · exact ha
      · exact hclauses w hw

theorem arms (h : Fits (.node i k o us))
    (hk : k.slots = clauses.map (Role.clause arm, ·) ++ [(arm.actionRole, otherwise)]) : Arms arm us := by
  have hbelow := h.child
  obtain ⟨vs, v, rfl, -, -, hclauses, ha⟩ := h.alternatives hk
  clear hk h
  induction vs with
  | nil => exact .fallback (hbelow v (by simp)) ha
  | cons u vs ih =>
    have harms := ih (fun u hu => hbelow u (.tail _ hu)) fun u hu => hclauses u (.tail _ hu)
    obtain ⟨_, _, _, _, condition, action, rfl, hc, hce, hf, haccepts⟩ :=
      clause (hbelow u (by simp)) (hclauses u (by simp))
    exact .clause hc hce hf haccepts harms

end Fits

end Unfolding

namespace Tree

/-- The kind and the origin of an element: all that an unfolding shows of it. -/
def face? (t : Tree) (x : ElementId) : Option (Kind × Origin) :=
  (t.element? x).map fun e => (e.kind, e.origin)

/-- Everything in an unfolding is as the tree has it. -/
inductive Shows (t : Tree) : Unfolding → Prop
  | node {i k o us} : t.face? i = some (k, o) → us.map Unfolding.id = k.children → (∀ u ∈ us, Shows t u) →
      Shows t (.node i k o us)

variable {t t' : Tree} {x : ElementId} {k : Kind} {o : Origin} {u : Unfolding}

/-! ### Faces -/

theorem kind?_of_face? (h : t.face? x = some (k, o)) : t.kind? x = some k := by
  obtain ⟨e, he, heq⟩ := map_eq_some_iff.mp h
  cases heq
  exact kind?_of_element? he

theorem face?_of_element? {e : Element} (h : t.element? x = some e) :
    t.face? x = some (e.kind, e.origin) := by
  simp [face?, h]

theorem lt_size_of_face? {f : Kind × Origin} (h : t.face? x = some f) : x < t.size :=
  lt_size_of_kind? (kind?_of_face? (o := f.2) h)

theorem face?_setParent (id x : ElementId) (owner : Option ElementId) :
    (t.setParent id owner).face? x = t.face? x := by
  unfold face?
  rw [element?_setParent]
  split_ifs
  · rw [Option.map_map]; rfl
  · rfl

theorem face?_setKind (id x : ElementId) (k : Kind) :
    (t.setKind id k).face? x = if x = id then (t.face? x).map (fun f => (k, f.2)) else t.face? x := by
  unfold face?
  rw [element?_setKind]
  split_ifs
  · rw [Option.map_map, Option.map_map]; rfl
  · rfl

theorem face?_adopt (k : Kind) (o : Origin) (x : ElementId) :
    (t.adopt k o).face? x = if x = t.size then some (k, o) else t.face? x := by
  unfold face?
  rw [element?_adopt]
  split_ifs
  · rfl
  · rw [Option.map_map]; rfl
  · rfl

theorem face?_splice {owner : ElementId} (hf : t.face? owner = some (k, o)) (old new : ElementId) (i : Nat)
    (x : ElementId) :
    (t.splice owner old new i).face? x =
      if x = owner then some (k.setSlot i new, o) else t.face? x := by
  unfold splice
  simp only [kind?_of_face? hf, face?_setParent, face?_setKind]
  split_ifs with hx
  · rw [hx, hf]; rfl
  · rfl

/-! ### Showing -/

namespace Shows

variable {u : Unfolding}

theorem face? (h : t.Shows u) : t.face? u.id = some (u.kind, u.origin) := by
  cases h with
  | node hf _ _ => exact hf

theorem lt_size (h : t.Shows u) : u.id < t.size := lt_size_of_face? h.face?

variable {i : ElementId} {k : Kind} {o : Origin} {us : List Unfolding}

theorem children (h : t.Shows (.node i k o us)) : us.map Unfolding.id = k.children := by
  cases h with
  | node _ hc _ => exact hc

theorem child (h : t.Shows (.node i k o us)) : ∀ u ∈ us, t.Shows u := by
  cases h with
  | node _ _ hb => exact hb

theorem within {v : Unfolding} (h : t.Shows u) (hv : v.Within u) : t.Shows v := by
  induction hv with
  | here => exact h
  | child hu _ ih => exact ih (h.child _ hu)

theorem congr (h : t.Shows u) (hf : ∀ x ∈ u.ids, t'.face? x = t.face? x) : t'.Shows u := by
  induction h with
  | @node i k o us hface hchildren _ ih =>
    rw [Unfolding.ids_node] at hf
    refine .node ?_ hchildren ?_
    · rw [hf i (.head _), hface]
    · intro u hu
      apply ih u hu
      intro x hx
      exact hf x (.tail _ (mem_flatMap.mpr ⟨u, hu, hx⟩))

theorem ids_lt_size (h : t.Shows u) : ∀ x ∈ u.ids, x < t.size := by
  induction h with
  | @node i k o us hface _ _ ih =>
    intro x hx
    rw [Unfolding.ids_node] at hx
    rcases mem_cons.mp hx with rfl | hx
    · exact lt_size_of_face? hface
    · obtain ⟨u, hu, hx⟩ := mem_flatMap.mp hx
      exact ih u hu x hx

end Shows

theorem exists_shows_map {α : Type} {f : α → ElementId} {R : α → Unfolding → Prop} {as : List α}
    (h : ∀ a ∈ as, ∃ u, t.Shows u ∧ u.id = f a ∧ R a u) :
    ∃ us, us.map Unfolding.id = as.map f ∧ (∀ u ∈ us, t.Shows u) ∧ Forall₂ R as us := by
  induction as with
  | nil => exact ⟨[], rfl, nofun, .nil⟩
  | cons a as ih =>
    obtain ⟨u, hu, hid, hR⟩ := h a (.head _)
    obtain ⟨us, hids, hus, hRs⟩ := ih fun a ha => h a (.tail _ ha)
    exact ⟨u :: us, by simp [hid, hids], forall_mem_cons.mpr ⟨hu, hus⟩, .cons hR hRs⟩

namespace Owned

variable (h : t.Owned)
include h

variable {i : ElementId} {u : Unfolding}

theorem length_ancestors_child {c : ElementId} {k : Kind} (hk : t.kind? i = some k) (hc : c ∈ k.children) :
    (t.ancestors c).length = (t.ancestors i).length + 1 := by
  rw [h.ancestors_of_parent (h.parent_of_kind? hk hc), length_cons]

theorem exists_shows (hi : i < t.size) : ∃ u, t.Shows u ∧ u.id = i := by
  -- the depth of an element is bounded, and its children are deeper by one
  induction hn : t.size - (t.ancestors i).length using Nat.strong_induction_on generalizing i with
  | _ n ih =>
    obtain ⟨e, he⟩ := lt_size_iff.mp hi
    have hk := kind?_of_element? he
    have hdepth := h.length_ancestors_lt hi
    have hsub : ∀ c ∈ e.kind.children, ∃ u, t.Shows u ∧ u.id = id c ∧ u.id = c := by
      intro c hc
      have hlen := h.length_ancestors_child hk hc
      obtain ⟨k', hk'⟩ := h.kind?_child hk hc
      obtain ⟨u, hu, hid⟩ := ih _ (by omega) (lt_size_of_kind? hk') rfl
      exact ⟨u, hu, hid, hid⟩
    obtain ⟨us, hus, hshows, -⟩ := exists_shows_map hsub
    exact ⟨.node i e.kind e.origin us, .node (face?_of_element? he) (by simpa using hus) hshows, rfl⟩

theorem unfoldTo_eq_some (hs : t.Shows u) {depth : Nat} (hd : t.size ≤ depth + (t.ancestors u.id).length) :
    t.unfoldTo depth u.id = some u := by
  induction hs generalizing depth with
  | @node i k o us hface hchildren hbelow ih =>
    have hk := kind?_of_face? hface
    have hdepth := h.length_ancestors_lt (lt_size_of_kind? hk)
    obtain ⟨e, he, heq⟩ := map_eq_some_iff.mp hface
    cases heq
    simp only [Unfolding.id] at hd ⊢
    cases depth with
    | zero => omega
    | succ depth =>
      have hus : e.kind.children.filterMap (t.unfoldTo depth) = us := by
        rw [← hchildren, filterMap_map]
        have : ∀ u ∈ us, (t.unfoldTo depth ∘ Unfolding.id) u = some u := by
          intro u hu
          apply ih u hu
          have hc : u.id ∈ e.kind.children := hchildren ▸ List.mem_map_of_mem hu
          have := h.length_ancestors_child hk hc
          omega
        rw [filterMap_congr this, filterMap_some]
      simp only [unfoldTo, he, map_some, hus]

theorem unfold_eq_some_iff : t.unfold i = some u ↔ t.Shows u ∧ u.id = i := by
  have hshows : ∀ {v}, t.Shows v → t.unfold v.id = some v := fun hv =>
    h.unfoldTo_eq_some hv (Nat.le_add_right _ _)
  constructor
  · intro hu
    have hi : i < t.size := by
      unfold unfold at hu
      cases hsize : t.size with
      | zero =>
        rw [hsize] at hu
        cases hu
      | succ n =>
        rw [hsize, unfoldTo] at hu
        obtain ⟨e, he, _⟩ := map_eq_some_iff.mp hu
        rw [← hsize]
        exact Tree.lt_size he
    obtain ⟨v, hv, rfl⟩ := h.exists_shows hi
    cases (hshows hv).symm.trans hu
    exact ⟨hv, rfl⟩
  · rintro ⟨hv, rfl⟩
    exact hshows hv

theorem unfoldRoot_eq_some_iff : t.unfoldRoot = some u ↔ t.Shows u ∧ t.root = some u.id := by
  unfold unfoldRoot
  rw [bind_eq_some_iff]
  constructor
  · rintro ⟨r, hr, hu⟩
    obtain ⟨hs, rfl⟩ := h.unfold_eq_some_iff.mp hu
    exact ⟨hs, hr⟩
  · rintro ⟨hs, hr⟩
    exact ⟨u.id, hr, h.unfold_eq_some_iff.mpr ⟨hs, rfl⟩⟩

theorem exists_unfoldRoot {r : ElementId} (hr : t.root = some r) : ∃ u, t.unfoldRoot = some u := by
  obtain ⟨u, hs, rfl⟩ := h.exists_shows (h.root_free r hr).1
  exact ⟨u, h.unfoldRoot_eq_some_iff.mpr ⟨hs, hr⟩⟩

end Owned

namespace Shows

variable {u : Unfolding} (hs : t.Shows u) (h : t.Owned)
include hs h

theorem fits : u.Fits := by
  induction hs with
  | @node i k o us hface hchildren hbelow ih =>
    refine .node ?_ ih
    have hk := kind?_of_face? hface
    have hslot : ∀ s ∈ k.slots, ∀ u ∈ us, s.2 = u.id → s.1.accepts u.kind = true := by
      intro s hs u hu hid
      obtain ⟨k', hk', hacc⟩ := h.fits i k s hk hs
      rw [hid, kind?_of_face? (hbelow u hu).face?] at hk'
      cases hk'
      exact hacc
    unfold Kind.children at hchildren
    generalize k.slots = slots at hchildren hslot
    clear hface hbelow ih hk
    induction us generalizing slots with
    | nil =>
      cases slots with
      | nil => exact .nil
      | cons s slots => simp at hchildren
    | cons u us ih =>
      cases slots with
      | nil => simp at hchildren
      | cons s slots =>
        rw [map_cons, map_cons] at hchildren
        obtain ⟨hid, hrest⟩ := List.cons.inj hchildren
        refine .cons ⟨hid.symm, hslot s (.head _) u (.head _) hid.symm⟩ (ih slots hrest ?_)
        intro s' hs' u' hu'
        exact hslot s' (.tail _ hs') u' (.tail _ hu')

theorem mem_ids {x : ElementId} (hx : x ∈ u.ids) :
    Relation.ReflTransGen (fun c o => t.parent c = some o) x u.id := by
  induction hs generalizing x with
  | @node i k o us hface hchildren hbelow ih =>
    rw [Unfolding.ids_node] at hx
    rcases mem_cons.mp hx with rfl | hx
    · exact .refl
    · obtain ⟨u, hu, hx⟩ := mem_flatMap.mp hx
      have hc : u.id ∈ k.children := hchildren ▸ List.mem_map_of_mem hu
      exact (ih u hu hx).tail (h.parent_of_kind? (kind?_of_face? hface) hc)

theorem parent : ∀ v ∈ u.children, t.parent v.id = some u.id := by
  cases hs with
  | node hface hchildren _ =>
    intro v hv
    exact h.parent_of_kind? (kind?_of_face? hface) (hchildren ▸ List.mem_map_of_mem hv)

theorem nodup_ids : u.ids.Nodup := by
  induction hs with
  | @node i k o us hface hchildren hbelow ih =>
    have hparent : ∀ u ∈ us, t.parent u.id = some i := Shows.parent (.node hface hchildren hbelow) h
    rw [Unfolding.ids_node, nodup_cons, nodup_flatMap]
    refine ⟨?_, ih, ?_⟩
    · intro hm
      obtain ⟨u, hu, hm⟩ := mem_flatMap.mp hm
      exact h.acyclic i (Relation.TransGen.tail' ((hbelow u hu).mem_ids h hm) (hparent u hu))
    · -- two children of one owner: an element below both would put one of them below the other
      have hpair : us.Pairwise fun u v => u.id ≠ v.id := by
        rw [← pairwise_map (f := Unfolding.id) (R := (· ≠ ·)), hchildren]
        have := h.nodup_children i
        rwa [children_of_kind? (kind?_of_face? hface)] at this
      refine hpair.imp_of_mem ?_
      intro u v hu hv hne x hxu hxv
      have key : ∀ {u v}, u ∈ us → v ∈ us → u.id ≠ v.id →
          ¬ Relation.ReflTransGen (fun c o => t.parent c = some o) u.id v.id := by
        intro u v hu hv hne hr
        rcases Relation.ReflTransGen.cases_head hr with heq | ⟨p, hp, hr⟩
        · exact hne heq
        · obtain rfl : p = i := Option.some.inj (hp.symm.trans (hparent u hu))
          exact h.acyclic p (Relation.TransGen.tail' hr (hparent v hv))
      have hunique : Relator.RightUnique fun c o => t.parent c = some o :=
        fun _ _ _ h1 h2 => Option.some.inj (h1.symm.trans h2)
      rcases Relation.ReflTransGen.total_of_right_unique hunique ((hbelow u hu).mem_ids h hxu)
        ((hbelow v hv).mem_ids h hxv) with hr | hr
      · exact key hu hv hne hr
      · exact key hv hu (Ne.symm hne) hr

end Shows

theorem reachableFrom_eq {us : List Unfolding} (hus : ∀ u ∈ us, t.Shows u) {fuel : Nat}
    (hfuel : (us.flatMap Unfolding.ids).length ≤ fuel) :
    t.reachableFrom fuel (us.map Unfolding.id) = us.flatMap Unfolding.ids := by
  induction fuel generalizing us with
  | zero =>
    cases us with
    | nil => rfl
    | cons u us =>
      cases u
      simp at hfuel
  | succ fuel ih =>
    cases us with
    | nil => rfl
    | cons u us =>
      obtain ⟨i, k, o, vs⟩ := u
      have hu : t.Shows (.node i k o vs) := hus _ (.head _)
      have hchildren : t.children i = vs.map Unfolding.id := by
        rw [hu.children]
        exact children_of_kind? (kind?_of_face? hu.face?)
      have hrest : ∀ v ∈ vs ++ us, t.Shows v := by
        intro v hv
        rcases mem_append.mp hv with hv | hv
        · exact hu.child v hv
        · exact hus v (.tail _ hv)
      simp only [flatMap_cons, Unfolding.ids_node, cons_append, length_cons] at hfuel
      rw [map_cons, reachableFrom, Unfolding.id, hchildren, ← map_append,
        ih hrest (by rw [flatMap_append]; omega), flatMap_append, flatMap_cons,
        Unfolding.ids_node, cons_append]

theorem Shows.length_ids_le (hs : t.Shows u) (h : t.Owned) : u.ids.length ≤ t.size := by
  have hsub : u.ids ⊆ range t.size := fun x hx => mem_range.mpr (hs.ids_lt_size x hx)
  simpa using ((hs.nodup_ids h).subperm hsub).length_le

theorem Shows.perm_range (hs : t.Shows u) (h : t.Owned) (hsize : t.size = u.ids.length) :
    u.ids.Perm (range t.size) := by
  have hlt : u.ids ⊆ range t.size := fun x hx => mem_range.mpr (hs.ids_lt_size x hx)
  refine (subperm_of_subset (hs.nodup_ids h) hlt).perm_of_length_le ?_
  rw [length_range, hsize]

theorem Shows.reachableFrom_eq (hs : t.Shows u) (h : t.Owned) {fuel : Nat} (hfuel : t.size ≤ fuel) :
    t.reachableFrom fuel [u.id] = u.ids := by
  have hone : t.reachableFrom fuel ([u].map Unfolding.id) = [u].flatMap Unfolding.ids :=
    Tree.reachableFrom_eq (by simpa using hs) (by simpa using (hs.length_ids_le h).trans hfuel)
  simpa using hone

theorem Owned.reachable_eq (h : t.Owned) (hu : t.unfoldRoot = some u) : t.reachable = u.ids := by
  obtain ⟨hs, hroot⟩ := h.unfoldRoot_eq_some_iff.mp hu
  rw [reachable, hroot, toList_some, hs.reachableFrom_eq h le_rfl]

end Tree

end Clausal
