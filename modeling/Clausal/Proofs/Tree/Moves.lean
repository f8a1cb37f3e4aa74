import Clausal.Proofs.Tree.Editing
import Clausal.Proofs.Tree.Showing

/-! # Moving elements

An element is moved in two steps: it is taken out of its owner, which gets a placeholder instead, and then it
is adopted elsewhere.  `Later t t' xs` is what a series of such steps leaves: the tree is owned and has the
same root, and the elements there were look the same, but for those in `xs`. -/

namespace Clausal

open Clausal.Tree List

namespace Tree

variable {t : Tree} {u : Unfolding} {x : ElementId}

theorem Owned.not_below_of_childless (h : t.Owned) {n : ElementId} (hn : t.children n = [])
    (x : ElementId) : ¬ t.Below x n := by
  intro hb
  obtain ⟨c, hc⟩ : ∃ c, t.parent c = some n := by
    cases hb with
    | single hp => exact ⟨_, hp⟩
    | tail _ hp => exact ⟨_, hp⟩
  have := h.mem_children_iff.mpr hc
  rw [hn] at this
  cases this

theorem Shows.mem_ids_of_parent (hs : t.Shows u) (h : t.Owned) {c o : ElementId} (hp : t.parent c = some o)
    (ho : o ∈ u.ids) : c ∈ u.ids := by
  induction hs with
  | @node i k _ us hface hchildren _ ih =>
    rw [Unfolding.ids_node] at ho ⊢
    rcases mem_cons.mp ho with rfl | ho
    · have hc := h.mem_children_iff.mpr hp
      rw [children_of_kind? (kind?_of_face? hface), ← hchildren] at hc
      obtain ⟨u, hu, rfl⟩ := mem_map.mp hc
      exact .tail _ (mem_flatMap.mpr ⟨u, hu, u.id_mem_ids⟩)
    · obtain ⟨u, hu, ho⟩ := mem_flatMap.mp ho
      exact .tail _ (mem_flatMap.mpr ⟨u, hu, ih u hu ho⟩)

theorem Shows.mem_ids_of_below (hs : t.Shows u) (h : t.Owned) (hb : t.Below x u.id) : x ∈ u.ids := by
  induction hb using Relation.TransGen.head_induction_on with
  | single hp => exact hs.mem_ids_of_parent h hp u.id_mem_ids
  | head hp _ ih => exact hs.mem_ids_of_parent h hp ih

theorem Shows.exists_element (hs : t.Shows u) :
    ∃ e, t.element? u.id = some e ∧ e.kind = u.kind ∧ e.parent = t.parent u.id := by
  obtain ⟨e, he, heq⟩ := Option.map_eq_some_iff.mp hs.face?
  exact ⟨e, he, (Prod.mk.inj heq).1, (parent_of_element? he).symm⟩

theorem Owned.parent_root (h : t.Owned) {p : ElementId} (hp : t.parent x = some p) : t.root ≠ some x := by
  intro hroot
  rw [(h.root_free x hroot).2] at hp
  cases hp

/-- A later state of a tree, in which some elements may look different. -/
structure Later (t t' : Tree) (xs : List ElementId) : Prop where
  owned : t'.Owned
  root : t'.root = t.root
  size : t.size ≤ t'.size
  face? : ∀ x, x < t.size → x ∉ xs → t'.face? x = t.face? x

namespace Later

variable {t' t'' : Tree} {xs ys : List ElementId}

theorem refl (h : t.Owned) : Later t t [] := ⟨h, rfl, le_rfl, fun _ _ _ => rfl⟩

theorem trans (h : Later t t' xs) (h' : Later t' t'' ys) : Later t t'' (xs ++ ys) := by
  refine ⟨h'.owned, h'.root.trans h.root, h.size.trans h'.size, ?_⟩
  intro x hx hm
  rw [mem_append, not_or] at hm
  rw [h'.face? x (Nat.lt_of_lt_of_le hx h.size) hm.2, h.face? x hx hm.1]

theorem mono (h : Later t t' xs) (hs : ∀ x ∈ xs, x < t.size → x ∈ ys) : Later t t' ys :=
  ⟨h.owned, h.root, h.size, fun x hx hm => h.face? x hx fun hxs => hm (hs x hxs hx)⟩

theorem adopt (h : t.Owned) {k : Kind} (ha : t.Adoptable k.slots) (o : Origin) :
    Later t (t.adopt k o) [] := by
  refine ⟨h.adopt ha o, root_adopt .., ?_, ?_⟩
  · rw [size_adopt]
    exact Nat.le_succ _
  · intro x hx _
    rw [face?_adopt, if_neg (Nat.ne_of_lt hx)]

variable {u : Unfolding}

theorem shows (h : Later t t' xs) (hu : t.Shows u) (hx : ∀ x ∈ u.ids, x ∉ xs) : t'.Shows u :=
  hu.congr fun x hm => h.face? x (hu.ids_lt_size x hm) (hx x hm)

theorem shows_of_notMem {i : ElementId} (h : Later t t' [i]) (hu : t.Shows u) (hi : i ∉ u.ids) : t'.Shows u :=
  h.shows hu fun _ hx hm => hi (mem_singleton.mp hm ▸ hx)

end Later

/-- What is stored without children may take the place of a child whose role accepts it. -/
theorem Owned.exchangeable_adopt (h : t.Owned) {k k0 : Kind} {o : Origin} {owner child : ElementId} {i : Nat}
    {role : Role} (hf : t.face? owner = some (k, o)) (hs : k.slots[i]? = some (role, child)) (h0 : k0.slots = [])
    (hr : role.accepts k0 = true) (o0 : Origin) :
    t.Adoptable k0.slots ∧ (t.adopt k0 o0).Exchangeable owner child t.size i := by
  have hk := kind?_of_face? hf
  have howner : owner ≠ t.size := Nat.ne_of_lt (lt_size_of_kind? hk)
  have hchild : child ≠ t.size := by
    obtain ⟨k', hk', -⟩ := h.fits owner k _ hk (mem_of_getElem? hs)
    exact Nat.ne_of_lt (lt_size_of_kind? hk')
  have hadopt : t.Adoptable k0.slots := by
    rw [h0]
    exact ⟨by simp, by simp⟩
  have hnone : k0.children = [] := by rw [Kind.children, h0]; rfl
  have hkind := kind?_adopt (t := t) k0 o0
  have hknew : (t.adopt k0 o0).kind? t.size = some k0 := by rw [hkind, if_pos rfl]
  refine ⟨hadopt, ⟨k, role, k0, by rw [hkind, if_neg howner, hk], hs, hknew, hr⟩, hchild, ?_, ?_, howner, ?_⟩
  · rw [parent_adopt hadopt, hnone, if_neg not_mem_nil, parent, element?_eq_none_iff.mpr le_rfl]
    rfl
  · rw [root_adopt]
    intro hroot
    exact Nat.lt_irrefl _ (h.root_free _ hroot).1
  · intro habove
    have howned := h.adopt hadopt o0
    refine howned.not_below_of_childless ?_ _ (howned.mem_ancestors_iff.mp habove)
    rw [children_of_kind? hknew, hnone]

/-- An unfolding that the tree shows and that nobody holds. -/
structure Loose (t : Tree) (u : Unfolding) : Prop where
  shows : t.Shows u
  parent : t.parent u.id = none
  root : t.root ≠ some u.id

end Tree

theorem Kind.find?_slots {k : Kind} (hk : k.children.Nodup) {s : Role × ElementId} (hs : s ∈ k.slots) :
    k.slots.find? (·.2 = s.2) = some s := by
  cases hfind : k.slots.find? (·.2 = s.2) with
  | none => exact absurd (find?_eq_none.mp hfind s hs) (by simp)
  | some s' =>
    have hs' := mem_of_find?_eq_some hfind
    have heq : s'.2 = s.2 := by simpa using find?_some hfind
    rw [inj_on_of_nodup_map hk hs' hs heq]

namespace Edit

variable {w : Workbench} {k : Kind} {owner : ElementId} {i : Nat} {o : Origin} {role : Role}

theorem alloc_eq (ha : w.tree.Adoptable k.slots) (o : Origin) :
    alloc k o w = .ok w.tree.size { w with tree := w.tree.adopt k o } := by
  rw [alloc_apply, alloc_eq_ok_iff.mpr ⟨ha, rfl⟩]

theorem replace_eq (h : w.tree.Owned) {old new : ElementId} (hex : w.tree.Exchangeable owner old new i) :
    ∃ event, replace owner old new w =
      .ok () { tree := w.tree.splice owner old new i, journal := w.journal.push event } := by
  obtain ⟨event, heq⟩ := replace_apply owner old new w
  rw [checkReplacement_of_exchangeable h hex] at heq
  exact ⟨event, heq⟩

theorem release_eq (h : w.tree.Owned) {child : ElementId} (hf : w.tree.face? owner = some (k, o))
    (hs : k.slots[i]? = some (role, child)) (hr : role.accepts role.placeholder = true) :
    ∃ w', release owner child w = .ok child w' ∧ w.tree.Later w'.tree [owner] ∧
      w'.tree.face? owner = some (k.setSlot i w.tree.size, o) ∧
      ∀ x, x < w.tree.size → w'.tree.parent x = if x = child then none else w.tree.parent x := by
  have hk := kind?_of_face? hf
  have hmem : (role, child) ∈ k.slots := mem_of_getElem? hs
  have hchild : child < w.tree.size := by
    obtain ⟨k', hk', -⟩ := h.fits owner k _ hk hmem
    exact lt_size_of_kind? hk'
  have howner : owner < w.tree.size := lt_size_of_kind? hk
  have hnodup : k.children.Nodup := by
    have := h.nodup_children owner
    rwa [children_of_kind? hk] at this
  -- the placeholder is stored first; it has no children
  have hslots : role.placeholder.slots = [] := by cases role <;> rfl
  obtain ⟨hadopt, hex⟩ := h.exchangeable_adopt hf hs hslots hr .synthetic
  have howned := h.adopt hadopt .synthetic
  have hnone : role.placeholder.children = [] := by rw [Kind.children, hslots]; rfl
  have hparent := parent_adopt hadopt .synthetic
  simp only [hnone, not_mem_nil, if_false] at hparent
  have hne : ∀ {x}, x < w.tree.size → x ≠ w.tree.size := fun hx => Nat.ne_of_lt hx
  obtain ⟨e, he, heq⟩ := Option.map_eq_some_iff.mp hf
  cases heq
  obtain ⟨event, hreplace⟩ := replace_eq (w := { w with tree := w.tree.adopt role.placeholder .synthetic })
    howned hex
  have hface : (w.tree.adopt role.placeholder .synthetic).face? owner = some (e.kind, e.origin) := by
    rw [face?_adopt, if_neg (hne howner), hf]
  refine ⟨⟨(w.tree.adopt role.placeholder .synthetic).splice owner child w.tree.size i,
    w.journal.push event⟩, ?_, ⟨howned.splice hex, ?_, ?_, ?_⟩, ?_, ?_⟩
  · unfold release
    simp only [bind_apply, element_apply, get_eq_ok_iff.mpr he, Kind.find?_slots hnodup hmem,
      alloc_eq hadopt, hreplace, pure_apply]
  · rw [root_splice, root_adopt]
  · rw [size_splice, size_adopt]
    exact Nat.le_succ _
  · intro x hx hm
    rw [face?_splice hface, if_neg (by simpa using hm), face?_adopt, if_neg (hne hx)]
  · rw [face?_splice hface, if_pos rfl]
  · intro x hx
    rw [parent_splice (by simpa using Nat.lt_succ_of_lt hchild) (by simp), hparent, if_neg (hne hx)]

theorem release_loose (h : w.tree.Owned) (hf : w.tree.face? owner = some (k, o)) {u : Unfolding}
    (hu : w.tree.Shows u) (howner : owner ∉ u.ids) (hs : k.slots[i]? = some (role, u.id))
    (hr : role.accepts role.placeholder = true) :
    ∃ w', release owner u.id w = .ok u.id w' ∧ w.tree.Later w'.tree [owner] ∧
      w'.tree.face? owner = some (k.setSlot i w.tree.size, o) ∧ w'.tree.Loose u ∧
      ∀ v, w.tree.Loose v → owner ∉ v.ids → w'.tree.Loose v := by
  obtain ⟨w', hrelease, hlater, hface, hparent⟩ := release_eq h hf hs hr
  have hmem : u.id ∈ k.children := mem_map.mpr ⟨(role, u.id), mem_of_getElem? hs, rfl⟩
  have hp := h.parent_of_kind? (kind?_of_face? hf) hmem
  refine ⟨w', hrelease, hlater, hface, ⟨hlater.shows_of_notMem hu howner, ?_, ?_⟩, ?_⟩
  · rw [hparent _ hu.lt_size, if_pos rfl]
  · rw [hlater.root]
    exact h.parent_root hp
  · intro v hv hvo
    refine ⟨hlater.shows_of_notMem hv.shows hvo, ?_, ?_⟩
    · rw [hparent _ hv.shows.lt_size, hv.parent]
      exact ite_self none
    · rw [hlater.root]
      exact hv.root

theorem alloc_loose (h : w.tree.Owned) (o : Origin) {us : List Unfolding}
    (hids : us.map Unfolding.id = k.children) (hus : ∀ u ∈ us, w.tree.Loose u)
    (hroles : ∀ s ∈ k.slots, ∃ u ∈ us, s.2 = u.id ∧ s.1.accepts u.kind = true) (hnodup : k.children.Nodup) :
    ∃ w', alloc k o w = .ok w.tree.size w' ∧ w.tree.Later w'.tree [] ∧
      w'.tree.Loose (.node w.tree.size k o us) ∧
      ∀ v, w.tree.Loose v → v.id ∉ k.children → w'.tree.Loose v := by
  have hadopt : w.tree.Adoptable k.slots := by
    refine ⟨?_, hnodup⟩
    intro s hs
    obtain ⟨u, hu, hid, haccepts⟩ := hroles s hs
    obtain ⟨e, he, hkind, hparent⟩ := (hus u hu).shows.exists_element
    rw [hid]
    exact ⟨e, he, hkind ▸ haccepts, hparent.trans (hus u hu).parent, (hus u hu).root⟩
  have hlater := Later.adopt h hadopt o
  refine ⟨{ w with tree := w.tree.adopt k o }, alloc_eq hadopt o, hlater, ⟨?_, ?_, ?_⟩, fun v hv hne => ?_⟩
  · refine .node ?_ hids fun u hu => hlater.shows (hus u hu).shows (by simp)
    rw [face?_adopt, if_pos rfl]
  · have hfresh : w.tree.size ∉ k.children := by
      rw [← hids]
      intro hm
      obtain ⟨u, hu, heq⟩ := mem_map.mp hm
      exact Nat.ne_of_lt (hus u hu).shows.lt_size heq
    rw [Unfolding.id, parent_adopt hadopt, if_neg hfresh, parent, element?_eq_none_iff.mpr le_rfl]
    rfl
  · rw [Unfolding.id, root_adopt]
    intro hroot
    exact Nat.lt_irrefl _ (h.root_free _ hroot).1
  · refine ⟨hlater.shows hv.shows (by simp), ?_, ?_⟩
    · rw [parent_adopt hadopt, if_neg hne, hv.parent]
    · rw [root_adopt]
      exact hv.root

theorem release_clause (h : w.tree.Owned) {i c a : ElementId} {arm : Arm} {condition action : Unfolding}
    (hclause : w.tree.Shows (.node i (.whenClause c a arm) o [condition, action])) :
    ∃ w1 w2, release i condition.id w = .ok condition.id w1 ∧
      release i action.id w1 = .ok action.id w2 ∧ w.tree.Later w2.tree [i] ∧
      w2.tree.Loose condition ∧ w2.tree.Loose action ∧
      ∀ v, w.tree.Loose v → i ∉ v.ids → w2.tree.Loose v := by
  have hface : w.tree.face? i = some (.whenClause c a arm, o) := hclause.face?
  have hids : [condition.id, action.id] = [c, a] := hclause.children
  obtain ⟨rfl, rfl⟩ : condition.id = c ∧ action.id = a := by simpa using hids
  obtain ⟨hic, hia⟩ : i ∉ condition.ids ∧ i ∉ action.ids := by
    have hnodup := hclause.nodup_ids h
    rw [Unfolding.ids_node] at hnodup
    simpa using (nodup_cons.mp hnodup).1
  have hs0 : (Kind.whenClause condition.id action.id arm).slots[0]? =
      some (Role.expression, condition.id) := rfl
  obtain ⟨w1, hrel1, hlater1, hface1, hc1, hstay1⟩ := release_loose h hface
    (hclause.child condition (by simp)) hic hs0 rfl
  have hs1 : ((Kind.whenClause condition.id action.id arm).setSlot 0 w.tree.size).slots[1]? =
      some (arm.actionRole, action.id) := rfl
  obtain ⟨w2, hrel2, hlater2, -, ha2, hstay2⟩ := release_loose hlater1.owned hface1
    (hlater1.shows_of_notMem (hclause.child action (by simp)) hia) hia hs1 (by cases arm <;> rfl)
  exact ⟨w1, w2, hrel1, hrel2, (hlater1.trans hlater2).mono (by simp), hstay2 _ hc1 hic, ha2,
    fun v hv hi => hstay2 v (hstay1 v hv hi) hi⟩

end Edit

end Clausal
