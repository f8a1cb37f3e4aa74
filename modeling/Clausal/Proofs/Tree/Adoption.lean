import Clausal.Proofs.Tree.Ownership

/-! # Storing elements keeps ownership

`alloc` succeeds exactly when the children of the new element are `Adoptable`: distinct elements of the arena
that fit their places, that nobody holds, and none of which is the root (`alloc_eq_ok_iff`). -/

namespace Clausal

open List

namespace Tree

/-- What a new element demands of the children it names. -/
structure Adoptable (t : Tree) (slots : List (Role × ElementId)) : Prop where
  free : ∀ s ∈ slots, ∃ e, t.element? s.2 = some e ∧ s.1.accepts e.kind = true ∧ e.parent = none ∧
    t.root ≠ some s.2
  nodup : (slots.map Prod.snd).Nodup

/-- The tree in which the next number is recorded as the parent of some elements. -/
def withNextOwner (t : Tree) (cs : List ElementId) : Tree :=
  cs.foldl (fun t child => t.setParent child (some t.size)) t

def adopt (t : Tree) (k : Kind) (o : Origin) : Tree := (t.withNextOwner k.children).push k o

variable {t : Tree} {name : String} {location : Option Location} {seen : List ElementId} {k : Kind}
  {o : Origin} {c : ElementId}

/-! ### When an element can be stored -/

theorem checkSlot_eq_ok_iff {role : Role} {child : ElementId} :
    t.checkSlot name location seen role child = .ok ⟨⟩ ↔
      child ∉ seen ∧ ∃ e, t.element? child = some e ∧ role.accepts e.kind = true ∧
        e.parent = none ∧ t.root ≠ some child := by
  unfold checkSlot get
  cases he : t.element? child with
  | none => simp [bind, Except.bind]
  | some e =>
    simp only [bind, Except.bind, Option.some.injEq, exists_eq_left']
    cases hp : e.parent <;> split_ifs <;> simp_all [pure, Except.pure]

theorem checkAdoption_eq_ok_iff {slots : List (Role × ElementId)} :
    t.checkAdoption name location seen slots = .ok ⟨⟩ ↔ t.Adoptable slots ∧ ∀ s ∈ slots, s.2 ∉ seen := by
  induction slots generalizing seen with
  | nil =>
    unfold checkAdoption
    exact iff_of_true rfl ⟨⟨by simp, by simp⟩, by simp⟩
  | cons s slots ih =>
    obtain ⟨role, child⟩ := s
    have hbind : t.checkAdoption name location seen ((role, child) :: slots) = .ok ⟨⟩ ↔
        t.checkSlot name location seen role child = .ok ⟨⟩ ∧
          t.checkAdoption name location (child :: seen) slots = .ok ⟨⟩ := by
      rw [checkAdoption]
      cases t.checkSlot name location seen role child with
      | error f => simp [bind, Except.bind]
      | ok u => simp [bind, Except.bind]
    rw [hbind, checkSlot_eq_ok_iff, ih]
    constructor
    · rintro ⟨⟨hseen, hfree⟩, ⟨hfree', hnodup⟩, hseen'⟩
      refine ⟨⟨?_, ?_⟩, ?_⟩
      · intro s hs
        rcases mem_cons.mp hs with rfl | hs
        · exact hfree
        · exact hfree' s hs
      · rw [map_cons, nodup_cons]
        refine ⟨?_, hnodup⟩
        intro hm
        obtain ⟨s, hs, rfl⟩ := mem_map.mp hm
        exact hseen' s hs (.head _)
      · intro s hs
        rcases mem_cons.mp hs with rfl | hs
        · exact hseen
        · exact fun hm => hseen' s hs (.tail _ hm)
    · rintro ⟨⟨hfree, hnodup⟩, hseen⟩
      rw [map_cons, nodup_cons] at hnodup
      refine ⟨⟨hseen _ (.head _), hfree _ (.head _)⟩, ⟨fun s hs => hfree s (.tail _ hs), hnodup.2⟩, ?_⟩
      intro s hs hm
      rcases mem_cons.mp hm with heq | hm
      · exact hnodup.1 (mem_map.mpr ⟨s, hs, heq⟩)
      · exact hseen s (.tail _ hs) hm

theorem alloc_eq_ok_iff {r : Tree × ElementId} :
    t.alloc k o = .ok r ↔ t.Adoptable k.slots ∧ r = (t.adopt k o, t.size) := by
  have hcheck : t.checkAdoption k.name o.location [] k.slots = .ok ⟨⟩ ↔
      t.Adoptable k.slots ∧ ∀ s ∈ k.slots, s.2 ∉ [] := checkAdoption_eq_ok_iff
  unfold alloc
  cases hc : t.checkAdoption k.name o.location [] k.slots with
  | error f =>
    rw [hc] at hcheck
    have : ¬ t.Adoptable k.slots := fun h => by
      have := hcheck.mpr ⟨h, by simp⟩
      cases this
    simp [bind, Except.bind, this]
  | ok u =>
    rw [hc] at hcheck
    have := (hcheck.mp rfl).1
    simp [bind, Except.bind, pure, Except.pure, this, adopt, withNextOwner, eq_comm]

/-! ### What is stored -/

@[simp] theorem size_withNextOwner (t : Tree) (cs : List ElementId) :
    (t.withNextOwner cs).size = t.size := by
  unfold withNextOwner
  induction cs generalizing t with
  | nil => rfl
  | cons c cs ih => rw [foldl_cons, ih, size_setParent]

@[simp] theorem root_withNextOwner (t : Tree) (cs : List ElementId) :
    (t.withNextOwner cs).root = t.root := by
  unfold withNextOwner
  induction cs generalizing t with
  | nil => rfl
  | cons c cs ih => rw [foldl_cons, ih, root_setParent]

theorem element?_withNextOwner (t : Tree) (cs : List ElementId) (x : ElementId) :
    (t.withNextOwner cs).element? x =
      if x ∈ cs then (t.element? x).map ({ · with parent := some t.size }) else t.element? x := by
  unfold withNextOwner
  induction cs generalizing t with
  | nil => simp
  | cons c cs ih =>
    rw [foldl_cons, ih, element?_setParent, size_setParent]
    by_cases hx : x = c <;> by_cases hm : x ∈ cs <;> simp [hx, hm, Function.comp_def]

@[simp] theorem size_adopt (k : Kind) (o : Origin) : (t.adopt k o).size = t.size + 1 := by
  simp [adopt]

@[simp] theorem root_adopt (k : Kind) (o : Origin) : (t.adopt k o).root = t.root := by
  simp [adopt]

theorem element?_adopt (k : Kind) (o : Origin) (x : ElementId) :
    (t.adopt k o).element? x =
      if x = t.size then some ⟨k, none, o⟩
      else if x ∈ k.children then (t.element? x).map ({ · with parent := some t.size })
      else t.element? x := by
  unfold adopt
  rw [element?_push, size_withNextOwner, element?_withNextOwner]

theorem kind?_adopt (k : Kind) (o : Origin) (x : ElementId) :
    (t.adopt k o).kind? x = if x = t.size then some k else t.kind? x := by
  unfold kind?
  rw [element?_adopt]
  split_ifs
  · rfl
  · rw [Option.map_map]; rfl
  · rfl

theorem Adoptable.mem_children (ha : t.Adoptable k.slots) (hc : c ∈ k.children) :
    ∃ role e, (role, c) ∈ k.slots ∧ t.element? c = some e ∧ role.accepts e.kind = true ∧
      e.parent = none ∧ t.root ≠ some c := by
  obtain ⟨role, hs⟩ := Kind.exists_slot_of_mem_children hc
  obtain ⟨e, he⟩ := ha.free _ hs
  exact ⟨role, e, hs, he⟩

theorem parent_adopt (ha : t.Adoptable k.slots) (o : Origin) (x : ElementId) :
    (t.adopt k o).parent x = if x ∈ k.children then some t.size else t.parent x := by
  unfold parent
  rw [element?_adopt]
  by_cases hx : x = t.size
  · have hnone := element?_eq_none_iff.mpr (Nat.le_of_eq hx.symm)
    have hm : x ∉ k.children := by
      intro hc
      obtain ⟨_, e, _, he, _⟩ := ha.mem_children hc
      rw [hnone] at he
      cases he
    rw [if_pos hx, if_neg hm, hnone]
    rfl
  · rw [if_neg hx]
    by_cases hm : x ∈ k.children
    · obtain ⟨_, e, _, he, _⟩ := ha.mem_children hm
      rw [if_pos hm, if_pos hm, he]
      rfl
    · rw [if_neg hm, if_neg hm]

/-! ### Ownership -/

theorem below_adopt (ha : t.Adoptable k.slots) {a : ElementId} (hb : (t.adopt k o).Below c a) :
    t.Below c a ∨ a = t.size := by
  have hfresh : t.parent t.size = none := by
    unfold parent
    rw [element?_eq_none_iff.mpr le_rfl]
    rfl
  have hedge : ∀ {x p}, (t.adopt k o).parent x = some p → t.parent x = some p ∨ p = t.size := by
    intro x p hp
    rw [parent_adopt ha] at hp
    split_ifs at hp
    · exact Or.inr (Option.some.inj hp).symm
    · exact Or.inl hp
  induction hb with
  | single hp => exact (hedge hp).imp_left Relation.TransGen.single
  | @tail b a hcb hp ih =>
    rcases hedge hp with hp' | rfl
    · rcases ih with ih | rfl
      · exact Or.inl (ih.tail hp')
      · rw [hfresh] at hp'
        cases hp'
    · exact Or.inr rfl

theorem Owned.adopt (h : t.Owned) (ha : t.Adoptable k.slots) (o : Origin) : (t.adopt k o).Owned := by
  have hnew : ∀ {c}, c ∈ k.children → t.parent c = none := by
    intro c hc
    obtain ⟨_, e, _, he, _, hp, _⟩ := ha.mem_children hc
    rw [parent_of_element? he, hp]
  have hchildren : ∀ x, (t.adopt k o).children x = if x = t.size then k.children else t.children x := by
    intro x
    unfold children
    rw [kind?_adopt]
    split_ifs <;> rfl
  rw [owned_iff]
  refine ⟨?_, ?_, ?_, ?_, ?_⟩
  · intro x kx s hk hs
    have hold : ∃ k', t.kind? s.2 = some k' ∧ s.1.accepts k' = true := by
      rw [kind?_adopt] at hk
      split_ifs at hk with hx
      · cases hk
        obtain ⟨e, he, hacc, _⟩ := ha.free s hs
        exact ⟨e.kind, kind?_of_element? he, hacc⟩
      · exact h.fits x kx s hk hs
    obtain ⟨k', hk', hacc⟩ := hold
    have := lt_size_of_kind? hk'
    exact ⟨k', by rw [kind?_adopt, if_neg (Nat.ne_of_lt this), hk'], hacc⟩
  · intro x c
    rw [hchildren, parent_adopt ha]
    by_cases hc : c ∈ k.children
    · rw [if_pos hc, Option.some.injEq]
      by_cases hx : x = t.size
      · rw [if_pos hx]
        exact iff_of_true hc hx.symm
      · rw [if_neg hx, h.mem_children_iff, hnew hc]
        exact iff_of_false (by simp) (fun e => hx e.symm)
    · rw [if_neg hc]
      by_cases hx : x = t.size
      · rw [if_pos hx]
        refine iff_of_false hc (fun hp => ?_)
        have := h.parent_lt_size hp
        exact Nat.ne_of_lt this hx
      · rw [if_neg hx, h.mem_children_iff]
  · intro x
    rw [hchildren]
    split_ifs
    · exact ha.nodup
    · exact h.nodup_children x
  · intro c hb
    rcases below_adopt ha hb with hb' | rfl
    · exact h.acyclic c hb'
    · obtain ⟨p, hp, _⟩ := hb.head_cases
      rw [parent_adopt ha] at hp
      split_ifs at hp with hc
      · obtain ⟨_, e, _, he, _⟩ := ha.mem_children hc
        exact Nat.lt_irrefl _ (lt_size he)
      · exact Nat.lt_irrefl _ (lt_size_of_parent hp)
  · intro r hr
    rw [root_adopt] at hr
    obtain ⟨hlt, hp⟩ := h.root_free r hr
    refine ⟨by rw [size_adopt]; exact Nat.lt_succ_of_lt hlt, ?_⟩
    rw [parent_adopt ha, if_neg, hp]
    intro hc
    obtain ⟨_, _, _, _, _, _, hroot⟩ := ha.mem_children hc
    exact hroot hr

theorem Owned.alloc (h : t.Owned) {t' : Tree} {id : ElementId} (ha : t.alloc k o = .ok (t', id)) :
    t'.Owned := by
  obtain ⟨hadopt, heq⟩ := alloc_eq_ok_iff.mp ha
  cases heq
  exact h.adopt hadopt o

end Tree

end Clausal
