import Clausal.Proofs.Tree.Lookup

/-! # Ownership

`Tree.Owned` is what every edit of a tree keeps, for reachable and detached elements alike:

* every place holds an element of the arena that fits the role of the place;
* an element has the parent `o` exactly when one place of the whole arena holds it and that place is
  one of `o`; it has no parent exactly when no place holds it;
* nothing lies below itself;
* the root is in the arena and nobody holds it.

The two clauses about parents say that links down and links up agree (`owned_iff`): the children of an
element are those whose parent it is, each listed once.  Since the arena is finite and nothing lies
below itself, the chain of owners above an element ends (`Owned.exists_climb`), so `ancestors` lists
exactly what an element lies below (`Owned.mem_ancestors_iff`), its guard against repetition never
fires, and the number of ancestors is a depth that grows by one from an owner to its children. -/

namespace Clausal.Tree

open List

def Holds (t : Tree) (o : ElementId) (i : Nat) (c : ElementId) : Prop :=
  (t.children o)[i]? = some c

/-- The element `c` lies below `a`: one or more steps from child to owner lead from `c` to `a`. -/
def Below (t : Tree) : ElementId → ElementId → Prop :=
  Relation.TransGen fun c o => t.parent c = some o

/-- Places, parents, roles and the root of a tree agree. -/
structure Owned (t : Tree) : Prop where
  /-- What a place holds is in the arena and fits the role of the place. -/
  fits : ∀ o k s, t.kind? o = some k → s ∈ k.slots → ∃ k', t.kind? s.2 = some k' ∧ s.1.accepts k' = true
  /-- An owner is recorded exactly when one place in all holds the element, and the owner has it. -/
  parent_eq_some_iff : ∀ c o, t.parent c = some o ↔
    ∃ i, t.Holds o i c ∧ ∀ o' i', t.Holds o' i' c → o' = o ∧ i' = i
  /-- No owner is recorded exactly when no place holds the element. -/
  parent_eq_none_iff : ∀ c, t.parent c = none ↔ ∀ o i, ¬ t.Holds o i c
  /-- Chains of owners do not come back. -/
  acyclic : ∀ c, ¬ t.Below c c
  /-- The root is in the arena and is nobody's child. -/
  root_free : ∀ r, t.root = some r → r < t.size ∧ t.parent r = none

variable {t : Tree} {c a o : ElementId} {ps : List ElementId} {x : Option ElementId}

/-! ### Links down and links up -/

theorem holds_of_mem_children (h : c ∈ t.children o) : ∃ i, t.Holds o i c :=
  mem_iff_getElem?.mp h

theorem Holds.mem_children {i : Nat} (h : t.Holds o i c) : c ∈ t.children o :=
  mem_of_getElem? h

/-- Being owned, with the clauses about parents in the form in which they are kept: the children of an
element are the elements that name it as their parent, without repetition. -/
theorem owned_iff : t.Owned ↔
    (∀ o k s, t.kind? o = some k → s ∈ k.slots → ∃ k', t.kind? s.2 = some k' ∧ s.1.accepts k' = true) ∧
    (∀ o c, c ∈ t.children o ↔ t.parent c = some o) ∧
    (∀ o, (t.children o).Nodup) ∧
    (∀ c, ¬ t.Below c c) ∧
    (∀ r, t.root = some r → r < t.size ∧ t.parent r = none) := by
  constructor
  · rintro ⟨hfits, hsome, hnone, hac, hroot⟩
    refine ⟨hfits, ?_, ?_, hac, hroot⟩
    · intro o c
      constructor
      · intro hc
        obtain ⟨i, hi⟩ := holds_of_mem_children hc
        cases hp : t.parent c with
        | none => exact absurd hi ((hnone c).mp hp o i)
        | some p =>
          obtain ⟨j, _, huniq⟩ := (hsome c p).mp hp
          rw [(huniq o i hi).1]
      · intro hp
        obtain ⟨i, hi, _⟩ := (hsome c o).mp hp
        exact hi.mem_children
    · intro o
      rw [nodup_iff_getElem?_ne_getElem?]
      intro i j hij hj heq
      obtain ⟨c, hc⟩ : ∃ c, (t.children o)[j]? = some c := ⟨_, getElem?_eq_getElem hj⟩
      have hi : t.Holds o i c := heq.trans hc
      cases hp : t.parent c with
      | none => exact (hnone c).mp hp o i hi
      | some p =>
        obtain ⟨m, _, huniq⟩ := (hsome c p).mp hp
        have := (huniq o i hi).2
        have := (huniq o j hc).2
        omega
  · rintro ⟨hfits, hmem, hnodup, hac, hroot⟩
    refine ⟨hfits, ?_, ?_, hac, hroot⟩
    · intro c o
      constructor
      · intro hp
        obtain ⟨i, hi⟩ := holds_of_mem_children ((hmem o c).mpr hp)
        refine ⟨i, hi, ?_⟩
        intro o' i' h'
        have ho : o' = o := Option.some.inj (((hmem o' c).mp h'.mem_children).symm.trans hp)
        subst ho
        obtain ⟨hlt, _⟩ := List.getElem?_eq_some_iff.mp h'
        exact ⟨rfl, (getElem?_inj hlt (hnodup o')).mp (h'.trans hi.symm)⟩
      · rintro ⟨i, hi, _⟩
        exact (hmem o c).mp hi.mem_children
    · intro c
      constructor
      · intro hp o i hi
        have := (hmem o c).mp hi.mem_children
        rw [hp] at this
        cases this
      · intro h
        cases hp : t.parent c with
        | none => rfl
        | some p =>
          obtain ⟨i, hi⟩ := holds_of_mem_children ((hmem p c).mpr hp)
          exact absurd hi (h p i)

namespace Owned

variable (h : t.Owned)
include h

variable {o c : ElementId} {k : Kind}

theorem mem_children_iff : c ∈ t.children o ↔ t.parent c = some o :=
  (owned_iff.mp h).2.1 o c

theorem nodup_children (o : ElementId) : (t.children o).Nodup :=
  (owned_iff.mp h).2.2.1 o

theorem parent_of_kind? (hk : t.kind? o = some k) (hc : c ∈ k.children) : t.parent c = some o := by
  rw [← h.mem_children_iff, children_of_kind? hk]
  exact hc

theorem mem_children_of_parent (hp : t.parent c = some o) : ∃ k, t.kind? o = some k ∧ c ∈ k.children :=
  Tree.mem_children_iff.mp (h.mem_children_iff.mpr hp)

theorem parent_lt_size (hp : t.parent c = some o) : o < t.size := by
  obtain ⟨k, hk, _⟩ := h.mem_children_of_parent hp
  exact lt_size_of_kind? hk

theorem kind?_child (hk : t.kind? o = some k) (hc : c ∈ k.children) : ∃ k', t.kind? c = some k' := by
  obtain ⟨role, hs⟩ := Kind.exists_slot_of_mem_children hc
  obtain ⟨k', hk', _⟩ := h.fits o k (role, c) hk hs
  exact ⟨k', hk'⟩

theorem below_lt_size {a : ElementId} (hb : t.Below c a) : c < t.size ∧ a < t.size := by
  induction hb with
  | single hp => exact ⟨lt_size_of_parent hp, h.parent_lt_size hp⟩
  | tail _ hp ih => exact ⟨ih.1, h.parent_lt_size hp⟩

end Owned

/-! ### Chains of owners -/

/-- Climbing from an element, if there is one, to owner after owner until there is none. -/
inductive Climb (t : Tree) : Option ElementId → List ElementId → Prop
  | stop : Climb t none []
  | step {p ps} : Climb t (t.parent p) ps → Climb t (some p) (p :: ps)

theorem Below.head_cases (hb : t.Below c a) : ∃ p, t.parent c = some p ∧ (p = a ∨ t.Below p a) := by
  obtain ⟨p, hp, hpa⟩ := Relation.TransGen.head'_iff.mp hb
  exact ⟨p, hp, (Relation.reflTransGen_iff_eq_or_transGen.mp hpa).imp_left Eq.symm⟩

theorem Climb.mem_iff (hc : Climb t (t.parent c) ps) : a ∈ ps ↔ t.Below c a := by
  generalize hx : t.parent c = x at hc
  induction hc generalizing c with
  | stop =>
    constructor
    · intro ha; cases ha
    · intro hb
      obtain ⟨p, hp, _⟩ := hb.head_cases
      rw [hx] at hp
      cases hp
  | @step p ps _ ih =>
    rw [mem_cons, ih rfl]
    constructor
    · rintro (rfl | hb)
      · exact Relation.TransGen.single hx
      · exact Relation.TransGen.head hx hb
    · intro hb
      obtain ⟨q, hq, hqa⟩ := hb.head_cases
      rw [hx] at hq
      cases hq
      exact hqa.imp Eq.symm id

theorem Climb.unique {qs : List ElementId} (hp : Climb t x ps) (hq : Climb t x qs) : ps = qs := by
  induction hp generalizing qs with
  | stop => cases hq; rfl
  | step _ ih =>
    cases hq with
    | step hq => rw [ih hq]

theorem Climb.ancestorsFrom_eq (hc : Climb t x ps) {seen : List ElementId} {fuel : Nat}
    (hfuel : ps.length ≤ fuel) (hnodup : ps.Nodup) (hseen : ∀ a ∈ seen, a ∉ ps) :
    t.ancestorsFrom seen fuel x = ps := by
  induction hc generalizing seen fuel with
  | stop => cases fuel <;> rfl
  | @step p ps _ ih =>
    cases fuel with
    | zero => cases hfuel
    | succ fuel =>
      have hp : p ∉ seen := fun hm => hseen p hm (.head _)
      unfold ancestorsFrom
      rw [if_neg (by simpa using hp)]
      rw [ih (Nat.le_of_succ_le_succ hfuel) hnodup.of_cons]
      intro a ha hm
      rcases mem_cons.mp ha with rfl | ha
      · exact (nodup_cons.mp hnodup).1 hm
      · exact hseen a ha (.tail _ hm)

namespace Owned

variable (h : t.Owned)
include h

theorem wellFounded_below :
    WellFounded fun a c : Fin t.size => t.Below c.val a.val := by
  have : IsTrans (Fin t.size) fun a c => t.Below c.val a.val :=
    ⟨fun _ _ _ hab hbc => Relation.TransGen.trans hbc hab⟩
  have : Std.Irrefl fun a c : Fin t.size => t.Below c.val a.val := ⟨fun a => h.acyclic a.val⟩
  exact Finite.wellFounded_of_trans_of_irrefl _

theorem exists_climb (c : ElementId) : ∃ ps, Climb t (t.parent c) ps := by
  have key : ∀ c : Fin t.size, ∃ ps, Climb t (t.parent c.val) ps := by
    intro c
    induction c using h.wellFounded_below.induction with
    | _ c ih =>
      cases hp : t.parent c.val with
      | none => exact ⟨[], Climb.stop⟩
      | some p =>
        obtain ⟨ps, hps⟩ := ih ⟨p, h.parent_lt_size hp⟩ (Relation.TransGen.single hp)
        exact ⟨p :: ps, Climb.step hps⟩
  cases hp : t.parent c with
  | none => exact ⟨[], Climb.stop⟩
  | some p =>
    obtain ⟨ps, hps⟩ := key ⟨c, lt_size_of_parent hp⟩
    rw [← hp]
    exact ⟨ps, hps⟩

variable {ps : List ElementId}

theorem nodup_climb {x : Option ElementId} (hc : Climb t x ps) : ps.Nodup := by
  induction hc with
  | stop => exact nodup_nil
  | @step p ps hc ih => exact nodup_cons.mpr ⟨fun hm => h.acyclic p (hc.mem_iff.mp hm), ih⟩

variable {c : ElementId}

theorem length_climb_lt (hlt : c < t.size) (hc : Climb t (t.parent c) ps) : ps.length < t.size := by
  have hnodup : (c :: ps).Nodup :=
    nodup_cons.mpr ⟨fun hm => h.acyclic c (hc.mem_iff.mp hm), h.nodup_climb hc⟩
  have hsub : (c :: ps) ⊆ range t.size := by
    intro a ha
    rw [mem_range]
    rcases mem_cons.mp ha with rfl | ha
    · exact hlt
    · exact (h.below_lt_size (hc.mem_iff.mp ha)).2
  have := (subperm_of_subset hnodup hsub).length_le
  rw [length_range] at this
  exact this

theorem climb_ancestors (c : ElementId) : Climb t (t.parent c) (t.ancestors c) := by
  obtain ⟨ps, hps⟩ := h.exists_climb c
  have hlen : ps.length ≤ t.size + 1 := by
    cases hp : t.parent c with
    | none =>
      rw [hp] at hps
      cases hps
      exact Nat.zero_le _
    | some p => exact Nat.le_succ_of_le (Nat.le_of_lt (h.length_climb_lt (lt_size_of_parent hp) hps))
  have heq : t.ancestors c = ps := hps.ancestorsFrom_eq hlen (h.nodup_climb hps) (by simp)
  rw [heq]
  exact hps

theorem mem_ancestors_iff {a : ElementId} : a ∈ t.ancestors c ↔ t.Below c a :=
  (h.climb_ancestors c).mem_iff

theorem ancestors_of_parent {p : ElementId} (hp : t.parent c = some p) :
    t.ancestors c = p :: t.ancestors p := by
  have hc := h.climb_ancestors c
  rw [hp] at hc
  exact hc.unique (Climb.step (h.climb_ancestors p))

theorem length_ancestors_lt (hlt : c < t.size) : (t.ancestors c).length < t.size :=
  h.length_climb_lt hlt (h.climb_ancestors c)

end Owned

theorem empty_owned (source : String) : (empty source).Owned := by
  have hkind : ∀ x, (empty source).kind? x = none := fun _ => rfl
  have hparent : ∀ x, (empty source).parent x = none := fun _ => rfl
  have hchildren : ∀ x, (empty source).children x = [] := fun _ => rfl
  rw [owned_iff]
  refine ⟨?_, ?_, ?_, ?_, ?_⟩
  · intro o k s hk
    rw [hkind] at hk
    cases hk
  · intro o c
    simp [hchildren, hparent]
  · intro o
    simp [hchildren]
  · intro c hb
    obtain ⟨p, hp, _⟩ := hb.head_cases
    rw [hparent] at hp
    cases hp
  · intro r hr
    cases hr

end Clausal.Tree
