import Clausal.Lowering.Lower
import Clausal.Proofs.Tree.Adoption

/-! # Building a case or a match

The parts of a case or a match are collected by calls, some of which may be refused, and are then stored
together. -/

namespace Clausal

open List

/-! ### Elements that wait for an owner -/

namespace Tree

/-- Elements that are stored and can be adopted, each for a role. -/
structure Pending (t : Tree) (slots : List (Role × ElementId)) : Prop where
  owned : t.Owned
  adoptable : t.Adoptable slots

variable {t : Tree} {S S' : List (Role × ElementId)} {role : Role} {id : ElementId}

theorem Pending.perm (h : Pending t S) (hperm : S.Perm S') : Pending t S' :=
  ⟨h.owned, fun s hs => h.adoptable.free s (hperm.mem_iff.mpr hs),
    (hperm.map Prod.snd).nodup_iff.mp h.adoptable.nodup⟩

theorem Pending.right (h : Pending t (S ++ S')) : Pending t S' := by
  obtain ⟨howned, hfree, hnodup⟩ := h
  rw [map_append, nodup_append'] at hnodup
  exact ⟨howned, fun s hs => hfree s (mem_append_right _ hs), hnodup.2.1⟩

theorem Pending.lt_size (h : Pending t S) {s : Role × ElementId} (hs : s ∈ S) : s.2 < t.size := by
  obtain ⟨e, he, -⟩ := h.adoptable.free s hs
  exact Tree.lt_size he

theorem Pending.weaken {role' : Role} (h : Pending t (S ++ [(role, id)]))
    (himp : ∀ k, role.accepts k = true → role'.accepts k = true) : Pending t (S ++ [(role', id)]) := by
  obtain ⟨howned, hfree, hnodup⟩ := h
  refine ⟨howned, fun s hs => ?_, by simpa using hnodup⟩
  rcases mem_append.mp hs with hs | hs
  · exact hfree s (mem_append_left _ hs)
  · obtain ⟨e, he, haccepts, hrest⟩ := hfree (role, id) (by simp)
    rw [mem_singleton.mp hs]
    exact ⟨e, he, himp _ haccepts, hrest⟩

theorem Pending.adopt {k : Kind} (h : Pending t (S ++ k.slots)) (role : Role)
    (hrole : role.accepts k = true) (o : Origin) :
    t.Adoptable k.slots ∧ Pending (t.adopt k o) (S ++ [(role, t.size)]) := by
  obtain ⟨howned, hfree, hnodup⟩ := h
  rw [map_append, nodup_append'] at hnodup
  obtain ⟨hnodup, hchildren, hdisjoint⟩ := hnodup
  have hadoptable : t.Adoptable k.slots := ⟨fun s hs => hfree s (mem_append_right _ hs), hchildren⟩
  refine ⟨hadoptable, howned.adopt hadoptable o, fun s hs => ?_, ?_⟩
  · rcases mem_append.mp hs with hs | hs
    · obtain ⟨e, he, haccepts, hparent, hroot⟩ := hfree s (mem_append_left _ hs)
      have hnew : s.2 ≠ t.size := Nat.ne_of_lt (Tree.lt_size he)
      have hown : s.2 ∉ k.children := hdisjoint (mem_map_of_mem hs)
      exact ⟨e, by rw [element?_adopt, if_neg hnew, if_neg hown, he], haccepts, hparent, by rwa [root_adopt]⟩
    · rw [mem_singleton.mp hs]
      refine ⟨_, by rw [element?_adopt, if_pos rfl], hrole, rfl, fun hroot => ?_⟩
      rw [root_adopt] at hroot
      exact Nat.lt_irrefl _ (howned.root_free _ hroot).1
  · rw [map_append, nodup_append']
    refine ⟨hnodup, nodup_singleton _, fun x hx hx' => ?_⟩
    obtain ⟨s, hs, rfl⟩ := mem_map.mp hx
    obtain ⟨e, he, -⟩ := hfree s (mem_append_left _ hs)
    exact Nat.ne_of_lt (Tree.lt_size he) (mem_singleton.mp hx')

@[simp] theorem source_adopt (k : Kind) (o : Origin) : (t.adopt k o).source = t.source := by
  have hrow : ∀ (cs : List ElementId) (t : Tree), (t.withNextOwner cs).source = t.source := by
    intro cs
    induction cs with
    | nil => exact fun _ => rfl
    | cons c cs ih => exact fun t => (ih _).trans rfl
  exact hrow k.children t

end Tree

open Clausal.Tree

namespace Alternatives

/-! ### Storing the parts -/

section

variable {arm : Arm} {origin : Origin} {pairs : List (ElementId × ElementId)} {fallback x : ElementId}
  {t t' : Tree} {S : List (Role × ElementId)}

def roleOf : Arm → Role
  | .statement => .statement
  | .value => .expression

def armSlots (arm : Arm) (pairs : List (ElementId × ElementId)) (fallback : Option ElementId) :
    List (Role × ElementId) :=
  pairs.flatMap (fun p => [(.expression, p.1), (arm.actionRole, p.2)]) ++
    fallback.toList.map (arm.actionRole, ·)

theorem slots_construct (arm : Arm) (ids : List ElementId) (fallback : ElementId) :
    (arm.construct ids fallback).slots = ids.map (.clause arm, ·) ++ [(arm.actionRole, fallback)] := by
  cases arm <;> rfl

theorem adopted_eq (arm : Arm) (pairs : List (ElementId × ElementId)) (fallback : ElementId) :
    adopted arm pairs fallback = armSlots arm pairs (some fallback) := by
  rw [adopted, slots_construct]
  rfl

def members (pairs : List (ElementId × ElementId)) : List ElementId := pairs.flatMap fun p => [p.1, p.2]

theorem map_armSlots (arm : Arm) (pairs : List (ElementId × ElementId)) (fallback : Option ElementId) :
    (armSlots arm pairs fallback).map Prod.snd = members pairs ++ fallback.toList := by
  rw [armSlots, map_append, map_flatMap, map_map]
  exact congrArg _ (map_id' _)

theorem mem_members {i : Nat} {p : ElementId × ElementId} (h : pairs[i]? = some p)
    (hx : x = p.1 ∨ x = p.2) : x ∈ members pairs :=
  mem_flatMap.mpr ⟨p, mem_of_getElem? h, mem_pair.mpr hx⟩

/-- What storing clauses does: each takes its condition and its action, and nothing else changes. -/
structure Guarding (arm : Arm) (origin : Origin) (pairs : List (ElementId × ElementId)) (t t' : Tree) :
    Prop where
  size : t'.size = t.size + pairs.length
  root : t'.root = t.root
  source : t'.source = t.source
  clause : ∀ i p, pairs[i]? = some p → t'.element? (t.size + i) =
    some ⟨.whenClause p.1 p.2 arm, none, ((t.element? p.1).map Element.origin).getD origin⟩
  held : ∀ i p x, pairs[i]? = some p → x = p.1 ∨ x = p.2 →
    t'.element? x = (t.element? x).map ({ · with parent := some (t.size + i) })
  kept : ∀ x < t.size, x ∉ members pairs → t'.element? x = t.element? x

theorem lt_size_of_mem_members {fallback : Option ElementId}
    (h : Pending t (armSlots arm pairs fallback)) (hx : x ∈ members pairs) :
    x < t.size := by
  have hmem : x ∈ (armSlots arm pairs fallback).map Prod.snd := by
    rw [map_armSlots]
    exact mem_append_left _ hx
  obtain ⟨s, hs, rfl⟩ := mem_map.mp hmem
  exact h.lt_size hs

theorem Guarding.cons {p : ElementId × ElementId} {o : Origin}
    (ho : o = ((t.element? p.1).map Element.origin).getD origin)
    (h : Pending t (armSlots arm (p :: pairs) none))
    (hrest : Guarding arm origin pairs (t.adopt (.whenClause p.1 p.2 arm) o) t') :
    Guarding arm origin (p :: pairs) t t' := by
  have hnodup : (p.1 :: p.2 :: members pairs).Nodup := by
    simpa [map_armSlots, members] using h.adoptable.nodup
  obtain ⟨hfirst, hsecond, -⟩ : p.1 ∉ p.2 :: members pairs ∧ p.2 ∉ members pairs ∧ _ := by
    simpa only [nodup_cons] using hnodup
  have hlt : ∀ x ∈ p.1 :: p.2 :: members pairs, x < t.size := fun x hx => lt_size_of_mem_members h hx
  have hchildren : ∀ x, x ∈ (Kind.whenClause p.1 p.2 arm).children ↔ x = p.1 ∨ x = p.2 := by
    simp [Kind.children, Kind.slots]
  have hother : ∀ x < t.size, ¬(x = p.1 ∨ x = p.2) →
      (t.adopt (.whenClause p.1 p.2 arm) o).element? x = t.element? x := by
    intro x hx hne
    rw [element?_adopt, if_neg (Nat.ne_of_lt hx), if_neg (mt (hchildren x).mp hne)]
  have hmember : ∀ x ∈ members pairs, (t.adopt (.whenClause p.1 p.2 arm) o).element? x = t.element? x := by
    intro x hx
    refine hother x (hlt x (by simp [hx])) ?_
    rintro (rfl | rfl)
    · exact hfirst (.tail _ hx)
    · exact hsecond hx
  have hmine : ∀ x, x = p.1 ∨ x = p.2 → x < t.size ∧ x ∉ members pairs := by
    rintro x (rfl | rfl)
    · exact ⟨hlt _ (by simp), fun hx => hfirst (.tail _ hx)⟩
    · exact ⟨hlt _ (by simp), hsecond⟩
  have hsize := hrest.size
  have hclause := hrest.clause
  have hheld := hrest.held
  have hkept := hrest.kept
  rw [size_adopt] at hsize hclause hheld hkept
  refine ⟨by rw [hsize, length_cons]; omega, hrest.root.trans (root_adopt ..),
    hrest.source.trans (source_adopt ..), ?_, ?_, ?_⟩
  · intro i q hq
    cases i with
    | zero =>
      cases hq
      rw [Nat.add_zero, hkept t.size (Nat.lt_succ_self _) fun hx => ?_, element?_adopt, if_pos rfl, ho]
      exact Nat.lt_irrefl _ (hlt _ (by simp [hx]))
    | succ i =>
      rw [getElem?_cons_succ] at hq
      rw [← hmember q.1 (mem_members hq (.inl rfl)), ← hclause i q hq, Nat.add_right_comm, Nat.add_assoc]
  · intro i q x hq hx
    cases i with
    | zero =>
      cases hq
      obtain ⟨hx', hnot⟩ := hmine x hx
      rw [hkept x (Nat.lt_succ_of_lt hx') hnot, element?_adopt, if_neg (Nat.ne_of_lt hx'),
        if_pos ((hchildren x).mpr hx), Nat.add_zero]
    | succ i =>
      rw [getElem?_cons_succ] at hq
      rw [hheld i q x hq hx, hmember x (mem_members hq hx), Nat.add_right_comm, Nat.add_assoc]
  · intro x hx hnot
    have hnot' : ¬(x = p.1 ∨ x = p.2) ∧ x ∉ members pairs := by
      simpa [members, not_or, and_assoc] using hnot
    rw [hkept x (Nat.lt_succ_of_lt hx) hnot'.2, hother x hx hnot'.1]

theorem exists_allocClauses (origin : Origin) (h : Pending t (S ++ armSlots arm pairs none)) :
    ∃ t', allocClauses arm origin t pairs = .ok (t', range' t.size pairs.length) ∧
      Pending t' (S ++ (range' t.size pairs.length).map (.clause arm, ·)) ∧
      Guarding arm origin pairs t t' := by
  induction pairs generalizing t S with
  | nil =>
    exact ⟨t, rfl, h, rfl, rfl, rfl, nofun, nofun, fun _ _ _ => rfl⟩
  | cons p pairs ih =>
    have hperm : Pending t ((S ++ armSlots arm pairs none) ++ (Kind.whenClause p.1 p.2 arm).slots) := by
      rw [append_assoc]
      refine h.perm (Perm.append_left S ?_)
      exact @perm_append_comm _ [(Role.expression, p.1), (arm.actionRole, p.2)] (armSlots arm pairs none)
    generalize ho : ((t.element? p.1).map Element.origin).getD origin = o
    obtain ⟨hadoptable, hpending⟩ := hperm.adopt (.clause arm) (by simp [Role.accepts]) o
    have hrest : Pending (t.adopt (.whenClause p.1 p.2 arm) o)
        ((S ++ [(.clause arm, t.size)]) ++ armSlots arm pairs none) := by
      rw [append_assoc] at hpending ⊢
      exact hpending.perm (Perm.append_left S perm_append_comm)
    obtain ⟨t', hclauses, hids, hguarding⟩ := ih hrest
    rw [size_adopt] at hclauses hids
    refine ⟨t', ?_, by simpa [range'_succ] using hids, .cons ho.symm h.right hguarding⟩
    rw [allocClauses, ho, alloc_eq_ok_iff.mpr ⟨hadoptable, rfl⟩]
    simp only [bind, Except.bind, hclauses]
    rfl

/-- What building does: the clauses and the construct are new, each takes its parts, and nothing else
changes. -/
structure Built (arm : Arm) (origin : Origin) (pairs : List (ElementId × ElementId)) (fallback : ElementId)
    (t t' : Tree) : Prop where
  size : t'.size = t.size + (pairs.length + 1)
  root : t'.root = t.root
  source : t'.source = t.source
  clause : ∀ i p, pairs[i]? = some p → t'.element? (t.size + i) =
    some ⟨.whenClause p.1 p.2 arm, some (t.size + pairs.length),
      ((t.element? p.1).map Element.origin).getD origin⟩
  construct : t'.element? (t.size + pairs.length) =
    some ⟨arm.construct (range' t.size pairs.length) fallback, none, origin⟩
  held : ∀ i p x, pairs[i]? = some p → x = p.1 ∨ x = p.2 →
    t'.element? x = (t.element? x).map ({ · with parent := some (t.size + i) })
  heldLast : t'.element? fallback =
    (t.element? fallback).map ({ · with parent := some (t.size + pairs.length) })
  kept : ∀ x < t.size, x ∉ members pairs → x ≠ fallback → t'.element? x = t.element? x

theorem Guarding.built (h : Pending t (armSlots arm pairs (some fallback)))
    (hguarding : Guarding arm origin pairs t t') : Built arm origin pairs fallback t
      (t'.adopt (arm.construct (range' t.size pairs.length) fallback) origin) := by
  obtain ⟨hsize, hroot, hsource, hclause, hheld, hkept⟩ := hguarding
  have hfallback : fallback < t.size ∧ fallback ∉ members pairs := by
    have hnodup := h.adoptable.nodup
    rw [map_armSlots, Option.toList_some, nodup_append'] at hnodup
    exact ⟨h.lt_size (s := (arm.actionRole, fallback)) (by simp [armSlots]),
      fun hmem => hnodup.2.2 hmem (.head _)⟩
  have hchildren : ∀ x, x ∈ (arm.construct (range' t.size pairs.length) fallback).children ↔
      (∃ i < pairs.length, x = t.size + i) ∨ x = fallback := by
    intro x
    rw [Kind.children, slots_construct]
    simp [mem_range', eq_comm]
  have hnew : ∀ x < t.size + pairs.length, x ≠ t'.size := fun x hx => Nat.ne_of_lt (hsize ▸ hx)
  -- an old element is taken by the construct only as its fallback
  have hold : ∀ x < t.size, x ≠ fallback →
      (t'.adopt (arm.construct (range' t.size pairs.length) fallback) origin).element? x =
        t'.element? x := by
    intro x hx hne
    rw [element?_adopt, if_neg (hnew x (Nat.lt_add_right _ hx)), if_neg]
    rw [hchildren]
    rintro (⟨i, -, rfl⟩ | rfl)
    · omega
    · exact hne rfl
  have hmember : ∀ x ∈ members pairs, x < t.size ∧ x ≠ fallback := fun x hx =>
    ⟨lt_size_of_mem_members h hx, fun heq => hfallback.2 (heq ▸ hx)⟩
  refine ⟨by rw [size_adopt, hsize, Nat.add_assoc], (root_adopt ..).trans hroot,
    (source_adopt ..).trans hsource, ?_, ?_, ?_, ?_, ?_⟩
  · intro i p hp
    have hi : i < pairs.length := (List.getElem?_eq_some_iff.mp hp).1
    rw [element?_adopt, if_neg (hnew _ (Nat.add_lt_add_left hi _)),
      if_pos ((hchildren _).mpr (.inl ⟨i, hi, rfl⟩)), hclause i p hp, hsize]
    rfl
  · rw [element?_adopt, if_pos hsize.symm]
  · intro i p x hp hx
    obtain ⟨hlt, hne⟩ := hmember x (mem_members hp hx)
    rw [hold x hlt hne, hheld i p x hp hx]
  · rw [element?_adopt, if_neg (hnew _ (Nat.lt_add_right _ hfallback.1)),
      if_pos ((hchildren _).mpr (.inr rfl)), hkept fallback hfallback.1 hfallback.2, hsize]
  · intro x hx hnot hne
    rw [hold x hx hne, hkept x hx hnot]

theorem exists_allocAll (origin : Origin) (h : Pending t (S ++ armSlots arm pairs (some fallback))) :
    ∃ t', allocAll arm origin t pairs fallback = .ok (t', t.size + pairs.length) ∧
      Pending t' (S ++ [(roleOf arm, t.size + pairs.length)]) ∧ Built arm origin pairs fallback t t' := by
  have hclauses : Pending t ((S ++ [(arm.actionRole, fallback)]) ++ armSlots arm pairs none) := by
    rw [append_assoc]
    refine h.perm (Perm.append_left S ?_)
    rw [armSlots, armSlots, Option.toList_none, map_nil, append_nil]
    exact perm_append_comm
  obtain ⟨t₁, hids, hpending, hguarding⟩ := exists_allocClauses origin hclauses
  have hconstruct : Pending t₁ (S ++ (arm.construct (range' t.size pairs.length) fallback).slots) := by
    rw [slots_construct]
    rw [append_assoc] at hpending
    exact hpending.perm (Perm.append_left S perm_append_comm)
  obtain ⟨hadoptable, hdone⟩ := hconstruct.adopt (roleOf arm) (by cases arm <;> rfl) origin
  rw [hguarding.size] at hdone
  refine ⟨_, ?_, hdone, hguarding.built h.right⟩
  rw [allocAll, hids, ← hguarding.size]
  exact alloc_eq_ok_iff.mpr ⟨hadoptable, rfl⟩

/-! ### Building -/

def answered (pairs : List (ElementId × ElementId)) : List (ElementId × Option ElementId) :=
  pairs.map fun p => (p.1, some p.2)

theorem answered_injective : Function.Injective answered := by
  refine map_injective_iff.mpr fun p q h => ?_
  obtain ⟨hfirst, hsecond⟩ := Prod.mk.inj h
  exact Prod.ext hfirst (Option.some.inj hsecond)

theorem completeFrom_eq_ok_iff {index : Nat} {clauses : List (ElementId × Option ElementId)} :
    completeFrom index clauses = .ok pairs ↔ clauses = answered pairs := by
  induction clauses generalizing index pairs with
  | nil => cases pairs <;> simp [completeFrom, answered, pure, Except.pure]
  | cons clause clauses ih =>
    obtain ⟨condition, _ | action⟩ := clause
    · cases pairs <;> simp [completeFrom, answered]
    · rw [completeFrom, bind_eq_ok_iff]
      constructor
      · rintro ⟨rest, hrest, hpairs⟩
        cases hpairs
        rw [ih.mp hrest]
        rfl
      · intro h
        cases pairs with
        | nil => cases h
        | cons p pairs =>
          obtain ⟨hp, hrest⟩ := List.cons.inj h
          cases hp
          exact ⟨pairs, ih.mpr hrest, rfl⟩

variable {a : Alternatives} {id : ElementId}

theorem build_eq_ok_iff : a.build t = .ok (t', id, fallback) ↔
    ∃ pairs, pairs ≠ [] ∧ a.clauses = answered pairs ∧ a.fallback = some fallback ∧
      t.Adoptable (armSlots a.arm pairs (some fallback)) ∧
      allocAll a.arm a.origin t pairs fallback = .ok (t', id) := by
  rw [build]
  constructor
  · intro h
    split_ifs at h with hempty
    obtain ⟨pairs, hpairs, h⟩ := bind_eq_ok_iff.mp h
    have hclauses := completeFrom_eq_ok_iff.mp hpairs
    cases hfallback : a.fallback with
    | none =>
      rw [hfallback] at h
      cases h
    | some f =>
      rw [hfallback] at h
      dsimp only at h
      rw [adopted_eq] at h
      cases hcheck : t.checkAdoption (a.arm.construct [] f).name a.origin.location []
          (armSlots a.arm pairs (some f)) with
      | error fault =>
        rw [hcheck] at h
        cases h
      | ok =>
        cases hall : allocAll a.arm a.origin t pairs f with
        | error fault =>
          rw [hcheck, hall] at h
          cases h
        | ok =>
          rw [hcheck, hall] at h
          cases h
          refine ⟨pairs, ?_, hclauses, rfl, (checkAdoption_eq_ok_iff.mp hcheck).1, hall⟩
          rintro rfl
          exact hempty (by rw [hclauses]; rfl)
  · rintro ⟨pairs, hne, hclauses, hfallback, hadoptable, hall⟩
    have hempty : ¬a.clauses.isEmpty = true := by simpa [hclauses, answered] using hne
    rw [if_neg hempty]
    refine bind_eq_ok_iff.mpr ⟨pairs, completeFrom_eq_ok_iff.mpr hclauses, ?_⟩
    rw [hfallback]
    dsimp only
    rw [adopted_eq, checkAdoption_eq_ok_iff.mpr ⟨hadoptable, fun _ _ => not_mem_nil⟩]
    dsimp only
    rw [hall]
    rfl

theorem build_owned (h : t.Owned) (hb : a.build t = .ok (t', id, fallback)) : t'.Owned := by
  obtain ⟨pairs, -, -, -, hadoptable, hall⟩ := build_eq_ok_iff.mp hb
  obtain ⟨t₁, hall', hpending, -⟩ := exists_allocAll (S := []) a.origin ⟨h, hadoptable⟩
  cases hall.symm.trans hall'
  exact hpending.owned

theorem allocAll_of_build (hb : a.build t = .ok (t', id, fallback)) :
    ∃ pairs t₁ ids, a.clauses = answered pairs ∧ a.fallback = some fallback ∧
      allocClauses a.arm a.origin t pairs = .ok (t₁, ids) ∧
      t₁.alloc (a.arm.construct ids fallback) a.origin = .ok (t', id) := by
  obtain ⟨pairs, -, hclauses, hfallback, -, hall⟩ := build_eq_ok_iff.mp hb
  obtain ⟨⟨t₁, ids⟩, hids, hconstruct⟩ := bind_eq_ok_iff.mp hall
  exact ⟨pairs, t₁, ids, hclauses, hfallback, hids, hconstruct⟩

end

/-! ### Calls -/

/-- A call that collects something for a case or a match. -/
inductive Entry where
  | condition (id : ElementId)
  | action (id : ElementId)
  | clause (condition action : ElementId)
  | fallback (id : ElementId)

/-- What is collected after a call.  One that is refused changes nothing. -/
def enter (a : Alternatives) : Entry → Alternatives
  | .condition condition => a.addCondition condition
  | .action action => (a.addAction action).toOption.getD a
  | .clause condition action => a.addClause condition action
  | .fallback action => (a.setFallback action).toOption.getD a

/-- What calls collect for a case or a match of which nothing was known. -/
def ofEntries (arm : Arm) (origin : Origin) (calls : List Entry) : Alternatives :=
  calls.foldl enter { arm, origin }

namespace Entry

def opens : Entry → Bool
  | condition _ | clause .. => true
  | action _ | fallback _ => false

def given? : Entry → Option ElementId
  | fallback id => some id
  | _ => none

/-- The action of a clause without one: the first that is given, up to the next clause. -/
def action? : List Entry → Option ElementId
  | action id :: _ => some id
  | fallback _ :: calls => action? calls
  | _ => none

def clauses : List Entry → List (ElementId × Option ElementId)
  | [] => []
  | condition id :: calls => (id, action? calls) :: clauses calls
  | clause c x :: calls => (c, some x) :: clauses calls
  | action _ :: calls | fallback _ :: calls => clauses calls

def fallback? (calls : List Entry) : Option ElementId := calls.findSome? given?

/-- What calls name for clauses and for the fallback, each with the role that it needs. -/
def parts (arm : Arm) (calls : List Entry) : List (Role × ElementId) :=
  (clauses calls).flatMap (fun c => (.expression, c.1) :: c.2.toList.map (arm.actionRole, ·)) ++
    (fallback? calls).toList.map (arm.actionRole, ·)

/-- Behind every condition comes an action, before the next clause. -/
def Answered (calls : List Entry) : Prop :=
  ∀ before id behind, calls = before ++ condition id :: behind →
    ∃ others x rest, behind = others ++ action x :: rest ∧ ∀ e ∈ others, e.opens = false

variable {e : Entry} {calls : List Entry}

theorem length_clauses (calls : List Entry) : (clauses calls).length = calls.countP opens := by
  induction calls with
  | nil => rfl
  | cons e calls ih => cases e <;> simp [clauses, opens, ih, countP_cons]

theorem fallback?_cons (e : Entry) (calls : List Entry) :
    fallback? (e :: calls) = e.given?.or (fallback? calls) := by
  cases e <;> rfl

theorem exists_fallback_iff : (∃ id, fallback id ∈ calls) ↔ ∃ id, fallback? calls = some id := by
  rw [← Option.isSome_iff_exists, fallback?, findSome?_isSome_iff]
  constructor
  · rintro ⟨id, hid⟩
    exact ⟨_, hid, rfl⟩
  · rintro ⟨e, he, hgiven⟩
    cases e with
    | fallback id => exact ⟨id, he⟩
    | condition | action | clause => cases hgiven

theorem isSome_action?_iff : (action? calls).isSome = true ↔
    ∃ others x rest, calls = others ++ action x :: rest ∧ ∀ e ∈ others, e.opens = false := by
  constructor
  · intro h
    induction calls with
    | nil => cases h
    | cons e calls ih =>
      cases e with
      | action x => exact ⟨[], x, calls, rfl, nofun⟩
      | fallback f =>
        obtain ⟨others, x, rest, rfl, hothers⟩ := ih h
        exact ⟨fallback f :: others, x, rest, rfl, forall_mem_cons.mpr ⟨rfl, hothers⟩⟩
      | condition | clause => cases h
  · rintro ⟨others, x, rest, rfl, hothers⟩
    induction others with
    | nil => rfl
    | cons e others ih =>
      obtain ⟨he, hrest⟩ := forall_mem_cons.mp hothers
      cases e with
      | action => rfl
      | fallback => exact ih hrest
      | condition | clause => cases he

theorem answered_cons_iff : Answered (e :: calls) ↔
    (∀ id, e = condition id → (action? calls).isSome = true) ∧ Answered calls := by
  constructor
  · intro h
    refine ⟨?_, fun before id behind heq => h (e :: before) id behind (by rw [heq]; rfl)⟩
    rintro id rfl
    exact isSome_action?_iff.mpr (h [] id calls rfl)
  · rintro ⟨hfirst, hrest⟩ before id behind heq
    cases before with
    | nil =>
      cases heq
      exact isSome_action?_iff.mp (hfirst id rfl)
    | cons _ before => exact hrest before id behind (List.cons.inj heq).2

theorem answered_iff : Answered calls ↔ ∃ pairs, clauses calls = answered pairs := by
  induction calls with
  | nil => exact iff_of_true (by rintro (_ | _) _ _ h <;> cases h) ⟨[], rfl⟩
  | cons e calls ih =>
    rw [answered_cons_iff, ih]
    cases e with
    | condition id =>
      constructor
      · rintro ⟨hfirst, pairs, hpairs⟩
        obtain ⟨x, hx⟩ := Option.isSome_iff_exists.mp (hfirst id rfl)
        exact ⟨(id, x) :: pairs, by rw [clauses, hx, hpairs]; rfl⟩
      · rintro ⟨_ | ⟨p, pairs⟩, hpairs⟩
        · cases hpairs
        · obtain ⟨hp, hrest⟩ := List.cons.inj hpairs
          exact ⟨fun _ _ => congrArg (fun c => c.2.isSome) hp, pairs, hrest⟩
    | clause c x =>
      refine ⟨fun ⟨_, pairs, hpairs⟩ => ⟨(c, x) :: pairs, by rw [clauses, hpairs]; rfl⟩, ?_⟩
      rintro ⟨_ | ⟨p, pairs⟩, hpairs⟩
      · cases hpairs
      · exact ⟨nofun, pairs, (List.cons.inj hpairs).2⟩
    | action | fallback => exact ⟨fun h => h.2, fun h => ⟨nofun, h⟩⟩

theorem parts_of_answered {pairs : List (ElementId × ElementId)} {f : ElementId}
    (hpairs : clauses calls = answered pairs) (hfallback : fallback? calls = some f) (arm : Arm) :
    parts arm calls = armSlots arm pairs (some f) := by
  rw [parts, armSlots, hpairs, hfallback, answered, flatMap_map]
  rfl

end Entry

/-- The clauses once the action of the last one is known, if it waits for one. -/
def withAction (clauses : List (ElementId × Option ElementId)) (action : Option ElementId) :
    List (ElementId × Option ElementId) :=
  match clauses.getLast? with
  | some (condition, none) => clauses.dropLast ++ [(condition, action)]
  | _ => clauses

section

variable (clauses : List (ElementId × Option ElementId)) (c x : ElementId) (action : Option ElementId)

@[simp] theorem withAction_concat_none :
    withAction (clauses ++ [(c, none)]) action = clauses ++ [(c, action)] := by
  simp [withAction]

@[simp] theorem withAction_concat_some :
    withAction (clauses ++ [(c, some x)]) action = clauses ++ [(c, some x)] := by
  simp [withAction]

@[simp] theorem withAction_none : withAction clauses none = clauses := by
  rcases eq_nil_or_concat clauses with rfl | ⟨clauses, ⟨c, _ | x⟩, rfl⟩ <;> simp [withAction]

@[simp] theorem withAction_withAction_some :
    withAction (withAction clauses (some x)) action = withAction clauses (some x) := by
  rcases eq_nil_or_concat clauses with rfl | ⟨clauses, ⟨c, _ | y⟩, rfl⟩ <;> simp [withAction]

end

variable {arm : Arm} {origin : Origin}

theorem enter_action (a : Alternatives) (x : ElementId) :
    a.enter (.action x) = { a with clauses := withAction a.clauses (some x) } := by
  obtain ⟨arm, origin, clauses, fallback⟩ := a
  rcases eq_nil_or_concat clauses with rfl | ⟨clauses, ⟨c, _ | y⟩, rfl⟩ <;>
    simp [enter, addAction, withAction, pure, Except.pure, Except.toOption]

theorem enter_fallback (a : Alternatives) (x : ElementId) :
    a.enter (.fallback x) = { a with fallback := a.fallback.or (some x) } := by
  obtain ⟨arm, origin, clauses, _ | fallback⟩ := a <;> rfl

theorem foldl_enter (a : Alternatives) (calls : List Entry) : calls.foldl enter a =
    { a with
      clauses := withAction a.clauses (Entry.action? calls) ++ Entry.clauses calls
      fallback := a.fallback.or (Entry.fallback? calls) } := by
  induction calls generalizing a with
  | nil => simp [Entry.action?, Entry.clauses, Entry.fallback?]
  | cons e calls ih =>
    rw [foldl_cons, ih, Entry.fallback?_cons]
    cases e with
    | condition c => simp [enter, addCondition, Entry.action?, Entry.clauses, Entry.given?]
    | action x => simp [enter_action, Entry.action?, Entry.clauses, Entry.given?]
    | clause c x => simp [enter, addClause, Entry.action?, Entry.clauses, Entry.given?]
    | fallback x => simp [enter_fallback, Entry.action?, Entry.clauses, Entry.given?]

theorem ofEntries_eq (arm : Arm) (origin : Origin) (calls : List Entry) :
    ofEntries arm origin calls = ⟨arm, origin, Entry.clauses calls, Entry.fallback? calls⟩ := by
  simp [ofEntries, foldl_enter, withAction]

theorem exists_build_iff {t : Tree} (h : t.Owned) (calls : List Entry) :
    (∃ r, (ofEntries arm origin calls).build t = .ok r) ↔ (∃ e ∈ calls, e.opens = true) ∧
      Entry.Answered calls ∧ (∃ id, Entry.fallback id ∈ calls) ∧ t.Adoptable (Entry.parts arm calls) := by
  rw [ofEntries_eq, Entry.answered_iff, Entry.exists_fallback_iff, ← countP_pos_iff,
    ← Entry.length_clauses, length_pos_iff]
  constructor
  · rintro ⟨⟨t', id, f⟩, hbuild⟩
    obtain ⟨pairs, hne, hpairs, hfallback, hadoptable, -⟩ := build_eq_ok_iff.mp hbuild
    refine ⟨?_, ⟨pairs, hpairs⟩, ⟨f, hfallback⟩, Entry.parts_of_answered hpairs hfallback arm ▸ hadoptable⟩
    rw [show Entry.clauses calls = answered pairs from hpairs]
    simpa [answered] using hne
  · rintro ⟨hne, ⟨pairs, hpairs⟩, ⟨f, hfallback⟩, hadoptable⟩
    rw [Entry.parts_of_answered hpairs hfallback] at hadoptable
    obtain ⟨t', hall, -⟩ := exists_allocAll (S := []) origin ⟨h, hadoptable⟩
    have hpairs' : pairs ≠ [] := by
      rintro rfl
      exact hne hpairs
    exact ⟨_, build_eq_ok_iff.mpr ⟨pairs, hpairs', hpairs, hfallback, hadoptable, hall⟩⟩

end Alternatives

/-! ### The steps of lowering -/

namespace Lower

theorem alloc_apply (k : Kind) (o : Origin) (b : Builder) : alloc k o b = match b.tree.alloc k o with
    | .ok (tree, id) => .ok id { b with tree }
    | .error fault => .error (.rejected fault) b := by
  have heq : alloc k o b = (match b.tree.alloc k o with
      | .ok (tree, id) => do
        modify fun b => { b with tree }
        return id
      | .error fault => throw (.rejected fault) : Lower ElementId) b := rfl
  rw [heq]
  rcases b.tree.alloc k o with _ | ⟨_, _⟩ <;> rfl

theorem build_apply (a : Alternatives) (b : Builder) : build a b = match a.build b.tree with
    | .ok (tree, id, fallback) => .ok id { b with
        tree
        journal := b.journal.push (.alternativesBuilt (a.arm.construct [] fallback).name id fallback) }
    | .error fault => .error (.construction fault) b := by
  have heq : build a b = (match a.build b.tree with
      | .ok (tree, id, fallback) => do
        let name := (a.arm.construct [] fallback).name
        modify fun b => { b with tree, journal := b.journal.push (.alternativesBuilt name id fallback) }
        return id
      | .error fault => throw (.construction fault) : Lower ElementId) b := rfl
  rw [heq]
  rcases a.build b.tree with _ | ⟨_, _, _⟩ <;> rfl

theorem build_cases (a : Alternatives) (b : Builder) : match build a b with
    | .ok id b' => ∃ fallback, a.build b.tree = .ok (b'.tree, id, fallback)
    | .error _ b' => b' = b := by
  rw [build_apply]
  rcases a.build b.tree with _ | ⟨t, id, fallback⟩
  · rfl
  · exact ⟨fallback, rfl⟩

end Lower

open Alternatives

/-- What calls ask for is built exactly if there is a clause, every condition has an action, there is a
fallback, and all of these can be adopted.  If so, the clauses and the construct are added and take their
parts, and nothing else changes.  If not, nothing changes, and the check before the first change is the only
one that can fail. -/
theorem build_all_or_nothing {t : Tree} (h : t.Owned) (arm : Arm) (origin : Origin) (calls : List Entry) :
    ((∃ r, (ofEntries arm origin calls).build t = .ok r) ↔
      (∃ e ∈ calls, e.opens = true) ∧ Entry.Answered calls ∧ (∃ id, Entry.fallback id ∈ calls) ∧
        t.Adoptable (Entry.parts arm calls)) ∧
    (∀ t' id fallback, (ofEntries arm origin calls).build t = .ok (t', id, fallback) →
      ∃ pairs, Entry.clauses calls = answered pairs ∧ pairs.length = calls.countP Entry.opens ∧
        Entry.fallback? calls = some fallback ∧ id = t.size + pairs.length ∧
        Built arm origin pairs fallback t t') ∧
    (∀ b : Builder, b.tree = t → match Lower.build (ofEntries arm origin calls) b with
      | .ok id b' => ∃ fallback, (ofEntries arm origin calls).build t = .ok (b'.tree, id, fallback)
      | .error _ b' => b' = b) ∧
    ∀ name location pairs fallback, t.checkAdoption name location [] (adopted arm pairs fallback) = .ok ⟨⟩ →
      ∃ r, allocAll arm origin t pairs fallback = .ok r := by
  refine ⟨exists_build_iff h calls, ?_, ?_, ?_⟩
  · intro t' id f hbuild
    rw [ofEntries_eq] at hbuild
    obtain ⟨pairs, -, hpairs, hfallback, hadoptable, hall⟩ := build_eq_ok_iff.mp hbuild
    obtain ⟨t₁, hall', -, hbuilt⟩ := exists_allocAll (S := []) origin ⟨h, hadoptable⟩
    cases hall.symm.trans hall'
    refine ⟨pairs, hpairs, ?_, hfallback, rfl, hbuilt⟩
    have hlength := congrArg List.length (show Entry.clauses calls = answered pairs from hpairs)
    rw [Entry.length_clauses, answered, List.length_map] at hlength
    exact hlength.symm
  · rintro b rfl
    exact Lower.build_cases _ b
  · intro name location pairs f hcheck
    rw [adopted_eq] at hcheck
    obtain ⟨t', hall, -⟩ := exists_allocAll (S := []) origin ⟨h, (checkAdoption_eq_ok_iff.mp hcheck).1⟩
    exact ⟨_, hall⟩

def refusedEntries : List Entry := [.fallback 2, .action 1, .condition 0, .fallback 0, .action 1, .action 2]

theorem build_refusedEntries : ∃ t t', t.Owned ∧
    (ofEntries .statement .synthetic refusedEntries).build t = .ok (t', 4, 2) ∧
      ∃ pairs, Entry.clauses refusedEntries = answered pairs ∧
        pairs.length = refusedEntries.countP Entry.opens ∧ Entry.fallback? refusedEntries = some 2 ∧
        4 = t.size + pairs.length ∧ Built .statement .synthetic pairs 2 t t' := by
  have hfree : ∀ {t : Tree} {k : Kind}, t.Owned → k.slots = [] → (t.adopt k .synthetic).Owned :=
    fun h hk => h.adopt (hk ▸ ⟨nofun, List.nodup_nil⟩) _
  have howned := hfree (hfree (hfree (empty_owned "refused") (k := .constant .null) rfl)
    (k := .block []) rfl) (k := .block []) rfl
  have hbuild : ∃ t', (ofEntries .statement .synthetic refusedEntries).build
      ((((empty "refused").adopt (.constant .null) .synthetic).adopt (.block []) .synthetic).adopt
        (.block []) .synthetic) = Except.ok (t', 4, 2) := ⟨_, rfl⟩
  obtain ⟨t', hbuild⟩ := hbuild
  exact ⟨_, t', howned, hbuild,
    (build_all_or_nothing howned .statement .synthetic refusedEntries).2.1 t' 4 2 hbuild⟩

end Clausal
