import Clausal.Proofs.Tree.Ownership

/-! # Replacing, annotating and rooting keep ownership

In an owned tree `checkReplacement` lets `new` take the place `i` of `owner` from `old` exactly when the two
are `Exchangeable` there (`checkReplacement_eq_some_iff`): the place holds `old` and accepts `new`, and `new`
is free, not the root, and not `owner` or above it. -/

namespace Clausal

open List Option

theorem Role.accepts_setSlot (role : Role) (k : Kind) (i : Nat) (c : ElementId) :
    role.accepts (k.setSlot i c) = role.accepts k := by
  unfold Kind.setSlot
  split <;> (try split_ifs) <;> cases role <;> rfl

namespace Tree

variable {t : Tree} {k : Kind} {owner old new c : ElementId} {i : Nat} {role : Role} {l : List ElementId}

/-- The place `i` of `owner` can be taken from `old` and given to `new`. -/
structure Exchangeable (t : Tree) (owner old new : ElementId) (i : Nat) : Prop where
  place : ∃ k role kn, t.kind? owner = some k ∧ k.slots[i]? = some (role, old) ∧
    t.kind? new = some kn ∧ role.accepts kn = true
  ne : old ≠ new
  free : t.parent new = none
  not_root : t.root ≠ some new
  not_owner : owner ≠ new
  not_above : new ∉ t.ancestors owner

theorem mem_foldl_roles {slots : List (Role × ElementId)} {seen : List Role}
    (h : role ∈ seen ∨ ∃ c, (role, c) ∈ slots) :
    role ∈ slots.foldl (fun seen s => if seen.contains s.1 then seen else seen ++ [s.1]) seen := by
  induction slots generalizing seen with
  | nil => simpa using h
  | cons s slots ih =>
    rw [foldl_cons]
    apply ih
    rcases h with h | ⟨c, h⟩
    · left
      split_ifs
      · exact h
      · exact mem_append_left _ h
    · rcases mem_cons.mp h with rfl | h
      · left
        split_ifs with hseen
        · simpa using hseen
        · exact mem_append_right _ (.head _)
      · exact Or.inr ⟨c, h⟩

theorem mem_roles {s : Role × ElementId} (h : s ∈ k.slots) : s.1 ∈ k.roles :=
  mem_foldl_roles (Or.inr ⟨s.2, h⟩)

/-! ### When a place can be given away -/

theorem checkReplacement_cases {place : Option Nat} (h : t.checkReplacement owner old new = .ok place) :
    (∃ k role kn, ∃ i : Nat, t.kind? owner = some k ∧ k.slots[i]? = some (role, old) ∧ t.kind? new = some kn ∧
        role.accepts kn = true ∧ old = new ∧ place = none) ∨
      ∃ i, t.Exchangeable owner old new i ∧ place = some i := by
  unfold checkReplacement at h
  obtain ⟨o, ho, h⟩ := bind_eq_ok_iff.mp h
  obtain ⟨d, hd, h⟩ := bind_eq_ok_iff.mp h
  obtain ⟨n, hn, h⟩ := bind_eq_ok_iff.mp h
  rw [get_eq_ok_iff] at ho hd hn
  dsimp only at h
  split at h
  · cases h
  cases hfind : o.kind.slots.findIdx? (·.2 = old) with
  | none =>
    rw [hfind] at h
    cases h
  | some j =>
    obtain ⟨hlt, hold, -⟩ := findIdx?_eq_some_iff_getElem.mp hfind
    have hold : o.kind.slots[j].2 = old := by simpa using hold
    have hslot : o.kind.slots[j]? = some (o.kind.slots[j].1, old) := by
      rw [getElem?_eq_getElem hlt, ← hold]
    simp only [hfind, getElem?_eq_getElem hlt, map_some, getD_some] at h
    by_cases hacc : (!o.kind.slots[j].1.accepts n.kind) = true
    · rw [if_pos hacc] at h
      cases h
    have haccepts : o.kind.slots[j].1.accepts n.kind = true := by simpa using hacc
    rw [if_neg hacc] at h
    by_cases hne : old = new
    · rw [if_pos hne] at h
      cases h
      exact .inl ⟨o.kind, _, n.kind, j, kind?_of_element? ho, hslot, kind?_of_element? hn, haccepts, hne, rfl⟩
    rw [if_neg hne] at h
    cases hp : n.parent with
    | some p =>
      rw [hp] at h
      cases h
    | none =>
      simp only [hp] at h
      split_ifs at h with hcycle
      cases h
      simp only [Bool.or_eq_true, decide_eq_true_eq, contains_eq_mem, not_or] at hcycle
      refine .inr ⟨j, ⟨⟨o.kind, _, n.kind, kind?_of_element? ho, hslot, kind?_of_element? hn, haccepts⟩, hne, ?_,
        hcycle.1.1, hcycle.1.2, hcycle.2⟩, rfl⟩
      rw [parent_of_element? hn, hp]

theorem exchangeable_of_checkReplacement (h : t.checkReplacement owner old new = .ok (some i)) :
    t.Exchangeable owner old new i := by
  rcases checkReplacement_cases h with ⟨_, _, _, _, _, _, _, _, _, hplace⟩ | ⟨j, hex, hplace⟩
  · cases hplace
  · cases hplace
    exact hex

theorem checkReplacement_eq_of_place (hown : t.Owned) {owner old new : ElementId} {k kn : Kind} {i : Nat}
    (hk : t.kind? owner = some k) (hslot : k.slots[i]? = some (role, old)) (hkn : t.kind? new = some kn)
    (hacc : role.accepts kn = true) :
    t.checkReplacement owner old new =
      if old = new then .ok none
      else match t.parent new with
        | some holder => .error (.stillOwned new holder)
        | none =>
          if t.root = some new || owner = new || (t.ancestors owner).contains new then .error (.cycle owner new)
          else .ok (some i) := by
  obtain ⟨o, ho, rfl⟩ := map_eq_some_iff.mp hk
  obtain ⟨n, hn, rfl⟩ := map_eq_some_iff.mp hkn
  have hmem : (role, old) ∈ o.kind.slots := mem_of_getElem? hslot
  obtain ⟨kd, hkd, -⟩ := hown.fits owner o.kind _ hk hmem
  obtain ⟨d, hd, -⟩ := map_eq_some_iff.mp hkd
  obtain ⟨hlt, hget⟩ := List.getElem?_eq_some_iff.mp hslot
  have hnodup : o.kind.children.Nodup := by
    have := hown.nodup_children owner
    rwa [children_of_kind? hk] at this
  have hfind : o.kind.slots.findIdx? (·.2 = old) = some i := by
    rw [findIdx?_eq_some_iff_getElem]
    refine ⟨hlt, by simp [hget], ?_⟩
    intro j hji
    have hne : o.kind.children[j]? ≠ o.kind.children[i]? :=
      nodup_iff_getElem?_ne_getElem?.mp hnodup j i hji (by simpa [Kind.children] using hlt)
    intro hj
    apply hne
    simp only [Kind.children, getElem?_map, getElem?_eq_getElem hlt,
      getElem?_eq_getElem (lt_trans hji hlt), map_some, hget]
    rw [of_decide_eq_true hj]
  have hroles : (!o.kind.roles.isEmpty && !o.kind.roles.any (·.accepts n.kind)) = false := by
    have : o.kind.roles.any (·.accepts n.kind) = true := List.any_eq_true.mpr ⟨role, mem_roles hmem, hacc⟩
    rw [this]
    simp
  unfold checkReplacement
  rw [get_eq_ok_iff.mpr ho, get_eq_ok_iff.mpr hd, get_eq_ok_iff.mpr hn, parent_of_element? hn]
  simp only [bind, Except.bind, hroles, hfind, hslot, map_some, getD_some, hacc, Bool.not_true,
    Bool.false_eq_true, if_false]
  rfl

theorem checkReplacement_of_exchangeable (hown : t.Owned) (h : t.Exchangeable owner old new i) :
    t.checkReplacement owner old new = .ok (some i) := by
  obtain ⟨⟨k, role, kn, hk, hslot, hkn, hacc⟩, hne, hfree, hroot, howner, habove⟩ := h
  rw [checkReplacement_eq_of_place hown hk hslot hkn hacc, if_neg hne, hfree]
  simp [hroot, howner, habove]

/-! ### What a replacement changes -/

@[simp] theorem size_splice (owner old new : ElementId) (i : Nat) :
    (t.splice owner old new i).size = t.size := by
  unfold splice
  cases t.kind? owner <;> simp

@[simp] theorem root_splice (owner old new : ElementId) (i : Nat) :
    (t.splice owner old new i).root = t.root := by
  unfold splice
  cases t.kind? owner <;> simp

theorem kind?_splice (hk : t.kind? owner = some k) (old new : ElementId) (i : Nat) (x : ElementId) :
    (t.splice owner old new i).kind? x =
      if x = owner then some (k.setSlot i new) else t.kind? x := by
  have hlt := lt_size_of_kind? hk
  unfold splice
  simp only [hk, kind?_setParent, kind?_setKind]
  by_cases hx : x = owner
  · subst hx
    simp [hlt]
  · simp [hx]

theorem parent_splice (hold : old < t.size) (hnew : new < t.size) (i : Nat) (x : ElementId) :
    (t.splice owner old new i).parent x =
      if x = old then none else if x = new then some owner else t.parent x := by
  obtain ⟨s, hsplice, hsize, hparent⟩ : ∃ s : Tree,
      t.splice owner old new i = (s.setParent new (some owner)).setParent old none ∧ s.size = t.size ∧
        s.parent x = t.parent x := by
    cases hk : t.kind? owner with
    | none => exact ⟨t, by rw [splice, hk], rfl, rfl⟩
    | some k => exact ⟨t.setKind owner (k.setSlot i new), by rw [splice, hk], by simp, by simp⟩
  rw [hsplice, parent_setParent, parent_setParent, size_setParent, hsize, hparent]
  by_cases h1 : x = old
  · subst h1
    simp [hold]
  · by_cases h2 : x = new
    · subst h2
      simp [h1, hnew]
    · simp [h1, h2]

theorem children_splice (hk : t.kind? owner = some k) (old new : ElementId) (i : Nat) (x : ElementId) :
    (t.splice owner old new i).children x =
      if x = owner then k.children.set i new else t.children x := by
  unfold children
  rw [kind?_splice hk]
  split_ifs
  · exact Kind.children_setSlot k i new
  · rfl

theorem set_map_eq (hl : l.Nodup) (hi : l[i]? = some old) (σ : ElementId → ElementId) :
    (l.map σ).set i new = l.map fun c => if c = old then new else σ c := by
  obtain ⟨hlt, -⟩ := List.getElem?_eq_some_iff.mp hi
  apply ext_getElem?
  intro m
  rw [getElem?_set, getElem?_map, getElem?_map, length_map]
  by_cases hm : i = m
  · subst hm
    rw [if_pos rfl, if_pos hlt, hi, map_some, if_pos rfl]
  · rw [if_neg hm]
    cases hc : l[m]? with
    | none => rfl
    | some c =>
      have hne : c ≠ old := by
        rintro rfl
        exact hm ((getElem?_inj hlt hl).mp (hi.trans hc.symm))
      rw [map_some, map_some, if_neg hne]

theorem set_eq_map (hl : l.Nodup) (hi : l[i]? = some old) :
    l.set i new = l.map fun c => if c = old then new else c := by
  simpa using set_map_eq hl hi id

theorem mem_set_iff_of_nodup (hl : l.Nodup) (hi : l[i]? = some old) :
    c ∈ l.set i new ↔ c = new ∨ c ∈ l ∧ c ≠ old := by
  rw [set_eq_map hl hi, List.mem_map]
  constructor
  · rintro ⟨x, hx, rfl⟩
    split_ifs with h
    · exact .inl rfl
    · exact .inr ⟨hx, h⟩
  · rintro (rfl | ⟨hc, hne⟩)
    · exact ⟨old, mem_of_getElem? hi, if_pos rfl⟩
    · exact ⟨c, hc, if_neg hne⟩

/-! ### Ownership -/

theorem below_splice (hold : old < t.size) (hnew : new < t.size) (hno : new ≠ owner)
    (hbelow : ¬ t.Below owner new) {a : ElementId} (hb : (t.splice owner old new i).Below c a) :
    t.Below c a ∨ (c = new ∨ t.Below c new) ∧ (owner = a ∨ t.Below owner a) := by
  have hedge : ∀ {x p}, (t.splice owner old new i).parent x = some p →
      t.parent x = some p ∨ x = new ∧ p = owner := by
    intro x p hp
    rw [parent_splice hold hnew] at hp
    split_ifs at hp with h1 h2
    · exact Or.inr ⟨h2, (Option.some.inj hp).symm⟩
    · exact Or.inl hp
  induction hb with
  | single hp =>
    rcases hedge hp with hp | ⟨rfl, rfl⟩
    · exact Or.inl (Relation.TransGen.single hp)
    · exact Or.inr ⟨Or.inl rfl, Or.inl rfl⟩
  | @tail b a _ hp ih =>
    rcases hedge hp with hp | ⟨rfl, rfl⟩
    · rcases ih with ih | ⟨hc, rfl | ho⟩
      · exact Or.inl (ih.tail hp)
      · exact Or.inr ⟨hc, Or.inr (Relation.TransGen.single hp)⟩
      · exact Or.inr ⟨hc, Or.inr (ho.tail hp)⟩
    · rcases ih with ih | ⟨_, rfl | ho⟩
      · exact Or.inr ⟨Or.inr ih, Or.inl rfl⟩
      · exact absurd rfl hno
      · exact absurd ho hbelow

theorem Owned.splice (h : t.Owned) (hex : t.Exchangeable owner old new i) :
    (t.splice owner old new i).Owned := by
  obtain ⟨⟨k, role, kn, hk, hslot, hkn, hacc⟩, hne, hfree, hroot, howner, habove⟩ := hex
  have hchild : k.children[i]? = some old := by
    simp [Kind.children, getElem?_map, hslot]
  have hold : t.parent old = some owner := h.parent_of_kind? hk (mem_of_getElem? hchild)
  have hlold := lt_size_of_parent hold
  have hlnew := lt_size_of_kind? hkn
  have hbelow : ¬ t.Below owner new := fun hb => habove (h.mem_ancestors_iff.mpr hb)
  have hnodup : k.children.Nodup := by
    have := h.nodup_children owner
    rwa [children_of_kind? hk] at this
  have hnewmem : ∀ x, new ∉ t.children x := by
    intro x hm
    rw [h.mem_children_iff, hfree] at hm
    cases hm
  rw [owned_iff]
  refine ⟨?_, ?_, ?_, ?_, ?_⟩
  · intro x kx s hkx hs
    have hfits : ∃ k', t.kind? s.2 = some k' ∧ s.1.accepts k' = true := by
      rw [kind?_splice hk] at hkx
      split_ifs at hkx with hx
      · cases hkx
        rcases Kind.mem_slots_setSlot hs with ⟨old', hs', hnew⟩ | hs
        · rw [hslot] at hs'
          obtain ⟨hrole, -⟩ := Prod.mk.inj (Option.some.inj hs')
          exact ⟨kn, by rw [hnew, hkn], by rw [← hrole]; exact hacc⟩
        · exact h.fits owner k s hk hs
      · exact h.fits x kx s hkx hs
    obtain ⟨k', hk', hacc'⟩ := hfits
    rw [kind?_splice hk]
    by_cases hs : s.2 = owner
    · rw [hs, hk] at hk'
      cases hk'
      refine ⟨k.setSlot i new, by rw [if_pos hs], ?_⟩
      rw [Role.accepts_setSlot]
      exact hacc'
    · exact ⟨k', by rw [if_neg hs, hk'], hacc'⟩
  · intro x c
    rw [children_splice hk, parent_splice hlold hlnew]
    by_cases hx : x = owner
    · subst hx
      rw [if_pos rfl, mem_set_iff_of_nodup hnodup hchild]
      by_cases h1 : c = old
      · subst h1
        simp [hne]
      · by_cases h2 : c = new
        · rw [if_neg h1, if_pos h2]
          exact iff_of_true (Or.inl h2) rfl
        · rw [if_neg h1, if_neg h2, ← h.mem_children_iff, children_of_kind? hk]
          simp [h1, h2]
    · rw [if_neg hx]
      by_cases h1 : c = old
      · subst h1
        rw [if_pos rfl, h.mem_children_iff, hold]
        exact iff_of_false (fun e => hx (Option.some.inj e).symm) (by simp)
      · by_cases h2 : c = new
        · subst h2
          rw [if_neg h1, if_pos rfl]
          exact iff_of_false (hnewmem x) (fun e => hx (Option.some.inj e).symm)
        · rw [if_neg h1, if_neg h2, h.mem_children_iff]
  · intro x
    rw [children_splice hk]
    split_ifs with hx
    · refine hnodup.set ?_
      have := hnewmem owner
      rwa [children_of_kind? hk] at this
    · exact h.nodup_children x
  · intro c hb
    rcases below_splice hlold hlnew (Ne.symm howner) hbelow hb with hb | ⟨hc, ho⟩
    · exact h.acyclic c hb
    · rcases hc with rfl | hc <;> rcases ho with ho | ho
      · exact howner ho
      · exact hbelow ho
      · exact hbelow (ho ▸ hc)
      · exact hbelow (ho.trans hc)
  · intro r hr
    rw [root_splice] at hr
    obtain ⟨hlt, hp⟩ := h.root_free r hr
    refine ⟨by rw [size_splice]; exact hlt, ?_⟩
    rw [parent_splice hlold hlnew]
    split_ifs with h1 h2
    · rfl
    · exact absurd (h2 ▸ hr) hroot
    · exact hp

theorem Owned.replace (h : t.Owned) {t' : Tree} (hr : t.replace owner old new = .ok t') : t'.Owned := by
  unfold Tree.replace at hr
  obtain ⟨place, hplace, hr⟩ := bind_eq_ok_iff.mp hr
  cases place with
  | none =>
    cases hr
    exact h
  | some i =>
    cases hr
    exact h.splice (exchangeable_of_checkReplacement hplace)

/-! ### Marks and the root -/

theorem Owned.setKind (h : t.Owned) {id : ElementId} {k' : Kind} (hk : t.kind? id = some k)
    (hslots : k'.slots = k.slots) (hacc : ∀ role : Role, role.accepts k' = role.accepts k) :
    (t.setKind id k').Owned := by
  have hlt := lt_size_of_kind? hk
  have hkind : ∀ x, (t.setKind id k').kind? x = if x = id then some k' else t.kind? x := by
    intro x
    rw [kind?_setKind]
    by_cases hx : x = id
    · subst hx
      simp [hlt]
    · simp [hx]
  have hchildren : ∀ x, (t.setKind id k').children x = t.children x := by
    intro x
    unfold children
    rw [hkind]
    split_ifs with hx
    · rw [hx, hk]
      simp [Kind.children, hslots]
    · rfl
  have hbelow : (t.setKind id k').Below = t.Below := by
    unfold Below
    simp only [parent_setKind]
  rw [owned_iff]
  refine ⟨?_, ?_, ?_, ?_, ?_⟩
  · intro x kx s hkx hs
    have hfits : ∃ ks, t.kind? s.2 = some ks ∧ s.1.accepts ks = true := by
      rw [hkind] at hkx
      split_ifs at hkx with hx
      · cases hkx
        rw [hslots] at hs
        exact h.fits id k s hk hs
      · exact h.fits x kx s hkx hs
    obtain ⟨ks, hks, haccs⟩ := hfits
    rw [hkind]
    by_cases hs : s.2 = id
    · rw [hs, hk] at hks
      cases hks
      exact ⟨k', by rw [if_pos hs], by rw [hacc]; exact haccs⟩
    · exact ⟨ks, by rw [if_neg hs, hks], haccs⟩
  · intro x c
    rw [hchildren, parent_setKind, h.mem_children_iff]
  · intro x
    rw [hchildren]
    exact h.nodup_children x
  · rw [hbelow]
    exact h.acyclic
  · intro r hr
    rw [size_setKind, parent_setKind]
    exact h.root_free r hr

end Tree

end Clausal
