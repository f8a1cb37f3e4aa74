import Clausal.Tree.Basic
import Mathlib

/-! # Reading a tree after a write

Every edit of a tree is made of four writes:  `setParent` records an owner, `setKind` changes a kind, `push`
stores a new element and a new root is a change of one field.  Everything that reads a tree goes through
`element?`. -/

namespace Clausal

open List

theorem bind_eq_ok_iff {ε α β : Type} {x : Except ε α} {f : α → Except ε β} {b : β} :
    x >>= f = .ok b ↔ ∃ a, x = .ok a ∧ f a = .ok b := by
  cases x with
  | error e => simp [bind, Except.bind]
  | ok a => simp [bind, Except.bind]

section
variable {ε σ α β : Type} {x : EStateM ε σ α} {f : α → EStateM ε σ β} {s s' : σ} {b : β}

theorem bind_apply (x : EStateM ε σ α) (f : α → EStateM ε σ β) (s : σ) :
    (x >>= f) s = match x s with
      | .ok a s' => f a s'
      | .error e s' => .error e s' := by
  show EStateM.bind x f s = _
  unfold EStateM.bind
  cases x s <;> rfl

theorem bind_ok_iff : (x >>= f) s = .ok b s' ↔ ∃ a s1, x s = .ok a s1 ∧ f a s1 = .ok b s' := by
  rw [bind_apply]
  cases x s with
  | ok a s1 => simp
  | error e s1 => simp

end

/-- What a fold adds to a log, one of its steps adds. -/
theorem mem_or_exists_of_foldl {α β σ : Type} (log : σ → List β) {step : σ → α → σ} {P : α → Prop} {q : β}
    {xs : List α} {s : σ} (h : ∀ x ∈ xs, ∀ s, q ∈ log (step s x) → q ∈ log s ∨ P x)
    (hq : q ∈ log (xs.foldl step s)) : q ∈ log s ∨ ∃ x ∈ xs, P x := by
  induction xs generalizing s with
  | nil => exact .inl hq
  | cons x xs ih =>
    rcases ih (fun y hy => h y (.tail _ hy)) hq with hq | ⟨y, hy, hP⟩
    · exact (h x (.head _) s hq).imp_right fun hP => ⟨x, .head _, hP⟩
    · exact .inr ⟨y, .tail _ hy, hP⟩

section Rows

variable {α β : Type} {R : α → β → Prop} {xs : List α} {ys : List β}

theorem exists_of_mem_right {y : β} (h : Forall₂ R xs ys) (hy : y ∈ ys) : ∃ x ∈ xs, R x y := by
  induction h with
  | nil => cases hy
  | @cons a b xs ys hab _ ih =>
    rcases mem_cons.mp hy with rfl | hy
    · exact ⟨a, .head _, hab⟩
    · obtain ⟨x, hx, hxy⟩ := ih hy
      exact ⟨x, .tail _ hx, hxy⟩

theorem exists_of_mem_left {x : α} (h : Forall₂ R xs ys) (hx : x ∈ xs) : ∃ y ∈ ys, R x y :=
  exists_of_mem_right h.flip hx

theorem flatMap_eq_of_forall₂ {γ : Type} {g : α → List γ} {g' : β → List γ}
    (h : Forall₂ (fun a b => g a = g' b) xs ys) : xs.flatMap g = ys.flatMap g' := by
  induction h with
  | nil => rfl
  | cons hab _ ih => rw [flatMap_cons, flatMap_cons, hab, ih]

end Rows

/-! What holds of all characters of a text is decided by going through the text, and not through all characters that
there are. -/

instance (priority := 2000) decidableForallMemText (P : Char → Prop) [DecidablePred P] (cs : List Char) :
    Decidable (∀ c ∈ cs, P c) :=
  decidableBAll P cs

instance (priority := 2000) decidableForallMemChar? (P : Char → Prop) [DecidablePred P] (c? : Option Char) :
    Decidable (∀ c ∈ c?, P c) :=
  Option.decidableForallMem c?

namespace Tree

variable (t : Tree)

/-! ### Sizes -/

@[simp] theorem size_setParent (id : ElementId) (owner : Option ElementId) :
    (t.setParent id owner).size = t.size := by
  simp [setParent, size]

@[simp] theorem size_setKind (id : ElementId) (k : Kind) : (t.setKind id k).size = t.size := by
  simp [setKind, size]

@[simp] theorem size_push (k : Kind) (o : Origin) : (t.push k o).size = t.size + 1 := by
  simp [push, size]

/-! ### Roots -/

@[simp] theorem root_setParent (id : ElementId) (owner : Option ElementId) :
    (t.setParent id owner).root = t.root := rfl

@[simp] theorem root_setKind (id : ElementId) (k : Kind) : (t.setKind id k).root = t.root := rfl

@[simp] theorem root_push (k : Kind) (o : Origin) : (t.push k o).root = t.root := rfl

/-! ### Elements -/

theorem element?_setParent (id x : ElementId) (owner : Option ElementId) :
    (t.setParent id owner).element? x =
      if x = id then (t.element? x).map ({ · with parent := owner }) else t.element? x := by
  simp only [setParent, element?, Array.getElem?_modify, eq_comm (a := id)]

theorem element?_setKind (id x : ElementId) (k : Kind) :
    (t.setKind id k).element? x =
      if x = id then (t.element? x).map ({ · with kind := k }) else t.element? x := by
  simp only [setKind, element?, Array.getElem?_modify, eq_comm (a := id)]

theorem element?_push (k : Kind) (o : Origin) (x : ElementId) :
    (t.push k o).element? x = if x = t.size then some ⟨k, none, o⟩ else t.element? x := by
  simp only [push, element?, size, Array.getElem?_push]
  rfl

variable {t}

variable {x : ElementId} {e : Element} {k : Kind}

theorem element?_eq_none_iff : t.element? x = none ↔ t.size ≤ x := by
  simp [element?, size]

theorem lt_size_iff : x < t.size ↔ ∃ e, t.element? x = some e := by
  rw [← Option.ne_none_iff_exists', ne_eq, element?_eq_none_iff, Nat.not_le]

theorem lt_size (h : t.element? x = some e) : x < t.size :=
  lt_size_iff.mpr ⟨e, h⟩

theorem lt_size_of_kind? (h : t.kind? x = some k) : x < t.size := by
  obtain ⟨e, he, _⟩ := Option.map_eq_some_iff.mp h
  exact lt_size he

theorem lt_size_of_parent {p : ElementId} (h : t.parent x = some p) : x < t.size := by
  obtain ⟨e, he, _⟩ := Option.bind_eq_some_iff.mp h
  exact lt_size he

theorem kind?_of_element? (h : t.element? x = some e) : t.kind? x = some e.kind := by
  simp [kind?, h]

theorem parent_of_element? (h : t.element? x = some e) : t.parent x = e.parent := by
  simp [parent, h]

theorem children_of_kind? (h : t.kind? x = some k) : t.children x = k.children := by
  simp [children, h]

theorem mem_children_iff {c : ElementId} : c ∈ t.children x ↔ ∃ k, t.kind? x = some k ∧ c ∈ k.children := by
  unfold children
  cases h : t.kind? x with
  | none => simp
  | some k => simp

theorem get_eq_ok_iff : t.get x = .ok e ↔ t.element? x = some e := by
  unfold get
  cases h : t.element? x with
  | none => simp
  | some e' => simp

theorem ext_element? {t' : Tree} (hsource : t.source = t'.source) (hroot : t.root = t'.root)
    (helement : ∀ x, t.element? x = t'.element? x) : t = t' := by
  obtain ⟨source, elements, root⟩ := t
  obtain ⟨source', elements', root'⟩ := t'
  obtain rfl : source = source' := hsource
  obtain rfl : root = root' := hroot
  obtain rfl : elements = elements' := Array.ext_getElem? helement
  rfl

/-! ### Kinds, parents and children after a write -/

variable (t)

@[simp] theorem kind?_setParent (id x : ElementId) (owner : Option ElementId) :
    (t.setParent id owner).kind? x = t.kind? x := by
  unfold kind?
  rw [element?_setParent]
  split_ifs with h
  · rw [Option.map_map]; rfl
  · rfl

theorem parent_setParent (id x : ElementId) (owner : Option ElementId) :
    (t.setParent id owner).parent x = if x = id ∧ x < t.size then owner else t.parent x := by
  unfold parent
  rw [element?_setParent]
  by_cases h : x = id
  · cases he : t.element? x with
    | none =>
      rw [if_pos h, if_neg (fun h' => Nat.not_le.mpr h'.2 (element?_eq_none_iff.mp he))]
      rfl
    | some e => rw [if_pos h, if_pos ⟨h, lt_size he⟩]; rfl
  · rw [if_neg h, if_neg (fun h' => h h'.1)]

theorem kind?_setKind (id x : ElementId) (k : Kind) :
    (t.setKind id k).kind? x = if x = id ∧ x < t.size then some k else t.kind? x := by
  unfold kind?
  rw [element?_setKind]
  by_cases h : x = id
  · cases he : t.element? x with
    | none =>
      rw [if_pos h, if_neg (fun h' => Nat.not_le.mpr h'.2 (element?_eq_none_iff.mp he))]
      rfl
    | some e => rw [if_pos h, if_pos ⟨h, lt_size he⟩]; rfl
  · rw [if_neg h, if_neg (fun h' => h h'.1)]

@[simp] theorem parent_setKind (id x : ElementId) (k : Kind) :
    (t.setKind id k).parent x = t.parent x := by
  unfold parent
  rw [element?_setKind]
  split_ifs with h
  · cases t.element? x <;> rfl
  · rfl

end Tree

/-! ### Places of a kind -/

namespace Kind

variable {k : Kind} {s : Role × ElementId} {c : ElementId} {α : Type}

theorem mem_children_of_mem_slots (h : s ∈ k.slots) : s.2 ∈ k.children :=
  mem_map_of_mem h

theorem exists_slot_of_mem_children (h : c ∈ k.children) : ∃ role, (role, c) ∈ k.slots := by
  obtain ⟨s, hs, rfl⟩ := mem_map.mp h
  exact ⟨s.1, hs⟩

theorem map_set_snd (role : α) (cs : List ElementId) (i : Nat) (c : ElementId) :
    (cs.set i c).map (role, ·) = (cs.map (role, ·)).modify i (fun s => (s.1, c)) := by
  induction cs generalizing i with
  | nil => simp
  | cons a cs ih =>
    cases i with
    | zero => simp
    | succ i => simp [ih]

theorem modify_append_singleton (f : α → α) (xs : List α) (a : α) (i : Nat) :
    (xs ++ [a]).modify i f = if i = xs.length then xs ++ [f a] else xs.modify i f ++ [a] := by
  induction xs generalizing i with
  | nil => cases i <;> simp
  | cons x xs ih =>
    cases i with
    | zero => simp
    | succ i =>
      simp only [cons_append, modify_succ_cons, ih, length_cons, Nat.add_right_cancel_iff]
      split_ifs <;> rfl

theorem slots_setSlot (k : Kind) (i : Nat) (c : ElementId) :
    (k.setSlot i c).slots = k.slots.modify i (fun s => (s.1, c)) := by
  cases k with
  | module | block | invocation => simp only [setSlot, slots, map_set_snd]
  | caseOf clauses otherwise | matchOf clauses otherwise =>
    by_cases h : i = clauses.length
    · simp [setSlot, slots, modify_append_singleton, h]
    · simp only [setSlot, slots, modify_append_singleton, length_map, h, if_false, map_set_snd]
  | conditional condition thenBlock elseBranch =>
    rcases i with _ | _ | _ | i <;> cases elseBranch <;> simp [setSlot, slots]
  | whenClause | loop | binary => rcases i with _ | _ | i <;> simp [setSlot, slots]
  | returns value => rcases i with _ | i <;> cases value <;> simp [setSlot, slots]
  | constant | reference => simp [setSlot, slots]
  | function | assignment | unary | closure => rcases i with _ | i <;> simp [setSlot, slots]

theorem mem_slots_setSlot {i : Nat} (h : s ∈ (k.setSlot i c).slots) :
    (∃ old, k.slots[i]? = some (s.1, old) ∧ s.2 = c) ∨ s ∈ k.slots := by
  rw [slots_setSlot] at h
  obtain ⟨j, hj⟩ := mem_iff_getElem?.mp h
  rw [getElem?_modify] at hj
  obtain ⟨s', hs', rfl⟩ := Option.map_eq_some_iff.mp hj
  split_ifs with hij
  · exact Or.inl ⟨s'.2, by rw [hij]; exact hs', rfl⟩
  · exact Or.inr (mem_of_getElem? hs')

theorem children_setSlot (k : Kind) (i : Nat) (c : ElementId) :
    (k.setSlot i c).children = k.children.set i c := by
  unfold children
  rw [slots_setSlot]
  apply ext_getElem?
  intro j
  rw [getElem?_map, getElem?_modify, getElem?_set, length_map, getElem?_map]
  by_cases hij : i = j
  · subst hij
    simp only [if_true]
    rcases Nat.lt_or_ge i k.slots.length with h | h
    · rw [getElem?_eq_getElem h, if_pos h]; rfl
    · rw [getElem?_eq_none h, if_neg (by omega)]; rfl
  · simp [hij]

end Kind

end Clausal
