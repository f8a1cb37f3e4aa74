import Clausal.Proofs.Passes.Upkeep
import Clausal.Proofs.Tree.Constructions

/-! # Every reachable tree is owned

A history is a list of calls on a tree that starts empty: edits, constructions, annotations and runs of
passes, in any order and with any arguments.  A call that fails leaves what it had done so far: nothing in the
case of an edit, a part of the work in the case of a pass. -/

namespace Clausal

namespace Tree

variable {t t' : Tree} {id : ElementId}

theorem eq_of_setRoot (hs : t.setRoot id = .ok t') : t' = { t with root := some id } := by
  unfold setRoot at hs
  obtain ⟨e, -, hs⟩ := bind_eq_ok_iff.mp hs
  cases hp : e.parent <;> rw [hp] at hs <;> cases hs
  rfl

theorem Owned.setRoot (h : t.Owned) (hs : t.setRoot id = .ok t') : t'.Owned := by
  unfold Tree.setRoot at hs
  obtain ⟨e, he, hs⟩ := bind_eq_ok_iff.mp hs
  rw [get_eq_ok_iff] at he
  cases hp : e.parent with
  | some holder =>
    rw [hp] at hs
    cases hs
  | none =>
    rw [hp] at hs
    cases hs
    refine { h with root_free := ?_ }
    intro r hr
    obtain rfl : id = r := Option.some.inj hr
    exact ⟨lt_size he, (parent_of_element? he).trans hp⟩

/-! ### Validation -/

theorem Owned.reachableFrom_lt_size (h : t.Owned) (fuel : Nat) (ids : List ElementId)
    (hids : ∀ x ∈ ids, x < t.size) : ∀ x ∈ t.reachableFrom fuel ids, x < t.size := by
  induction fuel generalizing ids with
  | zero => cases ids <;> simp [reachableFrom]
  | succ fuel ih =>
    cases ids with
    | nil => simp [reachableFrom]
    | cons id rest =>
      intro x hx
      rcases List.mem_cons.mp hx with rfl | hx
      · exact hids x (.head _)
      · refine ih _ ?_ x hx
        intro y hy
        rcases List.mem_append.mp hy with hy | hy
        · exact lt_size_of_parent (h.mem_children_iff.mp hy)
        · exact hids y (.tail _ hy)

theorem Owned.validateElement_eq_ok (h : t.Owned) (hid : id < t.size) : t.validateElement id = .ok ⟨⟩ := by
  obtain ⟨o, ho⟩ := lt_size_iff.mp hid
  have hkind := kind?_of_element? ho
  have hslot : ∀ s ∈ o.kind.slots, t.validateSlot id o s = .ok ⟨⟩ := by
    intro s hs
    obtain ⟨k, hk, hacc⟩ := h.fits id o.kind s hkind hs
    obtain ⟨e, he, rfl⟩ := Option.map_eq_some_iff.mp hk
    have hp := h.parent_of_kind? hkind (Kind.mem_children_of_mem_slots hs)
    rw [parent_of_element? he] at hp
    refine bind_eq_ok_iff.mpr ⟨e, get_eq_ok_iff.mpr he, ?_⟩
    simp [hacc, hp, pure, Except.pure]
  refine bind_eq_ok_iff.mpr ⟨o, get_eq_ok_iff.mpr ho, ?_⟩
  generalize o.kind.slots = slots at hslot
  induction slots with
  | nil => rfl
  | cons s slots ih =>
    refine bind_eq_ok_iff.mpr ⟨⟨⟩, hslot s (.head _), ?_⟩
    exact ih fun s hs => hslot s (.tail _ hs)

theorem Owned.validate_eq_ok (h : t.Owned) : t.validate = .ok ⟨⟩ := by
  have hreach : ∀ x ∈ t.reachable, x < t.size := by
    refine h.reachableFrom_lt_size _ _ ?_
    intro x hx
    exact (h.root_free x (Option.mem_toList.mp hx)).1
  unfold validate
  generalize t.reachable = ids at hreach
  induction ids with
  | nil => rfl
  | cons id ids ih =>
    refine bind_eq_ok_iff.mpr ⟨⟨⟩, h.validateElement_eq_ok (hreach id (.head _)), ?_⟩
    exact ih fun x hx => hreach x (.tail _ hx)

/-! ### Histories -/

/-- One call on a tree, with its arguments. -/
inductive Call where
  | alloc (kind : Kind) (origin : Origin)
  | setRoot (id : ElementId)
  | replace (owner old replacement : ElementId)
  /-- Build a case statement or a match expression from what was collected for it. -/
  | build (parts : Alternatives)
  | bindReference (id : ElementId) (b : Binding)
  | setCallTarget (id : ElementId) (target : CallTarget)
  | setCaptures (id : ElementId) (names : List String)
  | setClosureBindings (id : ElementId) (bindings : List Binding)
  | pass (p : Pass)

namespace Call

def settle (t : Tree) {ε : Type} : Except ε Tree → Tree
  | .ok t' => t'
  | .error _ => t

def perform (t : Tree) : Call → Tree
  | alloc kind origin => settle t ((t.alloc kind origin).map Prod.fst)
  | setRoot id => settle t (t.setRoot id)
  | replace owner old replacement => settle t (t.replace owner old replacement)
  | build parts => settle t ((parts.build t).map Prod.fst)
  | bindReference id b => settle t (t.bindReference id b)
  | setCallTarget id target => settle t (t.setCallTarget id target)
  | setCaptures id names => settle t (t.setCaptures id names)
  | setClosureBindings id bindings => settle t (t.setClosureBindings id bindings)
  | pass p => (Edit.after p.run { tree := t }).tree

variable {t : Tree} {ε : Type}

theorem settle_owned (h : t.Owned) {r : Except ε Tree} (hr : ∀ t', r = .ok t' → t'.Owned) :
    (settle t r).Owned := by
  cases r with
  | ok t' => exact hr t' rfl
  | error e => exact h

theorem settle_owned_map (h : t.Owned) {α : Type} {r : Except ε (Tree × α)}
    (hr : ∀ t' a, r = .ok (t', a) → t'.Owned) : (settle t (r.map Prod.fst)).Owned := by
  cases r with
  | ok p => exact hr p.1 p.2 rfl
  | error e => exact h

theorem perform_owned (h : t.Owned) (a : Call) : (a.perform t).Owned := by
  cases a with
  | alloc kind origin => exact settle_owned_map h fun _ _ hr => h.alloc hr
  | setRoot id => exact settle_owned h fun _ hr => h.setRoot hr
  | replace owner old replacement => exact settle_owned h fun _ hr => h.replace hr
  | build parts => exact settle_owned_map h fun _ _ hr => Alternatives.build_owned h hr
  | bindReference id b =>
    exact settle_owned h fun _ hr => h.record (Tree.bindReference_eq id b ▸ hr)
  | setCallTarget id target =>
    exact settle_owned h fun _ hr => h.record (Tree.setCallTarget_eq id target ▸ hr)
  | setCaptures id names =>
    exact settle_owned h fun _ hr => h.record (Tree.setCaptures_eq id names ▸ hr)
  | setClosureBindings id bindings =>
    exact settle_owned h fun _ hr => h.record (Tree.setClosureBindings_eq id bindings ▸ hr)
  | pass p => exact p.keeps_run Edit.steady_owned _ h

end Call

def reached (source : String) (history : List Call) : Tree :=
  history.foldl Call.perform (empty source)

theorem foldl_perform_owned (h : t.Owned) (history : List Call) : (history.foldl Call.perform t).Owned := by
  induction history generalizing t with
  | nil => exact h
  | cons a history ih => exact ih (Call.perform_owned h a)

/-- Every tree that a history reaches is owned, and so it passes validation. -/
theorem reached_owned_and_valid (source : String) (history : List Call) :
    (reached source history).Owned ∧ (reached source history).validate = .ok ⟨⟩ := by
  have h : (reached source history).Owned := foldl_perform_owned (empty_owned source) history
  exact ⟨h, h.validate_eq_ok⟩

end Tree

end Clausal
