import Clausal.Passes.Release
import Clausal.Proofs.Tree.Adoption
import Clausal.Proofs.Tree.Marks

/-! # Steps of work on a tree

A step of work (`Edit`) takes a workbench to another one and a result, or to a fault and the workbench as it
was when the fault was met.  The first group of lemmas gives each primitive step its equation. -/

namespace Clausal.Edit

variable {α β : Type}

/-! ### Equations -/

theorem pure_apply (a : α) (w : Workbench) : (pure a : Edit α) w = .ok a w := rfl

theorem tree_apply (w : Workbench) : tree w = .ok w.tree w := rfl

theorem note_apply (e : Event) (w : Workbench) :
    note e w = .ok () { w with journal := w.journal.push e } := rfl

theorem unfoldRoot_apply (w : Workbench) : unfoldRoot w = .ok w.tree.unfoldRoot w := rfl

theorem element_apply (id : ElementId) (w : Workbench) :
    element id w = match w.tree.get id with
      | .ok e => .ok e w
      | .error fault => .error fault w := by
  have : element id w = (match w.tree.get id with
      | .ok e => pure e
      | .error f => throw f : Edit Element) w := rfl
  rw [this]
  cases w.tree.get id <;> rfl

theorem change_apply (f : Tree → Except Fault Tree) (w : Workbench) :
    change f w = match f w.tree with
      | .ok t => .ok () { w with tree := t }
      | .error fault => .error fault w := by
  have : change f w = (match f w.tree with
      | .ok t => modify fun w => { w with tree := t }
      | .error fault => throw fault : Edit Unit) w := rfl
  rw [this]
  cases f w.tree <;> rfl

theorem alloc_apply (k : Kind) (o : Origin) (w : Workbench) :
    alloc k o w = match w.tree.alloc k o with
      | .ok (t, id) => .ok id { w with tree := t }
      | .error fault => .error fault w := by
  have : alloc k o w = (match w.tree.alloc k o with
      | .ok (t, id) => do
        modify fun w => { w with tree := t }
        return id
      | .error fault => throw fault : Edit ElementId) w := rfl
  rw [this]
  cases w.tree.alloc k o <;> rfl

theorem replace_apply (owner old new : ElementId) (w : Workbench) :
    ∃ event, replace owner old new w = match w.tree.checkReplacement owner old new with
      | .ok (some i) => .ok () { tree := w.tree.splice owner old new i, journal := w.journal.push event }
      | .ok none => .ok () w
      | .error fault => .error fault w := by
  unfold replace
  rw [bind_apply, tree_apply]
  dsimp only
  cases hc : w.tree.checkReplacement owner old new with
  | error fault => exact ⟨.parsed "" "" 0, rfl⟩
  | ok place =>
    cases place with
    | none => exact ⟨.parsed "" "" 0, rfl⟩
    | some i => exact ⟨_, rfl⟩

/-! ### What steps keep -/

def after (step : Edit α) (w : Workbench) : Workbench :=
  match step w with
  | .ok _ w => w
  | .error _ w => w

def Keeps (P : Tree → Prop) (step : Edit α) : Prop :=
  ∀ w : Workbench, P w.tree → P (after step w).tree

section keeps
variable {P : Tree → Prop}

theorem keeps_pure (a : α) : Keeps P (pure a : Edit α) := fun _ hw => hw

theorem keeps_throw (f : Fault) : Keeps P (throw f : Edit α) := fun _ hw => hw

theorem keeps_tree : Keeps P tree := fun _ hw => hw

theorem keeps_note (e : Event) : Keeps P (note e) := fun _ hw => hw

theorem keeps_unfoldRoot : Keeps P unfoldRoot := fun _ hw => hw

theorem Keeps.bind {x : Edit α} {f : α → Edit β} (hx : Keeps P x) (hf : ∀ a, Keeps P (f a)) :
    Keeps P (x >>= f) := by
  intro w hw
  have h := hx w hw
  unfold after at h ⊢
  rw [bind_apply]
  cases hxw : x w with
  | ok a w' =>
    rw [hxw] at h
    exact hf a w' h
  | error e w' =>
    rw [hxw] at h
    exact h

theorem keeps_element (id : ElementId) : Keeps P (element id) := by
  intro w hw
  unfold after
  rw [element_apply]
  cases w.tree.get id <;> exact hw

theorem keeps_change {f : Tree → Except Fault Tree} (hf : ∀ t t', P t → f t = .ok t' → P t') :
    Keeps P (change f) := by
  intro w hw
  unfold after
  rw [change_apply]
  cases hfw : f w.tree with
  | ok t => exact hf w.tree t hw hfw
  | error fault => exact hw

theorem keeps_forIn {l : List β} {body : β → PUnit → Edit (ForInStep PUnit)}
    (hbody : ∀ b u, Keeps P (body b u)) : Keeps P (forIn l PUnit.unit body) := by
  induction l with
  | nil => exact keeps_pure _
  | cons b l ih =>
    rw [List.forIn_cons]
    refine (hbody b _).bind fun r => ?_
    cases r with
    | done u => exact keeps_pure _
    | yield u => exact ih

end keeps

/-! ### What the primitive edits keep -/

/-- A property of trees that no change to a single element can break. -/
structure Steady (P : Tree → Prop) : Prop where
  alloc {t t' : Tree} {k : Kind} {o : Origin} {id : ElementId} : P t → t.alloc k o = .ok (t', id) → P t'
  splice {t : Tree} {owner old new : ElementId} {i : Nat} :
    P t → t.checkReplacement owner old new = .ok (some i) → P (t.splice owner old new i)
  record {t t' : Tree} {id : ElementId} {a : Mark} : P t → t.record id a = .ok t' → P t'

theorem steady_owned : Steady Tree.Owned where
  alloc h ha := h.alloc ha
  splice h hc := h.splice (Tree.exchangeable_of_checkReplacement hc)
  record h hr := h.record hr

section steady
variable {P : Tree → Prop} (hP : Steady P)
include hP

theorem keeps_alloc (k : Kind) (o : Origin) : Keeps P (alloc k o) := by
  intro w hw
  unfold after
  rw [alloc_apply]
  cases ha : w.tree.alloc k o with
  | ok r => exact hP.alloc hw ha
  | error fault => exact hw

theorem keeps_replace (owner old new : ElementId) : Keeps P (replace owner old new) := by
  intro w hw
  obtain ⟨event, hreplace⟩ := replace_apply owner old new w
  unfold after
  rw [hreplace]
  cases hc : w.tree.checkReplacement owner old new with
  | error fault => exact hw
  | ok place =>
    cases place with
    | none => exact hw
    | some i => exact hP.splice hw hc

theorem keeps_release (owner child : ElementId) : Keeps P (release owner child) := by
  refine (keeps_element owner).bind fun o => ?_
  cases o.kind.slots.find? (·.2 = child) with
  | none => exact keeps_throw _
  | some s =>
    exact (keeps_alloc hP _ _).bind fun _ => (keeps_replace hP _ _ _).bind fun _ => keeps_pure _

theorem Steady.recordAll {t t' : Tree} (h : P t) {as : List (ElementId × Mark)}
    (ha : t.recordAll as = .ok t') : P t' := by
  induction as generalizing t with
  | nil =>
    cases ha
    exact h
  | cons a as ih =>
    rw [Tree.recordAll_cons] at ha
    obtain ⟨t1, h1, ha⟩ := bind_eq_ok_iff.mp ha
    exact ih (hP.record h h1) ha

end steady

end Clausal.Edit
