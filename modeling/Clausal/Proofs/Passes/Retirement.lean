import Clausal.Proofs.Passes.Upkeep
import Clausal.Proofs.Tree.Moves

/-! # Cases out of use

A case statement that nobody holds stays so while chains are built, for a conditional and its clauses have no
place for a case. -/

namespace Clausal

open Edit

namespace Tree

def IsCase (t : Tree) (x : ElementId) : Prop := ∃ ids y, t.kind? x = some (.caseOf ids y)

/-- A case statement that nobody holds. -/
structure Retired (t : Tree) (x : ElementId) : Prop where
  owned : t.Owned
  isCase : t.IsCase x
  parent : t.parent x = none

end Tree

theorem steady_isCase (x : ElementId) : Steady (Tree.IsCase · x) where
  alloc := by
    rintro t t' k o id ⟨ids, y, hkind⟩ ha
    obtain ⟨-, heq⟩ := Tree.alloc_eq_ok_iff.mp ha
    cases heq
    exact ⟨ids, y, by rw [Tree.kind?_adopt, if_neg (Nat.ne_of_lt (Tree.lt_size_of_kind? hkind)), hkind]⟩
  splice := by
    rintro t owner old new i ⟨ids, y, hkind⟩ hc
    obtain ⟨k, -, -, hk, -⟩ := (Tree.exchangeable_of_checkReplacement hc).place
    by_cases heq : x = owner
    · subst heq
      rw [hkind] at hk
      cases hk
      rw [Tree.IsCase, Tree.kind?_splice hkind, if_pos rfl]
      simp only [Kind.setSlot]
      split_ifs <;> exact ⟨_, _, rfl⟩
    · exact ⟨ids, y, by rw [Tree.kind?_splice hk, if_neg heq, hkind]⟩
  record := by
    rintro t t' id a ⟨ids, y, hkind⟩ hr
    obtain ⟨k, k', hk, hchange, rfl⟩ := Tree.annotate_eq_ok_iff.mp hr
    have hne : x ≠ id := by
      rintro rfl
      rw [hkind] at hk
      cases hk
      cases a <;> cases hchange
    exact ⟨ids, y, by rw [Tree.kind?_setKind, if_neg fun h => hne h.1, hkind]⟩

namespace CaseExpansion

variable {x : ElementId}

theorem keeps_retired_alloc {k : Kind} (hk : ∀ s ∈ k.slots, s.1 ≠ Role.statement) (o : Origin) :
    Keeps (Tree.Retired · x) (alloc k o) := by
  rintro w ⟨h, hcase, hp⟩
  refine ⟨keeps_alloc steady_owned k o w h, keeps_alloc (steady_isCase x) k o w hcase, ?_⟩
  unfold after
  rw [alloc_apply]
  cases ha : w.tree.alloc k o with
  | error fault => exact hp
  | ok r =>
    obtain ⟨hadopt, rfl⟩ := Tree.alloc_eq_ok_iff.mp ha
    have hnot : x ∉ k.children := by
      intro hm
      obtain ⟨s, hs, rfl⟩ := List.mem_map.mp hm
      obtain ⟨e, he, haccepts, -⟩ := hadopt.1 s hs
      obtain ⟨ids, y, hkind⟩ := hcase
      rw [Tree.kind?, he] at hkind
      rw [Option.some.inj hkind] at haccepts
      obtain ⟨role, c⟩ := s
      cases role with
      | statement => exact hk _ hs rfl
      | _ => cases haccepts
    show (w.tree.adopt k o).parent x = none
    rw [Tree.parent_adopt hadopt, if_neg hnot, hp]

theorem parent_replace {w : Workbench} {owner old new : ElementId} (h : w.tree.Owned) (hx : x ≠ new)
    (hp : w.tree.parent x = none) : (after (replace owner old new) w).tree.parent x = none := by
  obtain ⟨event, hreplace⟩ := replace_apply owner old new w
  unfold after
  rw [hreplace]
  cases hc : w.tree.checkReplacement owner old new with
  | error fault => exact hp
  | ok place =>
    cases place with
    | none => exact hp
    | some i =>
      have hex := Tree.exchangeable_of_checkReplacement hc
      obtain ⟨k, role, kn, hk, hs, hkn, -⟩ := hex.place
      obtain ⟨ko, hko, -⟩ := h.fits owner k _ hk (List.mem_of_getElem? hs)
      show (w.tree.splice owner old new i).parent x = none
      rw [Tree.parent_splice (Tree.lt_size_of_kind? hko) (Tree.lt_size_of_kind? hkn), if_neg hx, hp]
      exact ite_self none

theorem keeps_retired_release (owner child : ElementId) : Keeps (Tree.Retired · x) (release owner child) := by
  rintro w ⟨h, hcase, hp⟩
  refine ⟨keeps_release steady_owned owner child w h, keeps_release (steady_isCase x) owner child w hcase, ?_⟩
  have hne : x ≠ w.tree.size := by
    obtain ⟨ids, y, hkind⟩ := hcase
    exact Nat.ne_of_lt (Tree.lt_size_of_kind? hkind)
  unfold after release
  simp only [bind_apply, element_apply]
  cases w.tree.get owner with
  | error fault => exact hp
  | ok e =>
    simp only
    cases e.kind.slots.find? (·.2 = child) with
    | none => exact hp
    | some s =>
      have hslots : s.1.placeholder.slots = [] := by cases s.1 <;> rfl
      have hadopt : w.tree.Adoptable s.1.placeholder.slots := by
        rw [hslots]
        exact ⟨by simp, by simp⟩
      have hp1 : (w.tree.adopt s.1.placeholder .synthetic).parent x = none := by
        rw [Tree.parent_adopt hadopt, Kind.children, hslots, List.map_nil, if_neg List.not_mem_nil, hp]
      have hparent : (after (replace owner child w.tree.size)
          { w with tree := w.tree.adopt s.1.placeholder .synthetic }).tree.parent x = none :=
        parent_replace (h.adopt hadopt _) hne hp1
      unfold after at hparent
      simp only [bind_apply, alloc_eq hadopt]
      cases hreplace : replace owner child w.tree.size
          { w with tree := w.tree.adopt s.1.placeholder .synthetic } with
      | ok _ w1 | error _ w1 =>
        rw [hreplace] at hparent
        exact hparent

theorem keeps_retired_chain (last : ElementId) (clauses : List ElementId) :
    Keeps (Tree.Retired · x) (chain last clauses) := by
  induction clauses with
  | nil => exact keeps_pure _
  | cons clause clauses ih =>
    refine ih.bind fun _ => keeps_tree.bind fun t => ?_
    cases t.whenParts? clause with
    | none => exact keeps_pure _
    | some parts =>
      refine (keeps_element _).bind fun _ => (keeps_retired_release _ _).bind fun _ =>
        (keeps_retired_release _ _).bind fun _ => keeps_retired_alloc ?_ _
      simp [Kind.slots]

end CaseExpansion

end Clausal
