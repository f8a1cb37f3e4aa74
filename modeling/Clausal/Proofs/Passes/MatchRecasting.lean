import Clausal.Proofs.Passes.MatchWalk
import Clausal.Proofs.Tree.Histories

/-! # Matches recast

Expanding matches puts a new case in the place of each held statement that takes the value of a match, and goes on
in the statements of that case (`Recast`). -/

namespace Clausal.MatchExpansion

open Clausal.Tree List Unfolding

variable {n : Nat} {us us' : List Unfolding} {u u' : Unfolding}

theorem filter_new {x : ElementId} (hx : n ≤ x) (xs : List ElementId) :
    (x :: xs).filter (· < n) = xs.filter (· < n) :=
  filter_cons_of_neg (by simpa using hx)

theorem ids_row (h : Forall₂ (fun u u' => (u'.ids.filter (· < n)).Sublist u.ids) us us') :
    ((us'.flatMap Unfolding.ids).filter (· < n)).Sublist (us.flatMap Unfolding.ids) := by
  induction h with
  | nil => exact .slnil
  | cons hu _ ih =>
    rw [flatMap_cons, flatMap_cons, filter_append]
    exact hu.append ih

theorem Recast.ids_sublist (h : Recast n u u') : (u'.ids.filter (· < n)).Sublist u.ids := by
  refine h.induct (P := fun u u' => (u'.ids.filter (· < n)).Sublist u.ids)
    (Q := fun _ v u => (u.ids.filter (· < n)).Sublist v.ids)
    (A := fun _ us us' => ((us'.flatMap Unfolding.ids).filter (· < n)).Sublist (us.flatMap Unfolding.ids))
    ?_ ?_ ?_ ?_ ?_ ?_
  · intro i k o us us' _ hus
    rw [ids_node, ids_node, filter_cons]
    split_ifs
    · exact (ids_row hus).cons_cons i
    · exact (ids_row hus).cons i
  · intro i m x k o om ids us sink u _ hu
    rw [ids_node, flatMap_singleton]
    exact hu.cons i
  · intro sink v v' s hs _ hv
    rwa [ids_node, flatMap_singleton, filter_new hs]
  · intro sink i j x y ids ids' o us us' hj harms
    rw [ids_node, ids_node, filter_new hj]
    exact harms.cons i
  · intro sink v u b _ hb hu
    rwa [flatMap_singleton, flatMap_singleton, ids_node, flatMap_singleton, filter_new hb]
  · intro sink i j c a b o condition condition' v u us us' hj hb hcondition hu harms
    simp only [flatMap_cons, flatMap_nil, append_nil, ids_node, cons_append,
      append_assoc, filter_new hj, filter_append, filter_new hb]
    exact (hcondition.append (hu.append harms)).cons i

variable {w : Workbench}

/-- Expanding matches succeeds, and counts the matches that go.  Below the root each statement that takes the value
of a match becomes a case, and no such statement is left; the elements that stay keep their order. -/
theorem run_recasts_matches (h : w.tree.Owned) {root : ElementId} (hroot : w.tree.root = some root) :
    ∃ c w' k o us us', w.tree.unfoldRoot = some (.node root k o us) ∧ run w = .ok c w' ∧ w'.tree.Owned ∧
      w'.tree.unfoldRoot = some (.node root (k.holding (us'.map Unfolding.id)) o us') ∧
      List.Forall₂ (Recast w.tree.size) us us' ∧ (∀ u ∈ us', u.Free Unfolding.Pours) ∧
      (us.map matchCount).sum = c + (us'.map matchCount).sum ∧
      ((root :: us'.flatMap Unfolding.ids).filter (· < w.tree.size)).Sublist
        (root :: us.flatMap Unfolding.ids) := by
  obtain ⟨⟨i, k, o, us⟩, hu⟩ := h.exists_unfoldRoot hroot
  obtain ⟨hshows, hid⟩ := h.unfoldRoot_eq_some_iff.mp hu
  obtain rfl : root = i := Option.some.inj (hroot.symm.trans hid)
  obtain ⟨c, w', us', hrun, hcount, howned, hu', hparts⟩ := walks_root h hu
  refine ⟨c, w', k, o, us, us', hu, hrun, howned, hu', hparts, fun u hu => ?_, hcount, ?_⟩
  · obtain ⟨_, -, hr⟩ := exists_of_mem_right hparts hu
    exact hr.free.1
  · have hlt : root < w.tree.size := hshows.lt_size
    rw [List.filter_cons_of_pos (by simpa using hlt)]
    exact (ids_row (hparts.imp fun _ _ h => h.ids_sublist)).cons_cons root

/-- A function that returns the value of a match, in which the value of the only clause is a match too. -/
def layered : Tree :=
  reached "layered" <| [
    Kind.constant (.int 1), .constant (.bool true), .whenClause 1 0 .value, .constant (.int 2), .matchOf [2] 3,
    .constant (.bool false), .whenClause 5 4 .value, .constant (.int 3), .matchOf [6] 7, .returns (some 8),
    .block [9], .function "f" [] 10 false []].map (Tree.Call.alloc · {}) ++ [.setRoot 11]

theorem layered_matches_recast : layered.Owned ∧ layered.root = some 11 ∧
    ∃ c w', ∃ us' : List Unfolding, run ⟨layered, #[]⟩ = .ok c w' ∧ (∀ u ∈ us', u.Free Unfolding.Pours) ∧
      2 = c + (us'.map matchCount).sum ∧
      ((11 :: us'.flatMap Unfolding.ids).filter (· < 12)).Sublist [11, 10, 9, 8, 6, 5, 4, 2, 1, 0, 3, 7] := by
  have h : layered.Owned := foldl_perform_owned (empty_owned _) _
  obtain ⟨k₀, o₀, us₀, hu₀, hcount₀, hids⟩ : ∃ k o us, layered.unfoldRoot = some (.node 11 k o us) ∧
      (us.map matchCount).sum = 2 ∧ us.flatMap Unfolding.ids = [10, 9, 8, 6, 5, 4, 2, 1, 0, 3, 7] := by
    set_option maxRecDepth 1024 in exact ⟨_, _, _, rfl, rfl, rfl⟩
  have hroot : layered.root = some 11 := (h.unfoldRoot_eq_some_iff.mp hu₀).2
  obtain ⟨c, w', k, o, us, us', hu, hrun, -, -, -, hfree, hcount, hsub⟩ :=
    run_recasts_matches (w := ⟨layered, #[]⟩) h hroot
  cases hu.symm.trans hu₀
  rw [hcount₀] at hcount
  rw [hids] at hsub
  exact ⟨h, hroot, c, w', us', hrun, hfree, hcount, hsub⟩

end Clausal.MatchExpansion
