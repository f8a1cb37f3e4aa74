import Clausal.Proofs.Passes.CaseWalk
import Clausal.Proofs.Tree.Histories

/-! # Cases replaced

Expanding cases replaces each case below the root, inner ones first, by a chain of new conditionals over the
same guards, actions and fallback (`Replaced`).  Apart from the cases and their clauses the elements stay in
pre-order. -/

namespace Clausal.CaseExpansion

open Clausal.Tree List

/-- An element that is neither a case nor a clause of one, as a list. -/
def outside (q : ElementId × Kind) : List ElementId :=
  match q.2 with
  | .caseOf .. | .whenClause _ _ .statement => []
  | _ => [q.1]

/-- The elements that are neither cases nor clauses of cases, in pre-order. -/
def around (u : Unfolding) : List ElementId := u.preorder.flatMap outside

theorem around_node (i : ElementId) (k : Kind) (o : Origin) (us : List Unfolding) :
    around (.node i k o us) = outside (i, k) ++ us.flatMap around := by
  rw [around, Unfolding.preorder_node, flatMap_cons, flatMap_assoc]
  rfl

theorem outside_holding (i : ElementId) (k : Kind) (ids : List ElementId) :
    outside (i, k.holding ids) = outside (i, k) := by
  cases k <;> rfl

variable {n : Nat} {us us' : List Unfolding} {u u' : Unfolding}

theorem mem_ids_of_mem_around {x : ElementId} (hx : x ∈ around u) : x ∈ u.ids := by
  obtain ⟨⟨i, k⟩, hq, hx⟩ := mem_flatMap.mp hx
  have hi : x = i := by
    unfold outside at hx
    split at hx
    · cases hx
    · cases hx
    · exact mem_singleton.mp hx
  exact hi ▸ mem_map_of_mem hq

theorem around_row
    (h : Forall₂ (fun u u' => (around u').filter (· < n) = (around u).filter (· < n)) us us') :
    (us'.flatMap around).filter (· < n) = (us.flatMap around).filter (· < n) := by
  induction h with
  | nil => rfl
  | cons hu _ ih =>
    rw [flatMap_cons, flatMap_cons, filter_append, filter_append, hu, ih]

theorem NewChain.around_eq (h : NewChain n us u) :
    (around u).filter (· < n) = (us.flatMap around).filter (· < n) := by
  induction h with
  | last _ => rw [flatMap_singleton]
  | @clause i j c a o condition action r rest hj _ ih =>
    have hnew : [j].filter (· < n) = [] := by simpa using hj
    simp only [around_node, outside, flatMap_cons, flatMap_nil, filter_append, hnew,
      nil_append, append_nil, append_assoc, ih]

theorem Replaced.around_eq (h : Replaced n u u') :
    (around u').filter (· < n) = (around u).filter (· < n) := by
  induction u generalizing u' with
  | node i k o us ih =>
    cases h with
    | node _ hus =>
      rw [around_node, around_node, outside_holding, filter_append, filter_append,
        around_row (Unfolding.forall₂_of_mem hus fun u hu _ h => ih u hu h)]
    | caseOf hus hchain =>
      rw [hchain.around_eq, around_row (Unfolding.forall₂_of_mem hus fun u hu _ h => ih u hu h), around_node]
      rfl

variable {w : Workbench}

/-- Expanding cases succeeds, and counts the cases below the root.  Each of them is replaced by its chain and
has no owner any more; of the other elements none comes, goes or changes places. -/
theorem run_replaces_cases (h : w.tree.Owned) {root : ElementId} (hroot : w.tree.root = some root) :
    ∃ w' k o us us', w.tree.unfoldRoot = some (.node root k o us) ∧
      run w = .ok (us.flatMap cases).length w' ∧ w'.tree.Owned ∧
      w'.tree.unfoldRoot = some (.node root (k.holding (us'.map Unfolding.id)) o us') ∧
      List.Forall₂ (Replaced w.tree.size) us us' ∧
      (around (.node root (k.holding (us'.map Unfolding.id)) o us')).filter (· < w.tree.size) =
        around (.node root k o us) ∧
      ∀ x ∈ us.flatMap cases, w'.tree.parent x = none := by
  obtain ⟨⟨i, k, o, us⟩, hu⟩ := h.exists_unfoldRoot hroot
  obtain ⟨hshows, hid⟩ := h.unfoldRoot_eq_some_iff.mp hu
  obtain rfl : root = i := Option.some.inj (hroot.symm.trans hid)
  obtain ⟨w', us', hrun, howned, hu', hparts, hretired⟩ := walks_root h hu
  refine ⟨w', k, o, us, us', hu, hrun, howned, hu', hparts, ?_, hretired⟩
  have hold : (around (.node root k o us)).filter (· < w.tree.size) = around (.node root k o us) :=
    List.filter_eq_self.mpr fun x hx =>
      decide_eq_true (hshows.ids_lt_size x (mem_ids_of_mem_around hx))
  rw [← hold, around_node, around_node, outside_holding, List.filter_append, List.filter_append,
    around_row (hparts.imp fun _ _ h => h.around_eq)]

/-- A case with a case in its only clause and another one in its fallback, which has no clause itself. -/
def nested : Tree :=
  reached "nested" <| [
    Kind.block [], .block [], .constant (.bool true), .whenClause 2 0 .statement, .caseOf [3] 1, .block [4],
    .block [], .caseOf [] 6, .block [7], .constant (.bool false), .whenClause 9 5 .statement, .caseOf [10] 8,
    .block [11], .function "f" [] 12 false []].map (Tree.Call.alloc · {}) ++ [.setRoot 13]

theorem nested_cases_replaced : nested.Owned ∧ nested.root = some 13 ∧
    ∃ w', run ⟨nested, #[]⟩ = .ok 3 w' ∧ ∀ x ∈ [11, 4, 7], w'.tree.parent x = none := by
  have h : nested.Owned := foldl_perform_owned (empty_owned _) _
  obtain ⟨k₀, o₀, us₀, hu₀, hcases⟩ : ∃ k o us, nested.unfoldRoot = some (.node 13 k o us) ∧
      us.flatMap cases = [11, 4, 7] := by
    set_option maxRecDepth 1024 in exact ⟨_, _, _, rfl, rfl⟩
  have hroot : nested.root = some 13 := (h.unfoldRoot_eq_some_iff.mp hu₀).2
  obtain ⟨w', k, o, us, us', hu, hrun, -, -, -, -, hparent⟩ := run_replaces_cases (w := ⟨nested, #[]⟩) h hroot
  cases hu.symm.trans hu₀
  rw [hcases] at hrun hparent
  exact ⟨h, hroot, w', hrun, hparent⟩

end Clausal.CaseExpansion
