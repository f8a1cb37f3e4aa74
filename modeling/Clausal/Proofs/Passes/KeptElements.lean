import Clausal.Proofs.Passes.KeptFunctions

/-! # Expansions keep elements

What is neither a block nor a choice between clauses nor a statement that takes a value stays when matches are
expanded, in the same order; and what is neither a case nor one of its clauses stays when cases are. -/

namespace Clausal

open List

namespace Unfolding

/-- The elements of some kinds in pre-order, without those below an element where `stop` holds. -/
def kept (stop keep : Kind → Bool) (u : Unfolding) : List (ElementId × Kind) :=
  (u.preorderUntil stop).filter (keep ·.2)

theorem kept_node (stop keep : Kind → Bool) (i : ElementId) (k : Kind) (o : Origin)
    (us : List Unfolding) :
    kept stop keep (.node i k o us) = (if keep k then [(i, k)] else []) ++
      if stop k then [] else us.flatMap (kept stop keep) := by
  have hrest : (if stop k then [] else us.flatMap (preorderUntil stop)).filter (keep ·.2) =
      if stop k then [] else us.flatMap (kept stop keep) := by
    split_ifs
    · rfl
    · rw [filter_flatMap]
      rfl
  rw [kept, preorderUntil_node, filter_cons, hrest]
  split_ifs <;> rfl

variable {stop keep : Kind → Bool}

theorem kept_of_passed {i : ElementId} {k : Kind} (o : Origin) (us : List Unfolding)
    (hk : keep k = false ∧ stop k = false) :
    kept stop keep (.node i k o us) = us.flatMap (kept stop keep) := by
  rw [kept_node, hk.1, hk.2]
  rfl

theorem kept_row {us us' : List Unfolding}
    (h : Forall₂ (fun u u' => kept stop keep u' = kept stop keep u) us us') :
    us'.flatMap (kept stop keep) = us.flatMap (kept stop keep) := by
  induction h with
  | nil => rfl
  | cons hu _ ih => rw [flatMap_cons, flatMap_cons, hu, ih]

/-- Blocks, clauses and what chooses between them are neither picked nor stopped at. -/
def PassesBranches (stop keep : Kind → Bool) : Prop :=
  ∀ k : Kind, (match k with
    | .block _ | .caseOf .. | .matchOf .. | .whenClause .. | .conditional .. => true
    | _ => false) = true → keep k = false ∧ stop k = false

end Unfolding

open Unfolding (kept kept_node kept_of_passed kept_row PassesBranches)

/-! ### Matches -/

namespace MatchExpansion

variable {same : Kind → (ElementId → Kind) → Prop} {stop keep : Kind → Bool}

theorem kept_of_expanded (hpasses : PassesBranches stop keep)
    (hsame : ∀ {k make}, same k make → (keep k = false ∧ stop k = false) ∧
      ∀ x, keep (make x) = false ∧ stop (make x) = false) {u u' : Unfolding} (h : Expanded same u u') :
    kept stop keep u' = kept stop keep u := by
  refine h.induct (P := fun u u' => kept stop keep u' = kept stop keep u)
    (Q := fun make v u => ∀ k, same k make → kept stop keep u = kept stop keep v)
    (A := fun make us us' => ∀ k, same k make → us'.flatMap (kept stop keep) = us.flatMap (kept stop keep))
    ?node ?poured ?value ?matchOf ?fallback ?clause
  case node =>
    intro i k k' o us us' hakin hus
    have hrow := kept_row (hus.imp fun _ _ hu => hu.2)
    rcases hakin with rfl | ⟨ids, ids', rfl, rfl⟩
    · rw [kept_node, kept_node, hrow]
    · rw [kept_of_passed _ _ (hpasses _ rfl), kept_of_passed _ _ (hpasses _ rfl), hrow]
  case poured =>
    intro i k make o v u hk hu
    rw [kept_of_passed _ _ (hsame hk).1, flatMap_singleton, hu k hk]
  case value =>
    intro make v v' i x o hv k hk
    rw [kept_of_passed _ _ ((hsame hk).2 x), flatMap_singleton, hv]
  case matchOf =>
    intro make i j x y ids ids' o o' us us' harms k hk
    rw [kept_of_passed _ _ (hpasses _ rfl), kept_of_passed _ _ (hpasses _ rfl), harms k hk]
  case fallback =>
    intro make v u b ids o _ hu k hk
    rw [flatMap_singleton, flatMap_singleton, kept_of_passed _ _ (hpasses _ rfl),
      flatMap_singleton, hu k hk]
  case clause =>
    intro make i j c c' a b b' ids o o' condition condition' v u us us' hcondition hu harms k hk
    rw [flatMap_cons, flatMap_cons, harms k hk, kept_of_passed _ _ (hpasses _ rfl),
      kept_of_passed _ _ (hpasses _ rfl), flatMap_cons, flatMap_singleton,
      flatMap_cons, flatMap_singleton, kept_of_passed _ _ (hpasses _ rfl),
      flatMap_singleton, hcondition, hu k hk]

end MatchExpansion

/-! ### Cases -/

namespace CaseExpansion

variable {stop keep : Kind → Bool} {u : Unfolding}

theorem Chain.kept_eq (hpasses : PassesBranches stop keep) {us : List Unfolding}
    (h : Chain us u) : kept stop keep u = us.flatMap (kept stop keep) := by
  induction h with
  | last hu => rw [flatMap_singleton]
  | clause _ ih =>
    rw [flatMap_cons, ← ih, kept_of_passed _ _ (hpasses _ rfl), kept_of_passed _ _ (hpasses _ rfl)]
    simp

theorem kept_of_expanded (hpasses : PassesBranches stop keep) {u' : Unfolding} (h : Expanded u u') :
    kept stop keep u' = kept stop keep u := by
  induction u generalizing u' with
  | node i k o us ih =>
    have hrow {us'} (hparts : Forall₂ Expanded us us') :
        us'.flatMap (kept stop keep) = us.flatMap (kept stop keep) :=
      kept_row (Unfolding.forall₂_of_mem hparts fun u hu u' hu' => ih u hu hu')
    cases h with
    | node hparts => rw [kept_node, kept_node, hrow hparts]
    | block hparts =>
      rw [kept_of_passed _ _ (hpasses _ rfl), kept_of_passed _ _ (hpasses _ rfl), hrow hparts]
    | caseOf hparts hchain =>
      rw [kept_of_passed _ _ (hpasses _ rfl), hchain.kept_eq hpasses, hrow hparts]

end CaseExpansion

end Clausal
