import Clausal.Proofs.Bytecode.Functions
import Clausal.Proofs.Passes.Expansion
import Clausal.Proofs.Passes.MatchPouring

/-! # Expansions keep functions

Statements are moved about when matches and cases are expanded, but the functions in them stay, each in its
place among the others. -/

namespace Clausal

open List Unfolding

section
variable {R : Unfolding → Unfolding → Prop}

theorem Unfolding.functions_row {us us' : List Unfolding}
    (h : Forall₂ (fun u u' => Forall₂ R u.functions u'.functions) us us') :
    Forall₂ R (us.flatMap functions) (us'.flatMap functions) := by
  induction h with
  | nil => exact .nil
  | cons hu _ ih =>
    rw [flatMap_cons, flatMap_cons]
    exact rel_append hu ih

end

/-! ### Matches -/

namespace MatchExpansion

variable {k : Kind} {o : Origin}

theorem functions_of_isStep {i : ElementId} {us : List Unfolding} (hk : k.isStep = true) :
    (Unfolding.node i k o us).functions = us.flatMap Unfolding.functions := by
  refine functions_of_not_function o us ?_
  cases k <;> first | rfl | cases hk

theorem Drains.isStep {make : ElementId → Kind} (h : Drains k make) :
    k.isStep = true ∧ ∀ x, (make x).isStep = true := by
  obtain ⟨sink, hk, rfl⟩ := h
  exact ⟨Sink.isStep_of_ofKind? hk, fun x => Sink.isStep_of_ofKind? (Sink.ofKind?_statement sink x)⟩

theorem functions_block_singleton {b : ElementId} {ids : List ElementId} (u : Unfolding) :
    (Unfolding.node b (.block ids) o [u]).functions = u.functions := by
  rw [functions_of_not_function _ _ rfl, flatMap_singleton]

section
variable {same : Kind → (ElementId → Kind) → Prop} {R : Unfolding → Unfolding → Prop}

variable (hsame : ∀ {k make}, same k make → k.isStep = true ∧ ∀ x, (make x).isStep = true)
  (hR : ∀ {i k o us us'}, Role.function.accepts k = true → Fits (.node i k o us) →
    Forall₂ (Expanded same) us us' → R (.node i k o us) (.node i k o us'))
include hsame hR

theorem functions_of_expanded {u u' : Unfolding} (h : Expanded same u u') :
    u.Fits → Forall₂ R u.functions u'.functions := by
  refine h.induct (P := fun u u' => u.Fits → Forall₂ R u.functions u'.functions)
    (Q := fun make v u => ∀ k, same k make → v.Fits → Forall₂ R v.functions u.functions)
    (A := fun make us us' => ∀ k, same k make → (∀ u ∈ us, u.Fits) →
      Forall₂ R (us.flatMap Unfolding.functions) (us'.flatMap Unfolding.functions))
    ?node ?poured ?value ?matchOf ?fallback ?clause
  case node =>
    intro i k k' o us us' hakin hus hfits
    have hrow := functions_row (forall₂_of_mem hus fun u hu u' hu' => hu'.2 (hfits.child u hu))
    cases hf : Role.function.accepts k with
    | false =>
      have hf' : Role.function.accepts k' = false := by
        rcases hakin with rfl | ⟨_, _, rfl, rfl⟩
        · exact hf
        · rfl
      rw [functions_of_not_function _ _ hf, functions_of_not_function _ _ hf']
      exact hrow
    | true =>
      obtain rfl : k' = k := by
        rcases hakin with rfl | ⟨_, _, rfl, rfl⟩
        · rfl
        · cases hf
      rw [functions_of_function _ _ hf, functions_of_function _ _ hf]
      exact rel_append hrow (.cons (hR hf hfits (hus.imp fun _ _ hu => hu.1)) .nil)
  case poured =>
    intro i k make o v u hk hu hfits
    rw [functions_of_isStep (hsame hk).1, flatMap_singleton]
    exact hu k hk (hfits.child v (.head _))
  case value =>
    intro make v v' i x o hv k hk hfits
    rw [functions_of_isStep ((hsame hk).2 x), flatMap_singleton]
    exact hv hfits
  case matchOf =>
    intro make i j x y ids ids' o o' us us' harms k hk hfits
    rw [functions_of_not_function _ _ rfl, functions_of_not_function _ _ rfl]
    exact harms k hk hfits.child
  case fallback =>
    intro make v u b ids o _ hu k hk hfits
    simpa [functions_block_singleton] using hu k hk (hfits v (.head _))
  case clause =>
    intro make i j c c' a b b' ids o o' condition condition' v u us us' hcondition hu harms k hk hfits
    obtain ⟨hclause, hrest⟩ := forall_mem_cons.mp hfits
    rw [flatMap_cons, flatMap_cons]
    refine rel_append ?_ (harms k hk hrest)
    rw [functions_of_not_function _ _ rfl, functions_of_not_function _ _ rfl]
    have hc := hcondition (hclause.child condition (by simp))
    have hv := hu k hk (hclause.child v (by simp))
    simpa [functions_block_singleton] using rel_append hc hv

end

end MatchExpansion

/-! ### Cases -/

namespace CaseExpansion

variable {u : Unfolding}

theorem Chain.functions_eq {us : List Unfolding} (h : Chain us u) :
    u.functions = us.flatMap Unfolding.functions := by
  induction h with
  | last hu => rw [flatMap_singleton]
  | clause _ ih =>
    rw [flatMap_cons, ← ih, functions_of_not_function _ _ rfl,
      functions_of_not_function _ _ rfl]
    simp

variable {R : Unfolding → Unfolding → Prop}
  (hR : ∀ {i k o us us'}, Role.function.accepts k = true → Forall₂ Expanded us us' →
    R (.node i k o us) (.node i k o us'))
include hR

theorem functions_of_expanded {u' : Unfolding} (h : Expanded u u') :
    Forall₂ R u.functions u'.functions := by
  induction u generalizing u' with
  | node i k o us ih =>
    have hrow {us'} (hparts : Forall₂ Expanded us us') :=
      functions_row (R := R) (forall₂_of_mem hparts fun u hu u' hu' => ih u hu hu')
    cases h with
    | node hparts =>
      cases hf : Role.function.accepts k with
      | false =>
        rw [functions_of_not_function _ _ hf, functions_of_not_function _ _ hf]
        exact hrow hparts
      | true =>
        rw [functions_of_function _ _ hf, functions_of_function _ _ hf]
        exact rel_append (hrow hparts) (.cons (hR hf hparts) .nil)
    | block hparts =>
      rw [functions_of_not_function _ _ rfl, functions_of_not_function _ _ rfl]
      exact hrow hparts
    | caseOf hparts hchain =>
      rw [functions_of_not_function _ _ rfl, hchain.functions_eq]
      exact hrow hparts

end CaseExpansion

end Clausal
