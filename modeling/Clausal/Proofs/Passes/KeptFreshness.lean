import Clausal.Proofs.Lowering.Fresh
import Clausal.Proofs.Passes.KeptFunctions

/-! # Expansions mark nothing

The statements that an expansion makes are as plain as those that lowering makes, and what it moves stays as
it is. -/

namespace Clausal

open List

namespace Unfolding

variable {i : ElementId} {k : Kind} {o : Origin} {us us' : List Unfolding} {ids : List ElementId}

theorem Plain.of_isBare (hk : k.isBare = true) (hus : ∀ u ∈ us, u.Plain) : Plain (.node i k o us) := by
  refine .node ?_ ?_ ?_ hus
  · cases k <;> first | exact hk | cases hk
  · rintro f captured rfl
    cases hk
  · rintro name ids rfl
    cases hk

theorem Plain.block (hus : ∀ u ∈ us, u.Plain) : Plain (.node i (.block ids) o us) :=
  .node rfl nofun nofun hus

theorem Plain.block_singleton {u : Unfolding} (hu : u.Plain) : Plain (.node i (.block ids) o [u]) :=
  .block (forall_mem_singleton.mpr hu)

theorem Plain.replace (h : Plain (.node i k o us)) {k' : Kind} (hk : k.Akin k')
    (hus : Forall₂ (fun u u' => u'.Plain ∧ u'.kind.isLifted = u.kind.isLifted) us us') :
    Plain (.node i k' o us') := by
  have hbelow : ∀ u' ∈ us', u'.Plain := fun u' hu' => by
    obtain ⟨-, -, hplain, -⟩ := exists_of_mem_right hus hu'
    exact hplain
  rcases hk with rfl | ⟨_, _, rfl, rfl⟩
  · refine .node h.unmarked ?_ ?_ hbelow
    · rintro f captured rfl u' hu'
      obtain ⟨u, hu, -, heq⟩ := exists_of_mem_right hus hu'
      rw [heq, h.lifted hu]
    · rintro name ids rfl u' hu'
      obtain ⟨u, hu, -, heq⟩ := exists_of_mem_right hus hu'
      rw [heq, h.unlifted hu]
  · exact .block hbelow

end Unfolding

/-! ### Matches -/

namespace MatchExpansion

variable {k : Kind} {make : ElementId → Kind} {u u' : Unfolding}

theorem isLifted_of_isStep (hk : k.isStep = true) : k.isLifted = false := by
  cases k <;> first | rfl | cases hk

theorem Drains.isBare (h : Drains k make) (x : ElementId) : (make x).isBare = true := by
  obtain ⟨sink, -, rfl⟩ := h
  cases sink <;> rfl

theorem isLifted_of_expanded (h : Expanded Drains u u') : u'.kind.isLifted = u.kind.isLifted := by
  cases h with
  | node hakin => rcases hakin with rfl | ⟨_, _, rfl, rfl⟩ <;> rfl
  | poured hdrains hpoured =>
    obtain ⟨hk, hmake⟩ := hdrains.isStep
    refine Eq.trans ?_ (isLifted_of_isStep hk).symm
    cases hpoured with
    | value => exact isLifted_of_isStep (hmake _)
    | matchOf => rfl

theorem plain_of_expanded (h : Expanded Drains u u') : u.Plain → u'.Plain := by
  refine h.induct (P := fun u u' => u.Plain → u'.Plain)
    (Q := fun make v u => ∀ k, Drains k make → v.Plain → u.Plain)
    (A := fun make us us' => ∀ k, Drains k make → (∀ u ∈ us, u.Plain) → ∀ u ∈ us', u.Plain)
    ?node ?poured ?value ?matchOf ?fallback ?clause
  case node =>
    intro i k k' o us us' hakin hus hplain
    refine hplain.replace hakin ?_
    exact Unfolding.forall₂_of_mem hus fun u hu u' hu' =>
      ⟨hu'.2 (hplain.child hu), isLifted_of_expanded hu'.1⟩
  case poured =>
    intro i k make o v u hdrains hu hplain
    exact hu k hdrains (hplain.child (.head _))
  case value =>
    intro make v v' i x o hv k hdrains hplain
    exact .of_isBare (hdrains.isBare x) (forall_mem_singleton.mpr (hv hplain))
  case matchOf =>
    intro make i j x y ids ids' o o' us us' harms k hdrains hplain
    exact .of_isBare rfl (harms k hdrains fun _ hu => hplain.child hu)
  case fallback =>
    intro make v u b ids o _ hu k hdrains hplain
    exact forall_mem_singleton.mpr (.block_singleton (hu k hdrains (hplain v (.head _))))
  case clause =>
    intro make i j c c' a b b' ids o o' condition condition' v u us us' hcondition hu harms k hdrains hplain
    obtain ⟨hclause, hrest⟩ := forall_mem_cons.mp hplain
    have hc := hcondition (hclause.child (by simp))
    have hv := hu k hdrains (hclause.child (by simp))
    refine forall_mem_cons.mpr ⟨.of_isBare rfl ?_, harms k hdrains hrest⟩
    exact forall_mem_cons.mpr ⟨hc, forall_mem_singleton.mpr (.block_singleton hv)⟩

end MatchExpansion

/-! ### Cases -/

namespace CaseExpansion

variable {u u' : Unfolding}

theorem Chain.plain {us : List Unfolding} (h : Chain us u) (hus : ∀ u ∈ us, u.Plain) : u.Plain := by
  induction h with
  | last _ => exact hus _ (.head _)
  | clause _ ih =>
    obtain ⟨hclause, hrest⟩ := forall_mem_cons.mp hus
    refine .of_isBare rfl ?_
    have hcondition := hclause.child (.head _)
    have haction := hclause.child (.tail _ (.head _))
    simp only [forall_mem_cons]
    exact ⟨hcondition, haction, ih hrest, nofun⟩

theorem isLifted_of_expanded (h : Expanded u u') : u'.kind.isLifted = u.kind.isLifted := by
  cases h with
  | node => rfl
  | block => rfl
  | caseOf _ hchain => obtain ⟨_, _, _, _, rfl⟩ | ⟨_, _, _, _, _, _, rfl⟩ := hchain.shape <;> rfl

theorem plain_of_expanded (h : Expanded u u') (hplain : u.Plain) : u'.Plain := by
  induction u generalizing u' with
  | node i k o us ih =>
    have hrow {us'} (hparts : Forall₂ Expanded us us') :=
      Unfolding.forall₂_of_mem hparts fun u hu u' hu' =>
        And.intro (ih u hu hu' (hplain.child hu)) (isLifted_of_expanded hu')
    cases h with
    | node hparts => exact hplain.replace (.refl _) (hrow hparts)
    | block hparts => exact hplain.replace (.inr ⟨_, _, rfl, rfl⟩) (hrow hparts)
    | caseOf hparts hchain =>
      refine hchain.plain fun u' hu' => ?_
      obtain ⟨_, -, hplain', -⟩ := exists_of_mem_right (hrow hparts) hu'
      exact hplain'

end CaseExpansion

end Clausal
