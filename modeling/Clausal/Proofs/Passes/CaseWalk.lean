import Clausal.Proofs.Passes.CaseChains
import Clausal.Proofs.Passes.Leftovers

/-! # Expanding all cases

The walk that expands every case statement of a tree, inner ones first.  The parts of an element are expanded
one after the other and then the element itself, if it is a case that somebody holds. -/

namespace Clausal.CaseExpansion

open Clausal.Tree List Unfolding

variable {us us' : List Unfolding} {u u' : Unfolding} {n : Nat} {i : ElementId} {k : Kind} {o : Origin}
  {w : Workbench}

theorem Chain.free {P : Unfolding → Prop} (hP : ∀ i c a e o vs, ¬ P (.node i (.conditional c a e) o vs))
    (h : Chain us u) (hus : ∀ v ∈ us, v.Free P) : u.Free P := by
  induction h with
  | last _ => exact hus _ (.head _)
  | @clause i j c a o condition action r rest _ ih =>
    have hclause := (hus _ (.head _)).below
    refine free_iff.mpr ⟨hP _ _ _ _ _ _, fun v hv => ?_⟩
    simp only [Unfolding.children, mem_cons, not_mem_nil, or_false] at hv
    rcases hv with rfl | rfl | rfl
    · exact hclause _ (by simp [Unfolding.children])
    · exact hclause _ (by simp [Unfolding.children])
    · exact ih fun v hv => hus v (.tail _ hv)

theorem Expanded.free_pours (h : Expanded u u') (hu : u.FreeBelow Pours) :
    u'.FreeBelow Pours ∧ (u'.Pours → u.Pours) := by
  induction u generalizing u' with
  | node i k o us ih =>
    have hall : ∀ {us'}, Forall₂ Expanded us us' → ∀ v ∈ us', v.Free Pours := by
      intro us' hus v hv
      obtain ⟨u, hmem, hexp⟩ := exists_of_mem_right hus hv
      obtain ⟨hbelow, htop⟩ := ih u hmem hexp (hu u hmem).below
      exact free_iff.mpr ⟨fun hp => (free_iff.mp (hu u hmem)).1 (htop hp), hbelow⟩
    cases h with
    | node hus =>
      refine ⟨hall hus, ?_⟩
      rintro ⟨hsink⟩
      obtain ⟨v, _, hv, hnil, rfl⟩ := forall₂_cons_right_iff.mp hus
      cases hnil
      obtain ⟨j, kv, ov, vs⟩ := v
      obtain rfl : _ = kv := by
        rcases hv.kind_eq with heq | ⟨-, hstatement⟩
        · exact heq
        · cases hstatement
      exact .intro hsink
    | block hus => exact ⟨hall hus, fun hp => absurd hp (not_pours_of_ofKind? rfl)⟩
    | caseOf hus hchain =>
      have hfree := hchain.free (fun _ _ _ _ _ _ => not_pours_of_ofKind? rfl) (hall hus)
      exact ⟨hfree.below, fun hp => absurd hp (free_iff.mp hfree).1⟩

/-- The second unfolding is the first one with a chain of new conditionals in the place of every case. -/
inductive Replaced (n : Nat) : Unfolding → Unfolding → Prop
  | node {i : ElementId} {k : Kind} {o : Origin} {us us' : List Unfolding} :
      (∀ ids x, k ≠ .caseOf ids x) → Forall₂ (Replaced n) us us' →
      Replaced n (.node i k o us) (.node i (k.holding (us'.map Unfolding.id)) o us')
  | caseOf {i x ids o us us' r} :
      Forall₂ (Replaced n) us us' → NewChain n us' r → Replaced n (.node i (.caseOf ids x) o us) r

theorem Expanded.of_parts (h : Forall₂ Expanded us us') :
    Expanded (.node i k o us) (.node i (k.holding (us'.map Unfolding.id)) o us') := by
  cases k with
  | block ids => exact .block h
  | _ => exact .node h

theorem Replaced.expanded (h : Replaced n u u') : Expanded u u' := by
  induction u generalizing u' with
  | node i k o us ih =>
    cases h with
    | node _ hus => exact .of_parts (forall₂_of_mem hus fun u hu _ h => ih u hu h)
    | caseOf hus hchain =>
      exact .caseOf (forall₂_of_mem hus fun u hu _ h => ih u hu h) hchain.chain

theorem Replaced.free (h : Replaced n u u') : u'.Free Switches := by
  induction u generalizing u' with
  | node i k o us ih =>
    have hall : ∀ {us'}, Forall₂ (Replaced n) us us' → ∀ v ∈ us', v.Free Switches := by
      intro us' hus v hv
      obtain ⟨u, hm, hr⟩ := exists_of_mem_right hus hv
      exact ih u hm hr
    cases h with
    | node hk hus =>
      refine free_iff.mpr ⟨not_switches fun ids x heq => ?_, hall hus⟩
      cases k <;> first | exact hk _ _ rfl | cases heq
    | caseOf hus hchain =>
      exact hchain.chain.free (fun _ _ _ _ _ _ => not_switches nofun) (hall hus)

def cases (u : Unfolding) : List ElementId :=
  u.preorder.filterMap fun q => match q.2 with
    | .caseOf .. => some q.1
    | _ => none

theorem cases_caseOf (i x : ElementId) (ids : List ElementId) (o : Origin) (us : List Unfolding) :
    cases (.node i (.caseOf ids x) o us) = i :: us.flatMap cases := by
  rw [cases, preorder_node, filterMap_cons, filterMap_flatMap]
  rfl

theorem cases_node (hk : ∀ ids x, k ≠ .caseOf ids x) : cases (.node i k o us) = us.flatMap cases := by
  rw [cases, preorder_node, filterMap_cons, filterMap_flatMap]
  cases k <;> first | rfl | exact absurd rfl (hk _ _)

def tally : Tally where
  before u := (cases u).length
  after _ := 0
  onward t t' := t.size ≤ t'.size ∧ ∀ x, t.Retired x → t'.Retired x
  done t u := ∀ x ∈ cases u, t.Retired x
  refl _ := ⟨Nat.le_refl _, fun _ h => h⟩
  trans h h' := ⟨h.1.trans h'.1, fun x hx => h'.2 x (h.2 x hx)⟩
  stays h hdone x hx := h.2 x (hdone x hx)

theorem eq_length_of_tally {m : Nat} (h : (us.map tally.before).sum = m + (us'.map tally.after).sum) :
    m = (us.flatMap cases).length := by
  have hzero : (us'.map tally.after).sum = 0 := by simp [tally]
  rw [hzero, Nat.add_zero] at h
  rw [length_flatMap, ← h]
  rfl

/-- Wherever an unfolding is shown that somebody holds, the walk of it succeeds and replaces the cases in it. -/
def Walks (n : Nat) (u : Unfolding) : Prop :=
  ∀ (w : Workbench) (p : ElementId), n ≤ w.tree.size → w.tree.Owned → w.tree.Shows u →
    w.tree.parent u.id = some p → Rewrites (Replaced n) tally w [u] (expandIn u)

theorem expandAll_eq (hn : n ≤ w.tree.size) (h : w.tree.Owned) (hu : w.tree.Shows (.node i k o us))
    (ih : ∀ u ∈ us, Walks n u) : Rewrites (Replaced n) tally w us (expandAll us) := by
  refine .parts (by rw [expandAll]) (fun _ _ => by rw [expandAll]) h hu ?_
  intro u hm w' honward h' hshows hp
  exact ih u hm w' i (hn.trans honward.1) h' hshows hp

theorem expandIn_of_ne_caseOf (hk : ∀ clauses otherwise, k ≠ .caseOf clauses otherwise) :
    expandIn (.node i k o us) = expandAll us := by
  rw [expandIn]
  exact fun _ _ heq => hk _ _ heq

/-- The walk replaces the cases of every part, inner ones first.  It comes to a part while the tree still shows it, so
to read the part again would change nothing. -/
theorem walks (n : Nat) (u : Unfolding) : Walks n u := by
  induction u with
  | node i k o us ih =>
    intro w p hn h hu hp
    obtain ⟨m, w1, us', f, hrun, hsum, hmoved, hparts, honward, hdone⟩ := expandAll_eq hn h hu ih
    obtain rfl := eq_length_of_tally hsum
    have hnode := hmoved.holding h hu
    have hbelow : ∀ x ∈ us.flatMap cases, w1.tree.Retired x := by
      intro x hx
      obtain ⟨v, hv, hx⟩ := mem_flatMap.mp hx
      exact hdone v hv x hx
    by_cases hk : ∃ clauses otherwise, k = .caseOf clauses otherwise
    · obtain ⟨clauses, otherwise, rfl⟩ := hk
      have hout : p ∉ (Unfolding.node i (.caseOf clauses otherwise) o us).ids := fun hm =>
        h.acyclic i (Relation.TransGen.head' hp (hu.mem_ids h hm))
      obtain ⟨w2, r, hexpand, hchain, hretired, hmoved2⟩ := expand_moved hmoved.owned
        (hnode.shows _ (.head _)) (hnode.parent_eq h hp (by simpa using hout) rfl)
      have hmoved' := hnode.trans hmoved2 (fun _ => rfl) fun c =>
        (Classical.em (c = i)).symm.imp_left fun hc => if_neg hc
      refine ⟨(us.flatMap cases).length + 1, w2, [r], _, ?_, ?_, hmoved',
        .cons (.caseOf hparts (hchain.mono (hn.trans honward.1))) .nil,
        ⟨hmoved'.size, fun x hx => hretired x (.inl (honward.2 x hx))⟩, ?_⟩
      · simp only [expandIn, bind_apply, hrun, hexpand, Edit.pure_apply]
      · simp [tally, cases_caseOf]
      · intro v hv x hx
        obtain rfl := mem_singleton.mp hv
        rw [cases_caseOf] at hx
        rcases mem_cons.mp hx with rfl | hx
        · exact hretired x (.inr rfl)
        · exact hretired x (.inl (hbelow x hx))
    · have hk : ∀ clauses otherwise, k ≠ .caseOf clauses otherwise := fun _ _ heq => hk ⟨_, _, heq⟩
      refine ⟨(us.flatMap cases).length, w1, _, id, ?_, ?_, hnode, .cons (.node hk hparts) .nil, honward, ?_⟩
      · rw [expandIn_of_ne_caseOf hk, hrun]
      · simp [tally, cases_node hk]
      · intro v hv x hx
        obtain rfl := mem_singleton.mp hv
        rw [cases_node hk] at hx
        exact hbelow x hx

theorem walks_root (h : w.tree.Owned) (hu : w.tree.unfoldRoot = some (.node i k o us)) :
    ∃ w' us', run w = .ok (us.flatMap cases).length w' ∧ w'.tree.Owned ∧
      w'.tree.unfoldRoot = some (.node i (k.holding (us'.map Unfolding.id)) o us') ∧
      Forall₂ (Replaced w.tree.size) us us' ∧ ∀ x ∈ us.flatMap cases, w'.tree.parent x = none := by
  obtain ⟨hshows, hroot⟩ := h.unfoldRoot_eq_some_iff.mp hu
  obtain ⟨m, w', us', f, hrun, hsum, hmoved, hparts, honward, hdone⟩ :=
    expandAll_eq le_rfl h hshows fun u _ => walks w.tree.size u
  obtain rfl := eq_length_of_tally hsum
  have hnode := hmoved.holding h hshows
  refine ⟨w', us', ?_, hmoved.owned, ?_, hparts, ?_⟩
  · simp only [run, bind_apply, Edit.unfoldRoot_apply, hu]
    by_cases hk : ∃ clauses otherwise, k = .caseOf clauses otherwise
    · obtain ⟨clauses, otherwise, rfl⟩ := hk
      have hp : w'.tree.parent i = none := (hmoved.owned.root_free i (hmoved.root.trans hroot)).2
      simp only [expandIn, expand, bind_apply, hrun, Edit.tree_apply, hp, Edit.pure_apply, Nat.add_zero]
    · rw [expandIn_of_ne_caseOf fun _ _ heq => hk ⟨_, _, heq⟩, hrun]
  · rw [hmoved.owned.unfoldRoot_eq_some_iff, hmoved.root]
    exact ⟨hnode.shows _ (.head _), hroot⟩
  · intro x hx
    obtain ⟨v, hv, hx⟩ := mem_flatMap.mp hx
    exact (hdone v hv x hx).parent

theorem run_eq (h : w.tree.Owned) (hu : w.tree.unfoldRoot = some u) :
    ∃ n w' u', run w = .ok n w' ∧ w'.tree.Owned ∧ w'.tree.unfoldRoot = some u' ∧ Expanded u u' ∧
      u'.FreeBelow Switches := by
  obtain ⟨i, k, o, us⟩ := u
  obtain ⟨w', us', hrun, howned, hu', hparts, -⟩ := walks_root h hu
  refine ⟨_, w', _, hrun, howned, hu', .of_parts (hparts.imp fun _ _ h => h.expanded), ?_⟩
  intro v hv
  obtain ⟨_, -, hr⟩ := exists_of_mem_right hparts hv
  exact hr.free

end Clausal.CaseExpansion
