import Clausal.Proofs.Passes.Expansion
import Clausal.Proofs.Passes.Retirement
import Clausal.Proofs.Tree.Exchanges

/-! # A case becomes a chain

How one case statement of an owned tree is expanded.  The condition and the action of a clause are taken out
of it and given to a new conditional in front of the chain so far (`prependClause_eq`), so the clauses, last
one first, and the fallback become one chain that nobody holds (`chain_eq`). -/

namespace Clausal.CaseExpansion

open Clausal.Tree List Unfolding Edit Kind

/-- The chain of a case in which every conditional is new, which means that its id is `n` or above. -/
inductive NewChain (n : Nat) : List Unfolding → Unfolding → Prop
  | last {u} : Role.block.accepts u.kind = true → NewChain n [u] u
  | clause {i j c a : ElementId} {o condition action r rest} : n ≤ j → NewChain n rest r →
      NewChain n (.node i (.whenClause c a .statement) o [condition, action] :: rest)
        (.node j (.conditional condition.id action.id (some r.id)) o [condition, action, r])

variable {n : Nat} {us : List Unfolding} {u : Unfolding} {w : Workbench} {i x : ElementId} {o : Origin}
  {ids : List ElementId}

theorem NewChain.chain (h : NewChain n us u) : Chain us u := by
  induction h with
  | last hu => exact .last hu
  | clause _ _ ih => exact .clause ih

theorem NewChain.mono {m : Nat} (h : NewChain n us u) (hm : m ≤ n) : NewChain m us u := by
  induction h with
  | last hu => exact .last hu
  | clause hj _ ih => exact .clause (hm.trans hj) ih

/-! ### One chain -/

theorem prependClause_eq (h : w.tree.Owned) {c a : ElementId} {condition action r : Unfolding}
    (hclause : w.tree.Shows (.node i (.whenClause c a .statement) o [condition, action]))
    (hr : w.tree.Loose r) (hrole : Role.elseBranch.accepts r.kind = true) (hi : i ∉ r.ids) :
    ∃ w' j, prependClause r.id i w = .ok j w' ∧ w.tree.Later w'.tree [i] ∧ w.tree.size ≤ j ∧
      w'.tree.Loose (.node j (.conditional condition.id action.id (some r.id)) o [condition, action, r]) := by
  have hface : w.tree.face? i = some (.whenClause c a .statement, o) := hclause.face?
  have hk := kind?_of_face? hface
  have hids : [condition.id, action.id] = [c, a] := hclause.children
  obtain ⟨rfl, rfl⟩ : condition.id = c ∧ action.id = a := by simpa using hids
  obtain ⟨_, _, ⟨⟩, -, hce, -, hab⟩ := (hclause.fits h).two rfl
  obtain ⟨w1, w2, hrel1, hrel2, hlater, hc2, ha2, hstay⟩ := release_clause h hclause
  have hr2 := hstay r hr hi
  -- a conditional takes both parts, with the chain after it
  have hnodup : (conditional condition.id action.id (some r.id)).children.Nodup := by
    have hchildren := h.nodup_children i
    rw [children_of_kind? hk] at hchildren
    have hne : ∀ {v : Unfolding}, v.id ∈ (whenClause condition.id action.id .statement).children →
        v.id ≠ r.id := by
      intro v hv heq
      have hp := h.parent_of_kind? hk hv
      rw [heq, hr.parent] at hp
      cases hp
    have hca : condition.id ≠ action.id := by simpa [Kind.children, slots] using hchildren
    simp [Kind.children, slots, hca, hne (v := condition) (by simp [Kind.children, slots]),
      hne (v := action) (by simp [Kind.children, slots])]
  have hids : [condition, action, r].map Unfolding.id =
      (conditional condition.id action.id (some r.id)).children := rfl
  have hroles : ∀ s ∈ (conditional condition.id action.id (some r.id)).slots,
      ∃ u ∈ [condition, action, r], s.2 = u.id ∧ s.1.accepts u.kind = true := by
    intro s hs
    simp only [slots, Option.toList_some, map_cons, map_nil, cons_append,
      nil_append, mem_cons, not_mem_nil, or_false] at hs
    rcases hs with rfl | rfl | rfl
    · exact ⟨condition, by simp, rfl, hce⟩
    · exact ⟨action, by simp, rfl, hab⟩
    · exact ⟨r, by simp, rfl, hrole⟩
  obtain ⟨w3, halloc, hlater3, hloose, -⟩ :=
    alloc_loose hlater.owned o hids (by simp [hc2, ha2, hr2]) hroles hnodup
  refine ⟨w3, w2.tree.size, ?_, by simpa using hlater.trans hlater3, hlater.size, hloose⟩
  obtain ⟨e, he, heq⟩ := Option.map_eq_some_iff.mp hface
  have horigin : e.origin = o := (Prod.mk.inj heq).2
  unfold prependClause
  simp only [bind_apply, tree_apply, whenParts?, hk, element_apply,
    get_eq_ok_iff.mpr he, horigin, hrel1, hrel2, halloc]

theorem Chain.accepts (h : Chain us u) :
    Role.elseBranch.accepts u.kind = true ∧ Role.statement.accepts u.kind = true := by
  obtain ⟨_, _, _, _, rfl⟩ | ⟨_, _, _, _, _, _, rfl⟩ := h.shape <;> exact ⟨rfl, rfl⟩

theorem chain_eq (h : w.tree.Owned)
    (hus : ∀ v ∈ us, w.tree.Shows v ∧ (Role.clause .statement).accepts v.kind = true) (hu : w.tree.Loose u)
    (hblock : Role.block.accepts u.kind = true) (hnodup : ((us ++ [u]).flatMap Unfolding.ids).Nodup) :
    ∃ w' r, chain u.id (us.map Unfolding.id) w = .ok r.id w' ∧
      w.tree.Later w'.tree (us.map Unfolding.id) ∧ w'.tree.Loose r ∧ NewChain w.tree.size (us ++ [u]) r ∧
      ∀ x ∈ r.ids, x ∈ (us ++ [u]).flatMap Unfolding.ids ∨ w.tree.size ≤ x := by
  induction us with
  | nil =>
    refine ⟨w, u, rfl, .refl h, hu, .last hblock, ?_⟩
    intro x hx
    exact .inl (by simpa using hx)
  | cons v us ih =>
    rw [cons_append, flatMap_cons, nodup_append'] at hnodup
    obtain ⟨hv, hnodup, hdisjoint⟩ := hnodup
    obtain ⟨w1, r, hchain, hlater, hloose, hr, hids⟩ := ih (fun v hv => hus v (.tail _ hv)) hnodup
    obtain ⟨hshows, hclause⟩ := hus v (.head _)
    obtain ⟨i, c, a, o, condition, action, rfl, -⟩ := (hshows.fits h).clause hclause
    have hstill : w1.tree.Shows (.node i (.whenClause c a .statement) o [condition, action]) := by
      refine hlater.shows hshows ?_
      intro x hx hm
      obtain ⟨v, hv, rfl⟩ := mem_map.mp hm
      exact hdisjoint hx (mem_flatMap.mpr ⟨v, mem_append_left _ hv, v.id_mem_ids⟩)
    have hi : i ∉ r.ids := by
      intro hm
      rcases hids i hm with hm | hle
      · exact hdisjoint (by simp) hm
      · exact absurd hshows.lt_size (Nat.not_lt.mpr hle)
    obtain ⟨w2, j, hprepend, hlater2, hj, hloose2⟩ :=
      prependClause_eq hlater.owned hstill hloose hr.chain.accepts.1 hi
    refine ⟨w2, _, ?_, ?_, hloose2, .clause (hlater.size.trans hj) hr, ?_⟩
    · simp only [map_cons, chain, bind_apply, hchain]
      exact hprepend
    · refine (hlater.trans hlater2).mono fun x hx _ => ?_
      rw [map_cons]
      rcases mem_append.mp hx with hx | hx
      · exact .tail _ hx
      · exact mem_singleton.mp hx ▸ .head _
    · intro x hx
      rw [ids_node] at hx
      simp only [flatMap_cons, flatMap_nil, append_nil, mem_cons, mem_append] at hx
      rcases hx with rfl | hx | hx | hx
      · exact .inr (hlater.size.trans hj)
      · exact .inl (by simp [hx])
      · exact .inl (by simp [hx])
      · rcases hids x hx with hx | hx
        · exact .inl (mem_append_right _ hx)
        · exact .inr hx

/-! ### One case -/

theorem detach_eq (h : w.tree.Owned) (hcase : w.tree.Shows (.node i (.caseOf ids x) o us)) :
    ∃ w0 w' r, release i x w = .ok x w0 ∧ chain x ids w0 = .ok r.id w' ∧
      w.tree.Later w'.tree (node i (.caseOf ids x) o us).ids ∧ w'.tree.Loose r ∧ NewChain w.tree.size us r ∧
      ∀ y ∈ r.ids, y ∈ us.flatMap Unfolding.ids ∨ w.tree.size ≤ y := by
  have hface : w.tree.face? i = some (.caseOf ids x, o) := hcase.face?
  have hnodup := hcase.nodup_ids h
  rw [ids_node, nodup_cons] at hnodup
  obtain ⟨hi, hnodup⟩ := hnodup
  have hslots : (caseOf ids x).slots =
      ids.map (Role.clause .statement, ·) ++ [(Arm.statement.actionRole, x)] := rfl
  obtain ⟨vs, v, rfl, rfl, rfl, hclauses, hblock⟩ := (hcase.fits h).alternatives hslots
  have hshows := hcase.child
  have hnot : ∀ u ∈ vs ++ [v], i ∉ u.ids := fun u hu hm => hi (mem_flatMap.mpr ⟨u, hu, hm⟩)
  have hs : (caseOf (vs.map Unfolding.id) v.id).slots[vs.length]? = some (Role.block, v.id) := by
    simp [slots]
  obtain ⟨w1, hrelease, hlater1, -, hloose, -⟩ :=
    release_loose h hface (hshows v (by simp)) (hnot v (by simp)) hs rfl
  have hvs : ∀ u ∈ vs, w1.tree.Shows u ∧ (Role.clause .statement).accepts u.kind = true :=
    fun u hu => ⟨hlater1.shows_of_notMem (hshows u (by simp [hu])) (hnot u (by simp [hu])), hclauses u hu⟩
  obtain ⟨w2, r, hchain, hlater2, hr, hrchain, hids⟩ := chain_eq hlater1.owned hvs hloose hblock hnodup
  refine ⟨w1, w2, r, hrelease, hchain, (hlater1.trans hlater2).mono ?_, hr, hrchain.mono hlater1.size, ?_⟩
  · intro y hy _
    rw [ids_node]
    rcases mem_append.mp hy with hy | hy
    · exact mem_singleton.mp hy ▸ .head _
    · obtain ⟨u, hu, rfl⟩ := mem_map.mp hy
      exact .tail _ (mem_flatMap.mpr ⟨u, by simp [hu], u.id_mem_ids⟩)
  · intro y hy
    rcases hids y hy with hy | hy
    · exact .inl hy
    · exact .inr (hlater1.size.trans hy)

/-- A case that somebody holds gives its place to a chain, and is out of use. -/
theorem expand_moved (h : w.tree.Owned) {p : ElementId}
    (hcase : w.tree.Shows (.node i (.caseOf ids x) o us)) (hp : w.tree.parent i = some p) :
    ∃ w' r, expand i w = .ok 1 w' ∧ NewChain w.tree.size us r ∧
      (∀ x, w.tree.Retired x ∨ x = i → w'.tree.Retired x) ∧
      Moved w.tree w'.tree [.node i (.caseOf ids x) o us] [r] fun c => if c = i then r.id else c := by
  have hk : w.tree.kind? i = some (.caseOf ids x) := kind?_of_face? hcase.face?
  have hi : i ∉ us.flatMap Unfolding.ids := by
    have hnodup := hcase.nodup_ids h
    rw [ids_node] at hnodup
    exact (nodup_cons.mp hnodup).1
  obtain ⟨w0, w1, r, hrelease, hdetach, hlater, hr, hchain, hids⟩ := detach_eq h hcase
  have hparts : ∀ y ∈ r.ids, y ∈ (node i (.caseOf ids x) o us).ids ∧ y ≠ i ∨ w.tree.size ≤ y := by
    intro y hy
    refine (hids y hy).imp_left fun hy => ?_
    rw [ids_node]
    exact ⟨.tail _ hy, fun heq => hi (heq ▸ hy)⟩
  obtain ⟨w2, hreplace, hparent, hmoved⟩ :=
    replace_moved h hcase rfl hp hlater hr hchain.chain.accepts.2 hparts
  have hreplace : Edit.replace p i r.id w1 = .ok () w2 := hreplace
  refine ⟨{ w2 with journal := w2.journal.push (.caseExpanded i r.id) }, r, ?_, hchain, ?_, hmoved⟩
  · unfold expand
    simp only [bind_apply, tree_apply, hp, alternatives?, hk, hrelease, hdetach, hreplace,
      note_apply, pure_apply]
  · have hlast : ∀ z, w1.tree.IsCase z → w2.tree.IsCase z := fun z hz => by
      have hkeeps := keeps_replace (steady_isCase z) p i r.id w1 hz
      rwa [Edit.after, hreplace] at hkeeps
    rintro z (hz | rfl)
    · have hz0 := keeps_retired_release i x w hz
      rw [Edit.after, hrelease] at hz0
      have hz1 := keeps_retired_chain x ids w0 hz0
      rw [Edit.after, hdetach] at hz1
      refine ⟨hmoved.owned, hlast z hz1.isCase, ?_⟩
      -- what takes the place of a case is not a case
      have hne : z ≠ r.id := by
        rintro rfl
        obtain ⟨cs, y, hcs⟩ := hz1.isCase
        rw [kind?_of_face? hr.shows.face?] at hcs
        obtain ⟨_, _, _, _, rfl⟩ | ⟨_, _, _, _, _, _, rfl⟩ := hchain.chain.shape <;> cases hcs
      show w2.tree.parent z = none
      rw [hparent, if_neg hne, hz1.parent]
      exact ite_self none
    · have hz0 := keeps_release (steady_isCase z) z x w ⟨ids, x, hk⟩
      rw [Edit.after, hrelease] at hz0
      have hz1 := keeps_chain (steady_isCase z) x ids w0 hz0
      rw [Edit.after, hdetach] at hz1
      refine ⟨hmoved.owned, hlast z hz1, ?_⟩
      show w2.tree.parent z = none
      rw [hparent]
      exact if_pos rfl

end Clausal.CaseExpansion
