import Clausal.Proofs.Tree.Marking
import Clausal.Proofs.Tree.Splices

/-! # Ways to list a tree

The elements under the root are found in four ways: by a search with a stack of ids (`reachable`), by the
chains of owners (`isReachable`), by a visitor that walks down from element to element (`preorderUntil`), and
as lines of text (`dump`). -/

namespace Clausal

open List Unfolding

namespace Tree

/-- A visitor that does not go below the elements of some kinds stops at this one. -/
def stopsAt (t : Tree) (stop : Kind → Bool) (x : ElementId) : Bool := ((t.kind? x).map stop).getD false

/-- Above `x` there is an element at which a visitor stops, and which is `i` or lies below it. -/
def shaded (t : Tree) (stop : Kind → Bool) (i x : ElementId) : Bool :=
  (t.ancestors x).any fun a => (a == i || (t.ancestors a).contains i) && t.stopsAt stop a

/-- The line of an element in the text of a tree, with two blanks for each owner above it. -/
def line (t : Tree) (x : ElementId) : String :=
  let text (e : Element) : String :=
    String.ofList (replicate (2 * (t.ancestors x).length) ' ') ++ idText x ++ " " ++ e.kind.text ++
      (e.origin.location.map fun l => " @" ++ l.place).getD "" ++ "\n"
  ((t.element? x).map text).getD ""

variable {t : Tree} {u : Unfolding} {stop : Kind → Bool} {i x p : ElementId}

/-! ### Shade -/

namespace Owned

variable (h : t.Owned)
include h

theorem shaded_self : t.shaded stop i i = false := by
  rw [shaded, any_eq_false]
  intro a ha
  have habove := h.mem_ancestors_iff.mp ha
  have hne : a ≠ i := by
    rintro rfl
    exact h.acyclic a habove
  have hnot : i ∉ t.ancestors a := fun hi =>
    h.acyclic i (habove.trans (h.mem_ancestors_iff.mp hi))
  simp [hne, hnot]

theorem shaded_of_parent (hp : t.parent x = some p)
    (hi : Relation.ReflTransGen (fun c o => t.parent c = some o) p i) :
    t.shaded stop i x = (t.stopsAt stop p || t.shaded stop i p) := by
  have hwithin : (p == i || (t.ancestors p).contains i) = true := by
    rcases Relation.reflTransGen_iff_eq_or_transGen.mp hi with rfl | hb
    · simp
    · simp [h.mem_ancestors_iff.mpr hb]
  rw [shaded, h.ancestors_of_parent hp, any_cons, hwithin, Bool.true_and]
  rfl

theorem shaded_owner (hp : t.parent p = some i)
    (hx : Relation.ReflTransGen (fun c o => t.parent c = some o) x p) :
    t.shaded stop i x = (t.stopsAt stop i || t.shaded stop p x) := by
  induction hx using Relation.ReflTransGen.head_induction_on with
  | refl => rw [h.shaded_of_parent hp .refl, h.shaded_self, h.shaded_self]
  | @head x q hq hqp ih =>
    rw [h.shaded_of_parent hq (hqp.tail hp), ih, h.shaded_of_parent hq hqp, Bool.or_left_comm]

end Owned

/-! ### Visitors -/

theorem Shows.preorderUntil_eq (hs : t.Shows u) (h : t.Owned) (stop : Kind → Bool) :
    u.preorderUntil stop = u.preorder.filter fun q => !t.shaded stop u.id q.1 := by
  induction hs with
  | @node i k o us hface hchildren hbelow ih =>
    have hstops : t.stopsAt stop i = stop k := by rw [stopsAt, kind?_of_face? hface]; rfl
    have hparts : ∀ v ∈ us, (v.preorder.filter fun q => !t.shaded stop i q.1) =
        if stop k then [] else v.preorderUntil stop := by
      intro v hv
      have hp : t.parent v.id = some i := Shows.parent (.node hface hchildren hbelow) h v hv
      have howner : ∀ q ∈ v.preorder, (!t.shaded stop i q.1) = (!stop k && !t.shaded stop v.id q.1) := by
        intro q hq
        rw [h.shaded_owner hp ((hbelow v hv).mem_ids h (mem_map_of_mem hq)), hstops, Bool.not_or]
      rw [filter_congr howner]
      cases stop k with
      | true => simp
      | false => simp [ih v hv]
    rw [preorder_node, preorderUntil_node, Unfolding.id,
      filter_cons_of_pos (by simp [h.shaded_self]), filter_flatMap, flatMap_congr hparts]
    cases stop k <;> simp

/-! ### Text -/

theorem outlineAll_eq_join (depth : Nat) (us : List Unfolding) :
    outlineAll depth us = String.join (us.map (outline depth)) := by
  induction us with
  | nil => rw [outlineAll]; rfl
  | cons u us ih => rw [outlineAll, ih, map_cons, String.join_cons]

theorem join_flatMap (us : List Unfolding) (f : Unfolding → List String) :
    String.join (us.flatMap f) = String.join (us.map fun u => String.join (f u)) := by
  induction us with
  | nil => rfl
  | cons u us ih => rw [flatMap_cons, String.join_append, ih, map_cons, String.join_cons]

theorem Shows.outline_eq (hs : t.Shows u) (h : t.Owned) :
    u.outline (t.ancestors u.id).length = String.join (u.ids.map t.line) := by
  induction hs with
  | @node i k o us hface hchildren hbelow ih =>
    have hline : t.line i = String.ofList (replicate (2 * (t.ancestors i).length) ' ') ++ idText i ++
        " " ++ k.text ++ (o.location.map fun l => " @" ++ l.place).getD "" ++ "\n" := by
      obtain ⟨e, he, heq⟩ := Option.map_eq_some_iff.mp hface
      cases heq
      rw [line, he]
      rfl
    have hparts : us.map (outline ((t.ancestors i).length + 1)) =
        us.map fun u => String.join (u.ids.map t.line) := by
      refine map_congr_left fun v hv => ?_
      have hc : v.id ∈ k.children := hchildren ▸ mem_map_of_mem hv
      rw [← ih v hv, h.length_ancestors_child (kind?_of_face? hface) hc]
    rw [outline, Unfolding.id, outlineAll_eq_join, hparts, ids_node, map_cons,
      String.join_cons, map_flatMap, join_flatMap, hline]

/-! ### Agreement -/

theorem Owned.listings (h : t.Owned) :
    t.reachable.Nodup ∧ (∀ fuel, t.size ≤ fuel → t.reachableFrom fuel t.root.toList = t.reachable) ∧
    t.reachable = ((t.unfoldRoot.map preorder).getD []).map Prod.fst ∧
    t.dump = String.join (t.reachable.map t.line) := by
  cases hroot : t.root with
  | none =>
    rw [reachable_eq_nil hroot, dump, unfoldRoot, hroot]
    exact ⟨nodup_nil, fun fuel _ => by unfold reachableFrom; rfl, rfl, rfl⟩
  | some r =>
    obtain ⟨u, hu⟩ := h.exists_unfoldRoot hroot
    obtain ⟨hs, hr⟩ := h.unfoldRoot_eq_some_iff.mp hu
    obtain rfl : u.id = r := Option.some.inj (hr.symm.trans hroot)
    have htop : t.ancestors u.id = [] := by
      have hclimb := h.climb_ancestors u.id
      rw [(h.root_free _ hroot).2] at hclimb
      exact hclimb.unique .stop
    rw [h.reachable_eq hu, dump, hu, ← hs.outline_eq h, htop]
    exact ⟨hs.nodup_ids h, fun _ hfuel => hs.reachableFrom_eq h hfuel, rfl, rfl⟩

/-- In an owned tree the search finds each element under the root once, and a longer search finds no more;
these are the elements whose owners lead to the root, what a visitor of the whole tree meets, and the lines of
its text.  A visitor that stops at some kinds meets the rest of what is below its start.  The owners above an
element are the whole chain of parents. -/
theorem enumerations_agree (h : t.Owned) :
    t.reachable.Nodup ∧ (∀ fuel, t.size ≤ fuel → t.reachableFrom fuel t.root.toList = t.reachable) ∧
    (∀ x, x ∈ t.reachable ↔ t.isReachable x = true) ∧
    t.reachable = ((t.unfoldRoot.map Unfolding.preorder).getD []).map Prod.fst ∧
    (∀ i < t.size, ∃ u, t.unfold i = some u ∧ u.preorder.map Prod.fst = t.subtree i ∧
      ∀ stop : Kind → Bool, (u.preorderUntil stop).map Prod.fst = (t.subtree i).filter (!t.shaded stop i ·) ∧
        ∀ q ∈ u.preorderUntil stop, t.kind? q.1 = some q.2) ∧
    t.dump = String.join (t.reachable.map t.line) ∧
    ∀ x, Climb t (t.parent x) (t.ancestors x) ∧ (x :: t.ancestors x).Nodup := by
  obtain ⟨hnodup, hsearch, hvisit, hdump⟩ := h.listings
  refine ⟨hnodup, hsearch, fun x => h.isReachable_iff.symm, hvisit, fun i hi => ?_, hdump,
    fun x => ⟨h.climb_ancestors x, ?_⟩⟩
  · obtain ⟨u, hs, rfl⟩ := h.exists_shows hi
    refine ⟨u, h.unfold_eq_some_iff.mpr ⟨hs, rfl⟩, (hs.subtree_eq h).symm, fun stop => ?_⟩
    rw [hs.preorderUntil_eq h, hs.subtree_eq h, Unfolding.ids, List.filter_map]
    exact ⟨rfl, fun q hq => hs.kind?_of_mem (List.mem_of_mem_filter hq)⟩
  · exact List.nodup_cons.mpr
      ⟨fun hx => h.acyclic x (h.mem_ancestors_iff.mp hx), h.nodup_climb (h.climb_ancestors x)⟩

theorem negation_enumerations : negation.Owned ∧ negation.reachable = [4, 1, 0] ∧
    negation.dump = String.join ([4, 1, 0].map negation.line) ∧ negation.ancestors 2 = [3] ∧
      Climb negation (negation.parent 2) [3] :=
  have hagree := enumerations_agree negation_owned
  ⟨negation_owned, rfl, hagree.2.2.2.2.2.1, rfl, (hagree.2.2.2.2.2.2 2).1⟩

end Tree

end Clausal
