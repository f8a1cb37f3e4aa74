import Clausal.Proofs.Passes.Leftovers
import Clausal.Proofs.Passes.MatchPouring

/-! # Expanding all matches

The walk that expands every match which a statement assigns or returns, outer ones first.  A statement that
somebody holds is exchanged for a case, and then the walk goes on below the parts that were moved there, each
value with the statement that now takes it. -/

namespace Clausal.MatchExpansion

open Clausal.Tree List Unfolding Edit

section recast
variable {n : Nat} {u u' : Unfolding}

theorem Recast.free (h : Recast n u u') :
    u'.Free Pours ∧ ((∀ ids x, u.kind ≠ .matchOf ids x) → ∀ ids x, u'.kind ≠ .matchOf ids x) := by
  refine h.induct (P := fun u u' => u'.Free Pours ∧
      ((∀ ids x, u.kind ≠ .matchOf ids x) → ∀ ids x, u'.kind ≠ .matchOf ids x))
    (Q := fun _ _ u => u.Free Pours ∧ ∀ ids x, u.kind ≠ .matchOf ids x)
    (A := fun _ _ us => ∀ u ∈ us, u.Free Pours) ?_ (fun _ hu => ⟨hu.1, fun _ => hu.2⟩) ?_ ?_ ?_ ?_
  · intro i k o us us' hk hus
    refine ⟨free_iff.mpr ⟨?_, fun v hv => ?_⟩, fun hnot ids x heq => ?_⟩
    · generalize hholding : k.holding (us'.map Unfolding.id) = k'
      rintro ⟨hsink⟩
      obtain ⟨v, _, hv, hnil, rfl⟩ := forall₂_cons_right_iff.mp hus
      have hsame : Sink.ofKind? k' = Sink.ofKind? k := by rw [← hholding]; cases k <;> rfl
      exact hv.2 (hk _ (hsame ▸ hsink) v (.head _)) _ _ rfl
    · obtain ⟨_, -, hfree⟩ := exists_of_mem_right hus hv
      exact hfree.1
    · rw [kind] at heq
      cases k <;> first | exact hnot _ _ rfl | cases heq
  · intro sink v v' s _ hnot hv
    refine ⟨free_iff.mpr ⟨not_pours_of_ne_matchOf (hv.2 hnot),
      freeBelow_one.mpr hv.1⟩, ?_⟩
    cases sink <;> simp [kind, Sink.statement]
  · intro sink i j x y ids ids' o us us' _ harms
    exact ⟨free_iff.mpr ⟨not_pours_of_ofKind? rfl, harms⟩, by simp [kind]⟩
  · intro sink v u b _ _ hu
    exact forall_mem_singleton.mpr (free_iff.mpr
      ⟨not_pours_of_ofKind? rfl, freeBelow_one.mpr hu.1⟩)
  · intro sink i j c a b o condition condition' v u us us' _ _ hcondition hu harms
    refine forall_mem_cons.mpr ⟨free_iff.mpr
      ⟨not_pours_of_ofKind? rfl, fun v hv => ?_⟩, harms⟩
    simp only [Unfolding.children, mem_cons, not_mem_nil, or_false] at hv
    rcases hv with rfl | rfl
    · exact hcondition.1
    · exact free_iff.mpr ⟨not_pours_of_ofKind? rfl, freeBelow_one.mpr hu.1⟩

end recast

/-! ### The walk -/

def weight : Kind → Nat
  | .matchOf .. => 1
  | _ => 0

def matchCount (u : Unfolding) : Nat := (u.preorder.map fun q => weight q.2).sum

theorem matchCount_node (i : ElementId) (k : Kind) (o : Origin) (us : List Unfolding) :
    matchCount (.node i k o us) = weight k + (us.map matchCount).sum := by
  rw [matchCount, preorder_node, map_cons, sum_cons]
  congr 1
  induction us with
  | nil => rfl
  | cons u us ih => rw [flatMap_cons, map_append, sum_append, ih, map_cons, sum_cons]; rfl

theorem weight_holding (k : Kind) (ids : List ElementId) : weight (k.holding ids) = weight k := by
  cases k <;> rfl

theorem weight_of_ofKind? {k : Kind} {sink : Sink} (hk : Sink.ofKind? k = some sink) : weight k = 0 := by
  cases k <;> first | rfl | cases hk

def tally : Tally where
  before := matchCount
  after := matchCount
  onward t t' := t.size ≤ t'.size
  done _ _ := True
  refl _ := Nat.le_refl _
  trans := Nat.le_trans
  stays _ _ := trivial

/-- Wherever an unfolding is shown that somebody holds, the walk of it succeeds and expands the matches in it. -/
def Walks (n : Nat) (u : Unfolding) : Prop :=
  ∀ (w : Workbench) (p : ElementId), n ≤ w.tree.size → w.tree.Owned → w.tree.Shows u →
    w.tree.parent u.id = some p → Rewrites (Recast n) tally w [u] (expandIn u)

/-- Wherever a statement with this value is shown that somebody holds, the walk of the value succeeds and expands
the matches in it, and the value itself if it is one. -/
def WalksValue (n : Nat) (v : Unfolding) : Prop :=
  ∀ (w : Workbench) (sink : Sink) (s p : ElementId) (k : Kind) (o : Origin), n ≤ w.tree.size → w.tree.Owned →
    Sink.ofKind? k = some sink → w.tree.Shows (.node s k o [v]) → w.tree.parent s = some p →
    ∃ c w' u' f, expandValue sink s v w = .ok c w' ∧ matchCount v = c + matchCount u' ∧
      Moved w.tree w'.tree [.node s k o [v]] [u'] f ∧
      ((∃ v', u' = .node s k o [v'] ∧ (∀ ids x, v.kind ≠ .matchOf ids x) ∧ Recast n v v') ∨
        (∃ ids x, v.kind = .matchOf ids x) ∧ Filled n sink v u')

variable {n : Nat} {w : Workbench} {i s : ElementId} {k : Kind} {o : Origin} {us us' : List Unfolding}
  {t : Tree} {v : Unfolding} {sink : Sink}

theorem expandAll_eq (hn : n ≤ w.tree.size) (h : w.tree.Owned) (hu : w.tree.Shows (.node i k o us))
    (ih : ∀ u ∈ us, Walks n u) : Rewrites (Recast n) tally w us (expandAll us) := by
  refine .parts (by rw [expandAll]) (fun _ _ => by rw [expandAll]) h hu ?_
  intro u hm w' honward h' hshows hp
  exact ih u hm w' i (hn.trans honward) h' hshows hp

theorem expandValue_lay (ih : WalksValue n v) (hn : n ≤ w.tree.size) (h : w.tree.Owned) {b : ElementId}
    (hs : n ≤ s) (hlay : w.tree.Shows (lay sink b s v)) :
    ∃ c w' u, expandValue sink s v w = .ok c w' ∧ matchCount v = c + matchCount u ∧
      Moved w.tree w'.tree [lay sink b s v] [.node b (.block [u.id]) v.origin [u]] id ∧ Filled n sink v u := by
  have hheld : w.tree.parent s = some b := hlay.parent h _ (.head _)
  obtain ⟨c, w', u, f, hrun, hcount, hmoved, hu⟩ := ih w sink s b (sink.statement v.id) v.origin hn h
    (Sink.ofKind?_statement sink v.id) (hlay.child _ (.head _)) hheld
  refine ⟨c, w', u, hrun, hcount, hmoved.holding h hlay, ?_⟩
  rcases hu with ⟨v', rfl, hnot, hv'⟩ | ⟨-, hu⟩
  · have hchildren := (hmoved.shows _ (.head _)).children
    have hid : [v'.id] = [v.id] := hchildren.trans (by rw [Kind.children, (Sink.slots_statement ..).1]; rfl)
    rw [← singleton_inj.mp hid]
    exact .value hs hnot hv'
  · exact hu

theorem expandArms_eq {ss : List ElementId} (hlaid : Laid n sink us ss us')
    (ih : ∀ u ∈ us, WalksValue n u) (ih' : ∀ u ∈ us, ∀ v ∈ u.children, Walks n v ∧ WalksValue n v)
    (hn : n ≤ w.tree.size) (h : w.tree.Owned) (hus : ∀ u ∈ us', w.tree.Shows u)
    (hnodup : (us'.flatMap Unfolding.ids).Nodup) :
    ∃ c w' us'' f, expandArms sink ss us w = .ok c w' ∧
      (us.map matchCount).sum = c + (us''.map matchCount).sum ∧
      Moved w.tree w'.tree us' us'' f ∧ FilledArms n sink us us'' := by
  induction hlaid generalizing w with
  | @fallback v b s hexpr hb hs =>
    obtain ⟨c, w', u, hrun, hcount, hmoved, hu⟩ := expandValue_lay (ih v (.head _)) hn h hs (hus _ (.head _))
    refine ⟨c, w', _, id, ?_, ?_, hmoved, .fallback hexpr hb hu⟩
    · rw [expandArms]
      · simp only [bind_apply, hrun, expandArms, pure_apply]
        rfl
      · rintro _ _ _ _ _ _ _ rfl
        cases hexpr
    · simp [matchCount_node, weight, hcount]
  | @clause i j c a b s o condition v us us' ss hj hb hs _ ihus =>
    obtain ⟨hcondition, hvalue⟩ : Walks n condition ∧ WalksValue n v :=
      ⟨(ih' _ (.head _) condition (by simp [Unfolding.children])).1,
        (ih' _ (.head _) v (by simp [Unfolding.children])).2⟩
    have hclause := hus _ (.head _)
    have hrest : ∀ u ∈ us', w.tree.Shows u := fun u hu => hus u (.tail _ hu)
    have hnodup' := hclause.nodup_ids h
    rw [ids_node, nodup_cons, flatMap_cons, nodup_append'] at hnodup'
    rw [flatMap_cons, nodup_append'] at hnodup
    -- the condition, and then the value in its block
    obtain ⟨c1, w1, cs, f, hrun1, hcount1, hmoved1, hexp1, hsize1, -⟩ := hcondition w j hn h
      (hclause.child condition (by simp)) (hclause.parent h condition (by simp [Unfolding.children]))
    obtain ⟨condition', rfl, hcondition'⟩ := forall₂_one hexp1
    have hd : ([condition].flatMap Unfolding.ids).Disjoint ([lay sink b s v].flatMap Unfolding.ids) := by
      rw [flatMap_singleton]
      exact hnodup'.2.2.2
    have hlay := hclause.child (lay sink b s v) (by simp)
    obtain ⟨c2, w2, u, hrun2, hcount2, hmoved2, hfilled⟩ := expandValue_lay hvalue (hn.trans hsize1)
      hmoved1.owned hs (hmoved1.shows_of_disjoint h hlay fun x hx hxc => hd hxc (by simpa using hx))
    have hmoved := (hmoved1.append hmoved2 hd fun u hu => mem_singleton.mp hu ▸ hlay).holding h hclause
    have hshape := (hmoved.shows _ (.head _)).children
    have hid : condition'.id = condition.id := (List.cons.inj hshape).1
    have hd' : ([Unfolding.node j (.whenClause condition.id b .statement) o
        [condition, lay sink b s v]].flatMap Unfolding.ids).Disjoint
        (us'.flatMap Unfolding.ids) := by
      rw [flatMap_singleton]
      exact hnodup.2.2
    -- and the other arms
    obtain ⟨c3, w3, us'', g, hrun3, hcount3, hmoved3, hfilled3⟩ := ihus
      (fun u hu => ih u (.tail _ hu)) (fun u hu => ih' u (.tail _ hu))
      (hn.trans hmoved.size) hmoved.owned (fun u hu => hmoved.shows_of_disjoint h (hrest u hu) fun x hx hxc =>
        hd' hxc (mem_flatMap.mpr ⟨u, hu, hx⟩)) hnodup.2.1
    refine ⟨c1 + c2 + c3, w3, _, _, ?_, ?_, hmoved.append hmoved3 hd' hrest, ?_⟩
    · simp only [expandArms, bind_apply, hrun1, hrun2, hrun3, pure_apply]
    · simp only [map_cons, map_nil, sum_cons, sum_nil, cons_append, nil_append,
        matchCount_node, Kind.holding, weight, tally] at hcount1 ⊢
      omega
    · have harm := FilledArms.clause (i := i) (c := c) (a := a) (o := o) hj hb hcondition' hfilled hfilled3
      rw [hid] at harm
      exact harm

theorem expandMatch_eq {m x p : ElementId} {ids : List ElementId} {om : Origin}
    (ih : ∀ u ∈ us, WalksValue n u) (ih' : ∀ u ∈ us, ∀ v ∈ u.children, Walks n v ∧ WalksValue n v)
    (hn : n ≤ w.tree.size) (h : w.tree.Owned) (hk : Sink.ofKind? k = some sink)
    (hs : w.tree.Shows (.node s k o [.node m (.matchOf ids x) om us])) (hp : w.tree.parent s = some p) :
    ∃ c w' u' f, expandValue sink s (.node m (.matchOf ids x) om us) w = .ok c w' ∧
      matchCount (.node m (.matchOf ids x) om us) = c + matchCount u' ∧
      Moved w.tree w'.tree [.node s k o [.node m (.matchOf ids x) om us]] [u'] f ∧
      Filled n sink (.node m (.matchOf ids x) om us) u' := by
  obtain ⟨w1, c, ss, us', ids', y, hbuild, hlater, hloose, hlaid, hc, hids⟩ :=
    buildCase_eq hn h sink (hs.child _ (.head _))
  have hnodup := hs.nodup_ids h
  rw [ids_node, nodup_cons, flatMap_singleton] at hnodup
  have hsub : ∀ z ∈ us.flatMap Unfolding.ids, z ∈ (Unfolding.node m (.matchOf ids x) om us).ids := by
    intro z hz
    rw [ids_node]
    exact .tail _ hz
  obtain ⟨w2, hreplace, -, hmoved⟩ := replace_moved h hs (Sink.isStep_of_ofKind? hk) hp
    (hlater.mono fun z hz _ => by
      rw [ids_node, flatMap_singleton]
      exact .tail _ hz) hloose rfl (fun z hz => (hids z hz).imp_left fun hz => by
      rw [ids_node, flatMap_singleton]
      refine ⟨.tail _ (hsub z hz), ?_⟩
      rintro rfl
      exact hnodup.1 (hsub _ hz))
  have hcase := hmoved.shows _ (.head _)
  have hnodup' := hcase.nodup_ids hmoved.owned
  rw [ids_node, nodup_cons] at hnodup'
  obtain ⟨d, w3, us'', f, hrun, hcount, hmoved3, hfilled⟩ := expandArms_eq
    (w := { w2 with journal := w2.journal.push (.matchExpanded m c) }) hlaid ih ih' (hn.trans hmoved.size)
    hmoved.owned hcase.child hnodup'.2
  have hnode := hmoved3.holding hmoved.owned hcase
  have hshape : us''.map Unfolding.id = ids' ++ [y] := by
    have hchildren := (hnode.shows _ (.head _)).children
    simpa [Unfolding.children, kind, Kind.holding, Kind.children, Kind.slots] using hchildren
  refine ⟨1 + d, w3, _, _, ?_, ?_, hmoved.trans hnode (fun _ => (Sink.isStep_of_ofKind? hk))
    (fun _ => .inl (id_eq _)), .matchOf hc hshape hfilled⟩
  · have hreplace : Edit.replace p s c w1 = .ok () w2 := hreplace
    simp only [expandValue, bind_apply, tree_apply, hp, hbuild, hreplace, note_apply, hrun,
      pure_apply]
  · simp only [matchCount_node, Kind.holding, weight]
    omega

theorem ofKind?_value (h : t.Owned) (hk : Sink.ofKind? k = some sink) (hs : t.Shows (.node s k o [v])) :
    Sink.ofKind? v.kind = none := by
  obtain ⟨slot, hslot, -, haccepts⟩ := (hs.fits h).slot_of_mem (.head _)
  cases hv : Sink.ofKind? v.kind with
  | none => rfl
  | some _ =>
    obtain ⟨ids, rfl⟩ := Kind.block_of_accepts_isStep hslot (Sink.isStep_of_ofKind? hv) haccepts
    cases hk

theorem recast_value {w' : Workbench} {f : ElementId → ElementId} (h : w.tree.Owned)
    {ks : Kind} {os : Origin} (hks : Sink.ofKind? ks = some sink)
    (hs : w.tree.Shows (.node s ks os [.node i k o us])) (hmoved : Moved w.tree w'.tree us us' f)
    (hus : Forall₂ (Recast n) us us') :
    ∃ v', matchCount v' = weight k + (us'.map matchCount).sum ∧
      Moved w.tree w'.tree [.node s ks os [.node i k o us]] [.node s ks os [v']] id ∧
      Recast n (.node i k o us) v' := by
  have hnode := ((hmoved.holding h (hs.child _ (.head _))).node h hs).1
  rw [Kind.relabel_id] at hnode
  have hk : Sink.ofKind? k = none := ofKind?_value h hks hs
  refine ⟨_, ?_, hnode, .node (fun sink hsink => ?_) hus⟩
  · rw [matchCount_node, weight_holding]
  · rw [hk] at hsink
    cases hsink

theorem expandIn_eq (h : ∀ v sink, us = [v] → Sink.ofKind? k ≠ some sink) :
    expandIn (.node i k o us) = expandAll us := by
  by_cases hone : ∃ v, us = [v]
  · obtain ⟨v, rfl⟩ := hone
    have hk : Sink.ofKind? k = none := Option.eq_none_iff_forall_ne_some.mpr fun sink => h v sink rfl
    funext w
    simp only [expandIn, hk, expandAll, bind_apply, pure_apply]
    cases expandIn v w <;> rfl
  · rw [expandIn]
    exact fun v heq => hone ⟨v, heq⟩

theorem eq_singleton_of_ofKind? (hu : t.Shows (.node i k o us)) (hk : Sink.ofKind? k = some sink) :
    ∃ v, us = [v] := by
  have hlength : k.children.length = 1 := by
    cases k with
    | assignment => rfl
    | returns value => cases value <;> first | rfl | cases hk
    | _ => cases hk
  have hchildren : us.map Unfolding.id = k.children := hu.children
  rw [← hchildren, length_map] at hlength
  exact length_eq_one_iff.mp hlength

theorem walks (n : Nat) (u : Unfolding) : Walks n u ∧ WalksValue n u := by
  induction u using induct₂ with
  | node i k o us ih ih' =>
    have hwalks : ∀ u ∈ us, Walks n u := fun u hu => (ih u hu).1
    constructor
    · intro w p hn h hu hp
      by_cases hpours : ∃ v sink, us = [v] ∧ Sink.ofKind? k = some sink
      · obtain ⟨v, sink, rfl, hk⟩ := hpours
        obtain ⟨c, w', u', f, hrun, hcount, hmoved, hu'⟩ := (ih v (.head _)).2 w sink i p k o hn h hk hu hp
        refine ⟨c, w', [u'], f, by simp only [expandIn, hk, hrun], ?_, hmoved, .cons ?_ .nil, hmoved.size,
          fun _ _ => trivial⟩
        · simp [tally, matchCount_node, weight_of_ofKind? hk, hcount]
        · rcases hu' with ⟨v', rfl, hnot, hv'⟩ | ⟨⟨ids, x, hv⟩, hfilled⟩
          · have hself : k.holding ([v'].map Unfolding.id) = k := by
              cases k <;> first | rfl | cases hk
            have hrecast := Recast.node (n := n) (i := i) (k := k) (o := o) (fun _ _ v hv => by
              obtain rfl := mem_singleton.mp hv
              exact hnot) (.cons hv' .nil)
            rwa [hself] at hrecast
          · obtain ⟨m, km, om, vs⟩ := v
            obtain rfl : km = .matchOf ids x := hv
            exact .poured hk hfilled
      · obtain ⟨c, w', us', f, hrun, hcount, hmoved, hexp, hsize, -⟩ := expandAll_eq hn h hu hwalks
        refine ⟨c, w', _, id, ?_, ?_, hmoved.holding h hu, .cons (.node (fun sink hsink v hv => ?_) hexp) .nil,
          hsize, fun _ _ => trivial⟩
        · rw [expandIn_eq fun v sink heq hk => hpours ⟨v, sink, heq, hk⟩, hrun]
        · simp only [tally] at hcount
          simp only [map_cons, map_nil, sum_cons, sum_nil, tally, matchCount_node,
            weight_holding]
          omega
        · obtain ⟨v, rfl⟩ := eq_singleton_of_ofKind? hu hsink
          exact absurd ⟨v, sink, rfl, hsink⟩ hpours
    · intro w sink s p ks os hn h hk hs hp
      have hv := hs.child _ (.head _)
      by_cases hmatch : ∃ ids x, k = .matchOf ids x
      · obtain ⟨ids, x, rfl⟩ := hmatch
        obtain ⟨c, w', u', f, hrun, hcount, hmoved, hfilled⟩ :=
          expandMatch_eq (fun u hu => (ih u hu).2) ih' hn h hk hs hp
        exact ⟨c, w', u', f, hrun, hcount, hmoved, .inr ⟨⟨_, _, rfl⟩, hfilled⟩⟩
      · have hnot : ∀ ids x, k ≠ .matchOf ids x := fun ids x heq => hmatch ⟨ids, x, heq⟩
        obtain ⟨c, w', us', f, hrun, hcount, hmoved, hexp, hsize, -⟩ := expandAll_eq hn h hv hwalks
        obtain ⟨v', hv', hmoved', hrecast⟩ := recast_value h hk hs hmoved hexp
        refine ⟨c, w', _, id, ?_, ?_, hmoved', .inl ⟨v', rfl, hnot, hrecast⟩⟩
        · rw [expandValue, hrun]
          exact hnot
        · simp only [tally] at hcount
          simp only [matchCount_node, weight_of_ofKind? hk, hv', map_cons, map_nil, sum_cons,
            sum_nil]
          omega

theorem walks_root (h : w.tree.Owned) (hu : w.tree.unfoldRoot = some (.node i k o us)) :
    ∃ c w' us', run w = .ok c w' ∧ (us.map matchCount).sum = c + (us'.map matchCount).sum ∧ w'.tree.Owned ∧
      w'.tree.unfoldRoot = some (.node i (k.holding (us'.map Unfolding.id)) o us') ∧
      Forall₂ (Recast w.tree.size) us us' := by
  obtain ⟨hshows, hroot⟩ := h.unfoldRoot_eq_some_iff.mp hu
  have hfound : ∀ {w' : Workbench} {u'}, Moved w.tree w'.tree [.node i k o us] [u'] id →
      w'.tree.unfoldRoot = some u' := by
    intro w' u' hmoved
    have hid : [u'.id] = [i] := hmoved.ids
    rw [hmoved.owned.unfoldRoot_eq_some_iff, hmoved.root, singleton_inj.mp hid]
    exact ⟨hmoved.shows u' (.head _), hroot⟩
  have hrun : run w = expandIn (.node i k o us) w := by
    simp only [run, bind_apply, unfoldRoot_apply, hu]
  rw [hrun]
  by_cases hpours : ∃ v sink, us = [v] ∧ Sink.ofKind? k = some sink
  · obtain ⟨⟨m, km, om, vs⟩, sink, rfl, hk⟩ := hpours
    have hp : w.tree.parent i = none := (h.root_free i hroot).2
    have hwalk : ∀ journal, ∃ c w' us' f, expandAll vs { w with journal } = .ok c w' ∧
        (vs.map matchCount).sum = c + (us'.map matchCount).sum ∧ Moved w.tree w'.tree vs us' f ∧
        Forall₂ (Recast w.tree.size) vs us' := by
      intro journal
      obtain ⟨c, w', us', f, hrun, hcount, hmoved, hexp, -⟩ := expandAll_eq (w := { w with journal })
        le_rfl h (hshows.child _ (.head _)) fun u _ => (walks w.tree.size u).1
      exact ⟨c, w', us', f, hrun, hcount, hmoved, hexp⟩
    obtain ⟨journal, hvalue⟩ : ∃ journal, expandValue sink i (.node m km om vs) w =
        expandAll vs { w with journal } := by
      by_cases hmatch : ∃ ids x, km = .matchOf ids x
      · obtain ⟨ids, x, rfl⟩ := hmatch
        exact ⟨w.journal.push (.matchDetached m i),
          by simp only [expandValue, bind_apply, tree_apply, hp, note_apply]⟩
      · refine ⟨w.journal, ?_⟩
        rw [expandValue]
        exact fun ids x heq => hmatch ⟨ids, x, heq⟩
    obtain ⟨c, w', us', f, hrun, hcount, hmoved, hexp⟩ := hwalk journal
    obtain ⟨v', hv', hmoved', hrecast⟩ := recast_value h hk hshows hmoved hexp
    have hself : k.holding ([v'].map Unfolding.id) = k := by
      cases k <;> first | rfl | cases hk
    refine ⟨c, w', [v'], by simp only [expandIn, hk, hvalue, hrun], ?_, hmoved.owned, ?_, .cons hrecast .nil⟩
    · simp only [map_cons, map_nil, sum_cons, sum_nil, matchCount_node, hv']
      omega
    · rw [hself, hfound hmoved']
  · obtain ⟨c, w', us', f, hrun, hcount, hmoved, hexp, -⟩ :=
      expandAll_eq le_rfl h hshows fun u _ => (walks w.tree.size u).1
    refine ⟨c, w', us', ?_, hcount, hmoved.owned, hfound (hmoved.holding h hshows), hexp⟩
    rw [expandIn_eq fun v sink heq hk => hpours ⟨v, sink, heq, hk⟩, hrun]

theorem run_eq (h : w.tree.Owned) {u : Unfolding} (hu : w.tree.unfoldRoot = some u) :
    ∃ n w' u', run w = .ok n w' ∧ w'.tree.Owned ∧ w'.tree.unfoldRoot = some u' ∧
      Expanded Drains u u' ∧ u'.FreeBelow Pours := by
  obtain ⟨i, k, o, us⟩ := u
  obtain ⟨c, w', us', hrun, -, howned, hu', hparts⟩ := walks_root h hu
  refine ⟨c, w', _, hrun, howned, hu', .node ?_ (hparts.imp fun _ _ h => h.expanded), ?_⟩
  · exact k.akin_holding _
  · intro v hv
    obtain ⟨_, -, hr⟩ := exists_of_mem_right hparts hv
    exact hr.free.1

end Clausal.MatchExpansion
