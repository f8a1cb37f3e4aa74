import Clausal.Passes.MatchExpansion
import Clausal.Proofs.Tree.Exchanges

/-! # A match becomes a case

`Expanded same u u'` says that `u'` is `u` with cases in the place of statements that take the value of a
match:  `same k make` tells which statements are made in the place of one of the kind `k`. -/

namespace Clausal

open List Unfolding Edit Kind

namespace MatchExpansion

open Clausal.Tree

mutual

/-- The second unfolding is the first one with cases in the place of statements with matches. -/
inductive Expanded (same : Kind → (ElementId → Kind) → Prop) : Unfolding → Unfolding → Prop
  | node {i k k' o us us'} : k.Akin k' → Forall₂ (Expanded same) us us' →
      Expanded same (.node i k o us) (.node i k' o us')
  | poured {i k make o v u} : same k make → Poured same make v u → Expanded same (.node i k o [v]) u

/-- The statement of a value, with a case in the place of a match. -/
inductive Poured (same : Kind → (ElementId → Kind) → Prop) :
    (ElementId → Kind) → Unfolding → Unfolding → Prop
  | value {make v v' i x o} : Expanded same v v' → Poured same make v (.node i (make x) o [v'])
  | matchOf {make i j x y ids ids' o o' us us'} : PouredArms same make us us' →
      Poured same make (.node i (.matchOf ids x) o us) (.node j (.caseOf ids' y) o' us')

/-- The clauses and the fallback of a case with such statements for the values of a match. -/
inductive PouredArms (same : Kind → (ElementId → Kind) → Prop) :
    (ElementId → Kind) → List Unfolding → List Unfolding → Prop
  | fallback {make v u b ids o} : v.kind.isExpression = true → Poured same make v u →
      PouredArms same make [v] [.node b (.block ids) o [u]]
  | clause {make i j c c' a b b' ids o o' condition condition' v u us us'} :
      Expanded same condition condition' → Poured same make v u → PouredArms same make us us' →
      PouredArms same make (.node i (.whenClause c a .value) o [condition, v] :: us)
        (.node j (.whenClause c' b' .statement) o [condition', .node b (.block ids) o' [u]] :: us')

end

section expanded
variable {same : Kind → (ElementId → Kind) → Prop} {P : Unfolding → Unfolding → Prop}
  {Q : (ElementId → Kind) → Unfolding → Unfolding → Prop}
  {A : (ElementId → Kind) → List Unfolding → List Unfolding → Prop}

theorem Expanded.induct
    (node : ∀ {i k k' o us us'}, k.Akin k' → Forall₂ (fun u u' => Expanded same u u' ∧ P u u') us us' →
      P (.node i k o us) (.node i k' o us'))
    (poured : ∀ {i k make o v u}, same k make → Q make v u → P (.node i k o [v]) u)
    (value : ∀ {make v v' i x o}, P v v' → Q make v (.node i (make x) o [v']))
    (matchOf : ∀ {make i j x y ids ids' o o' us us'}, A make us us' →
      Q make (.node i (.matchOf ids x) o us) (.node j (.caseOf ids' y) o' us'))
    (fallback : ∀ {make v u b ids o}, v.kind.isExpression = true → Q make v u →
      A make [v] [.node b (.block ids) o [u]])
    (clause : ∀ {make i j c c' a b b' ids o o' condition condition' v u us us'}, P condition condition' →
      Q make v u → A make us us' → A make (.node i (.whenClause c a .value) o [condition, v] :: us)
        (.node j (.whenClause c' b' .statement) o [condition', .node b (.block ids) o' [u]] :: us'))
    {u u' : Unfolding} (h : Expanded same u u') : P u u' :=
  @Expanded.rec same (fun u u' _ => P u u') (fun make v u _ => Q make v u) (fun make us us' _ => A make us us')
    (fun us us' _ => Forall₂ (fun u u' => Expanded same u u' ∧ P u u') us us')
    (fun hakin _ hus => node hakin hus)
    (fun hsame _ hu => poured hsame hu) (fun _ hexp => value hexp) (fun _ harms => matchOf harms)
    (fun hexpr _ hu => fallback hexpr hu) (fun _ _ _ hcondition hu harms => clause hcondition hu harms) .nil
    (fun hexp _ hu hus => .cons ⟨hexp, hu⟩ hus) u u' h

end expanded

/-- The statements that the pass makes in the place of a statement. -/
def Drains (k : Kind) (make : ElementId → Kind) : Prop :=
  ∃ sink, Sink.ofKind? k = some sink ∧ make = fun x => sink.statement x

theorem Sink.ofKind?_statement (sink : Sink) (x : ElementId) :
    Sink.ofKind? (sink.statement x) = some sink := by
  cases sink <;> rfl

theorem Sink.isStep_of_ofKind? {k : Kind} {sink : Sink} (hk : Sink.ofKind? k = some sink) :
    k.isStep = true := by
  cases k <;> first | rfl | simp [Sink.ofKind?] at hk

mutual

/-- The second unfolding is the first one with a new case, which means that its id is `n` or above, in the place of
every statement that takes the value of a match. -/
inductive Recast (n : Nat) : Unfolding → Unfolding → Prop
  | node {i k o us us'} : (∀ sink, Sink.ofKind? k = some sink → ∀ v ∈ us, ∀ ids x, v.kind ≠ .matchOf ids x) →
      Forall₂ (Recast n) us us' →
      Recast n (.node i k o us) (.node i (k.holding (us'.map Unfolding.id)) o us')
  | poured {i m x k o om ids us sink u} : Sink.ofKind? k = some sink →
      Filled n sink (.node m (.matchOf ids x) om us) u →
      Recast n (.node i k o [.node m (.matchOf ids x) om us]) u

/-- The new statement that takes a value, or the new case in the place of a match. -/
inductive Filled (n : Nat) : Sink → Unfolding → Unfolding → Prop
  | value {sink v v'} {s : ElementId} : n ≤ s → (∀ ids x, v.kind ≠ .matchOf ids x) →
      Recast n v v' → Filled n sink v (.node s (sink.statement v'.id) v.origin [v'])
  | matchOf {sink} {i j x y : ElementId} {ids ids' o us us'} :
      n ≤ j → us'.map Unfolding.id = ids' ++ [y] → FilledArms n sink us us' →
      Filled n sink (.node i (.matchOf ids x) o us) (.node j (.caseOf ids' y) o us')

/-- The new clauses and the new fallback of a case, in the place of those of a match. -/
inductive FilledArms (n : Nat) : Sink → List Unfolding → List Unfolding → Prop
  | fallback {sink v u} {b : ElementId} : v.kind.isExpression = true → n ≤ b →
      Filled n sink v u → FilledArms n sink [v] [.node b (.block [u.id]) v.origin [u]]
  | clause {sink i} {j : ElementId} {c a} {b : ElementId} {o condition condition' v u us us'} :
      n ≤ j → n ≤ b → Recast n condition condition' → Filled n sink v u →
      FilledArms n sink us us' →
      FilledArms n sink (.node i (.whenClause c a .value) o [condition, v] :: us)
        (.node j (.whenClause condition'.id b .statement) o
          [condition', .node b (.block [u.id]) v.origin [u]] :: us')

end

section recast
variable {n : Nat} {P : Unfolding → Unfolding → Prop} {Q : Sink → Unfolding → Unfolding → Prop}
  {A : Sink → List Unfolding → List Unfolding → Prop} {u u' : Unfolding}

theorem Recast.induct
    (node : ∀ {i k o us us'}, (∀ sink, Sink.ofKind? k = some sink → ∀ v ∈ us, ∀ ids x, v.kind ≠ .matchOf ids x) →
      Forall₂ P us us' → P (.node i k o us) (.node i (k.holding (us'.map Unfolding.id)) o us'))
    (poured : ∀ {i m x k o om ids us sink u}, Sink.ofKind? k = some sink →
      Q sink (.node m (.matchOf ids x) om us) u → P (.node i k o [.node m (.matchOf ids x) om us]) u)
    (value : ∀ {sink v v' s}, n ≤ s → (∀ ids x, v.kind ≠ .matchOf ids x) → P v v' →
      Q sink v (.node s (sink.statement v'.id) v.origin [v']))
    (matchOf : ∀ {sink i j x y ids ids' o us us'}, n ≤ j → A sink us us' →
      Q sink (.node i (.matchOf ids x) o us) (.node j (.caseOf ids' y) o us'))
    (fallback : ∀ {sink v u b}, v.kind.isExpression = true → n ≤ b → Q sink v u →
      A sink [v] [.node b (.block [u.id]) v.origin [u]])
    (clause : ∀ {sink i j c a b o condition condition' v u us us'}, n ≤ j → n ≤ b → P condition condition' →
      Q sink v u → A sink us us' → A sink (.node i (.whenClause c a .value) o [condition, v] :: us)
        (.node j (.whenClause condition'.id b .statement) o
          [condition', .node b (.block [u.id]) v.origin [u]] :: us')) (h : Recast n u u') : P u u' :=
  @Recast.rec n (fun u u' _ => P u u') (fun sink v u _ => Q sink v u) (fun sink us us' _ => A sink us us')
    (fun us us' _ => Forall₂ P us us') (fun hk _ hus => node hk hus) (fun hk _ hu => poured hk hu)
    (fun hs hv _ hexp => value hs hv hexp) (fun hj _ _ harms => matchOf hj harms)
    (fun hexpr hb _ hu => fallback hexpr hb hu)
    (fun hj hb _ _ _ hcondition hu harms => clause hj hb hcondition hu harms) .nil
    (fun _ _ hu hus => .cons hu hus) u u' h

theorem Recast.expanded (h : Recast n u u') : Expanded Drains u u' := by
  exact h.induct (Q := fun sink => Poured Drains fun x => sink.statement x)
    (A := fun sink => PouredArms Drains fun x => sink.statement x) (fun _ hus => .node (akin_holding ..) hus)
    (fun hk hu => .poured ⟨_, hk, rfl⟩ hu) (fun _ _ hv => .value hv) (fun _ harms => .matchOf harms)
    (fun hexpr _ hu => .fallback hexpr hu) (fun _ _ hcondition hu harms => .clause hcondition hu harms)

end recast

variable {same : Kind → (ElementId → Kind) → Prop} {us : List Unfolding} {w : Workbench} {v : Unfolding}
  {o : Origin}

theorem Expanded.akin {u u' : Unfolding} (h : Expanded same u u') (hk : ∀ make, ¬ same u.kind make) :
    u.kind.Akin u'.kind := by
  cases h with
  | node hakin => exact hakin
  | poured hsame => exact absurd hsame (hk _)

theorem PouredArms.exists_cons {make : ElementId → Kind} {us' : List Unfolding}
    (h : PouredArms same make us us') : (∃ u vs, us = u :: vs) ∧ ∃ u vs, us' = u :: vs := by
  cases h with
  | fallback | clause => exact ⟨⟨_, _, rfl⟩, _, _, rfl⟩

/-! ### One case -/

def lay (sink : Sink) (b s : ElementId) (v : Unfolding) : Unfolding :=
  .node b (.block [s]) v.origin [.node s (sink.statement v.id) v.origin [v]]

/-- The arms of a match, the statements that take their values, and the arms of a case with these
statements, which are new with their blocks and the clauses. -/
inductive Laid (n : Nat) (sink : Sink) : List Unfolding → List ElementId → List Unfolding → Prop
  | fallback {v : Unfolding} {b s : ElementId} : v.kind.isExpression = true → n ≤ b → n ≤ s →
      Laid n sink [v] [s] [lay sink b s v]
  | clause {i j c a b s : ElementId} {o condition v us us' ss} :
      n ≤ j → n ≤ b → n ≤ s → Laid n sink us ss us' →
      Laid n sink (.node i (.whenClause c a .value) o [condition, v] :: us) (s :: ss)
        (.node j (.whenClause condition.id b .statement) o [condition, lay sink b s v] :: us')

theorem ids_lay (sink : Sink) (b s : ElementId) (v : Unfolding) :
    (lay sink b s v).ids = b :: s :: v.ids := by
  simp [lay, ids_node]

theorem Sink.slots_statement (sink : Sink) (x : ElementId) :
    (sink.statement x).slots = [(.expression, x)] ∧ Role.statement.accepts (sink.statement x) = true := by
  cases sink <;> exact ⟨rfl, rfl⟩

theorem sinkValue_eq (h : w.tree.Owned) (sink : Sink) (hv : w.tree.Loose v)
    (hexpr : v.kind.isExpression = true) :
    ∃ w' s b, sinkValue sink v.id w = .ok ⟨s, b⟩ w' ∧ w.tree.Later w'.tree [] ∧ w.tree.size ≤ s ∧
      w.tree.size ≤ b ∧ w'.tree.Loose (lay sink b s v) ∧
      ∀ u, w.tree.Loose u → u.id ≠ v.id → w'.tree.Loose u := by
  obtain ⟨hslots, haccepts⟩ := Sink.slots_statement sink v.id
  have hchildren : (sink.statement v.id).children = [v.id] := by
    rw [Kind.children, hslots]
    rfl
  have hroles : ∀ s ∈ (sink.statement v.id).slots, ∃ u ∈ [v], s.2 = u.id ∧ s.1.accepts u.kind = true := by
    intro s hs
    rw [hslots] at hs
    obtain rfl := mem_singleton.mp hs
    exact ⟨v, mem_singleton_self v, rfl, hexpr⟩
  have hids : [v].map Unfolding.id = (sink.statement v.id).children := hchildren.symm
  obtain ⟨w1, halloc1, hlater1, hs, hstay1⟩ := alloc_loose h v.origin hids
    (by simpa using hv) hroles (by simp [hchildren])
  have hblock : (block [w.tree.size]).children = [w.tree.size] := rfl
  have hids' : [Unfolding.node w.tree.size (sink.statement v.id) v.origin [v]].map Unfolding.id =
    (block [w.tree.size]).children := rfl
  obtain ⟨w2, halloc2, hlater2, hb, hstay2⟩ := alloc_loose hlater1.owned v.origin hids'
    (by simpa using hs) (by simpa [slots] using ⟨rfl, haccepts⟩) (by simp [hblock])
  refine ⟨w2, w.tree.size, w1.tree.size, ?_, by simpa using hlater1.trans hlater2, le_rfl,
    hlater1.size, hb, fun u hu hne => ?_⟩
  · obtain ⟨e, he, heq⟩ := Option.map_eq_some_iff.mp hv.shows.face?
    have horigin : e.origin = v.origin := (Prod.mk.inj heq).2
    unfold sinkValue
    simp only [bind_apply, element_apply, get_eq_ok_iff.mpr he, horigin, halloc1, halloc2,
      pure_apply]
  · refine hstay2 u (hstay1 u hu (by simpa [hchildren] using hne)) ?_
    rw [hblock, mem_singleton]
    exact Nat.ne_of_lt hu.shows.lt_size

theorem relay_eq (h : w.tree.Owned) (sink : Sink) {i c a : ElementId} {condition : Unfolding}
    (hclause : w.tree.Shows (.node i (.whenClause c a .value) o [condition, v])) :
    ∃ w1 w2 w3 w4 s b j, release i condition.id w = .ok condition.id w1 ∧
      release i v.id w1 = .ok v.id w2 ∧ sinkValue sink v.id w2 = .ok ⟨s, b⟩ w3 ∧
      Edit.alloc (.whenClause condition.id b .statement) o w3 = .ok j w4 ∧
      w.tree.Later w4.tree [i] ∧ w.tree.size ≤ s ∧ w.tree.size ≤ b ∧ w.tree.size ≤ j ∧
      j < w4.tree.size ∧
      w4.tree.Loose (.node j (.whenClause condition.id b .statement) o [condition, lay sink b s v]) ∧
      ∀ u, w.tree.Loose u → i ∉ u.ids → w4.tree.Loose u := by
  obtain ⟨_, _, ⟨⟩, -, hce, -, hve⟩ := (hclause.fits h).two rfl
  have hids : [condition.id, v.id] = [c, a] := hclause.children
  obtain ⟨rfl, rfl⟩ : condition.id = c ∧ v.id = a := by simpa using hids
  have hface : w.tree.face? i = some (.whenClause condition.id v.id .value, o) := hclause.face?
  have hk := kind?_of_face? hface
  have hchildren := h.nodup_children i
  rw [children_of_kind? hk] at hchildren
  have hne : condition.id ≠ v.id := by simpa [Kind.children, slots] using hchildren
  have hheld : ∀ u, w.tree.Loose u → u.id ≠ condition.id ∧ u.id ≠ v.id := by
    intro u hu
    have hparent : ∀ x ∈ (whenClause condition.id v.id .value).children, u.id ≠ x := by
      intro x hx heq
      have hp := h.parent_of_kind? hk hx
      rw [← heq, hu.parent] at hp
      cases hp
    exact ⟨hparent _ (by simp [Kind.children, slots]), hparent _ (by simp [Kind.children, slots])⟩
  obtain ⟨w1, w2, hrel1, hrel2, hlater, hc2, hv2, hstay2⟩ := release_clause h hclause
  obtain ⟨w3, s, b, hsink, hlater3, hs, hb, hlay, hstay3⟩ := sinkValue_eq hlater.owned sink hv2 hve
  have hc3 := hstay3 condition hc2 hne
  have hlt : condition.id < b := Nat.lt_of_lt_of_le hc2.shows.lt_size hb
  have hroles : ∀ r ∈ (whenClause condition.id b .statement).slots,
      ∃ u ∈ [condition, lay sink b s v], r.2 = u.id ∧ r.1.accepts u.kind = true := by
    intro r hr
    simp only [slots, mem_cons, not_mem_nil, or_false] at hr
    rcases hr with rfl | rfl
    · exact ⟨condition, by simp, rfl, hce⟩
    · exact ⟨lay sink b s v, by simp, rfl, rfl⟩
  have hids : [condition, lay sink b s v].map Unfolding.id =
    (whenClause condition.id b .statement).children := rfl
  obtain ⟨w4, halloc, hlater4, hloose, hstay4⟩ := alloc_loose hlater3.owned o hids
    (by simp [hc3, hlay]) hroles
    (by simpa [Kind.children, slots] using Nat.ne_of_lt hlt)
  refine ⟨w1, w2, w3, w4, s, b, _, hrel1, hrel2, hsink, halloc, ?_, hlater.size.trans hs,
    hlater.size.trans hb, hlater.size.trans hlater3.size, hloose.shows.lt_size, hloose, fun u hu hi => ?_⟩
  · exact (hlater.trans (hlater3.trans hlater4)).mono (by simp)
  · obtain ⟨huc, huv⟩ := hheld u hu
    refine hstay4 u (hstay3 u (hstay2 u hu hi) huv) ?_
    have hub : u.id ≠ b := Nat.ne_of_lt (Nat.lt_of_lt_of_le hu.shows.lt_size (hlater.size.trans hb))
    simp [Kind.children, slots, huc, hub]

theorem moveClauses_eq (h : w.tree.Owned) (sink : Sink)
    (hus : ∀ u ∈ us, w.tree.Shows u ∧ (Role.clause .value).accepts u.kind = true)
    (hnodup : (us.flatMap Unfolding.ids).Nodup) :
    ∃ w' ss us', moveClauses sink (us.map Unfolding.id) w = .ok (us'.map Unfolding.id, ss) w' ∧
      w.tree.Later w'.tree (us.map Unfolding.id) ∧
      (∀ u ∈ us', w'.tree.Loose u ∧ (Role.clause .statement).accepts u.kind = true ∧ w.tree.size ≤ u.id) ∧
      (us'.map Unfolding.id).Nodup ∧
      (∀ x ∈ us'.flatMap Unfolding.ids, x ∈ us.flatMap Unfolding.ids ∨ w.tree.size ≤ x) ∧
      (∀ v, w.tree.Loose v → v.ids.Disjoint (us.flatMap Unfolding.ids) → w'.tree.Loose v) ∧
      ∀ {n : Nat} {vs vs' : List Unfolding} {ss' : List ElementId}, n ≤ w.tree.size → Laid n sink vs ss' vs' →
        Laid n sink (us ++ vs) (ss ++ ss') (us' ++ vs') := by
  induction us generalizing w with
  | nil =>
    exact ⟨w, [], [], rfl, .refl h, by simp, by simp, by simp, fun _ hv _ => hv, fun _ hlaid => hlaid⟩
  | cons u us ih =>
    rw [flatMap_cons, nodup_append'] at hnodup
    obtain ⟨-, hnodup, hdisjoint⟩ := hnodup
    obtain ⟨hshows, hclause⟩ := hus u (.head _)
    obtain ⟨i, c, a, o, condition, v, rfl, -⟩ := (hshows.fits h).clause hclause
    obtain ⟨w1, w2, w3, w4, s, b, j, hrel1, hrel2, hsink, halloc, hlater, hs, hb, hj, hjlt, hloose,
      hstay⟩ := relay_eq h sink hshows
    have hi : i ∉ us.flatMap Unfolding.ids := fun hm => hdisjoint (by simp) hm
    obtain ⟨w5, ss, us', hmove, hlater5, hus', hnodup', hids, hstay5, hlaid⟩ := ih hlater.owned
      (fun v hv => ⟨hlater.shows_of_notMem (hus v (.tail _ hv)).1 fun hm =>
        hi (mem_flatMap.mpr ⟨v, hv, hm⟩), (hus v (.tail _ hv)).2⟩) hnodup
    have hface : w.tree.face? i = some (.whenClause c a .value, o) := hshows.face?
    have hold : ∀ x ∈ us.flatMap Unfolding.ids, x < w.tree.size := by
      intro x hx
      obtain ⟨v, hv, hx⟩ := mem_flatMap.mp hx
      exact (hus v (.tail _ hv)).1.ids_lt_size x hx
    have hclause_ids : (Unfolding.node i (.whenClause c a .value) o [condition, v]).ids =
        i :: (condition.ids ++ v.ids) := by
      simp [ids_node]
    have hmoved_ids : (Unfolding.node j (.whenClause condition.id b .statement) o
        [condition, lay sink b s v]).ids = j :: (condition.ids ++ b :: s :: v.ids) := by
      simp [ids_node, ids_lay]
    rw [hclause_ids] at hdisjoint
    -- the new clause has the parts of the old one, and is new otherwise
    have hparts : ∀ x ∈ j :: (condition.ids ++ b :: s :: v.ids),
        x ∈ condition.ids ++ v.ids ∨ w.tree.size ≤ x := by
      intro x hx
      simp only [mem_cons, mem_append] at hx ⊢
      rcases hx with rfl | hx | rfl | rfl | hx
      · exact .inr hj
      · exact .inl (.inl hx)
      · exact .inr hb
      · exact .inr hs
      · exact .inl (.inr hx)
    refine ⟨w5, s :: ss, .node j (.whenClause condition.id b .statement) o
      [condition, lay sink b s v] :: us', ?_, ?_, ?_, ?_, ?_, ?_, fun hn h =>
        .clause (hn.trans hj) (hn.trans hb) (hn.trans hs) (hlaid (hn.trans hlater.size) h)⟩
    · obtain ⟨e, he, heq⟩ := Option.map_eq_some_iff.mp hface
      have horigin : e.origin = o := (Prod.mk.inj heq).2
      have hids : [condition.id, v.id] = [c, a] := hshows.children
      obtain ⟨rfl, rfl⟩ : condition.id = c ∧ v.id = a := by simpa using hids
      have hparts? : w.tree.whenParts? i = some (condition.id, v.id) := by
        rw [whenParts?, kind?_of_face? hface]
      have hid : (Unfolding.node i (.whenClause condition.id v.id .value) o [condition, v]).id = i := rfl
      rw [map_cons, hid]
      unfold moveClauses
      simp only [bind_apply, tree_apply, hparts?, element_apply, get_eq_ok_iff.mpr he,
        horigin, hrel1, hrel2, hsink, halloc, hmove, pure_apply]
      rfl
    · refine (hlater.trans hlater5).mono fun x hx _ => ?_
      rw [map_cons]
      rcases mem_append.mp hx with hx | hx
      · exact mem_singleton.mp hx ▸ .head _
      · exact .tail _ hx
    · intro x hx
      rcases mem_cons.mp hx with rfl | hx
      · refine ⟨hstay5 _ hloose fun x hx hxu => ?_, rfl, hj⟩
        rw [hmoved_ids] at hx
        rcases hparts x hx with hx | hle
        · exact hdisjoint (.tail _ hx) hxu
        · exact absurd (hold x hxu) (Nat.not_lt.mpr hle)
      · exact ⟨(hus' x hx).1, (hus' x hx).2.1, hlater.size.trans (hus' x hx).2.2⟩
    · rw [map_cons, nodup_cons]
      refine ⟨fun hm => ?_, hnodup'⟩
      obtain ⟨x, hx, hxj⟩ := mem_map.mp hm
      have hxlt : x.id < w4.tree.size := hxj ▸ hjlt
      exact absurd (hus' x hx).2.2 (Nat.not_le.mpr hxlt)
    · intro x hx
      rw [flatMap_cons, hmoved_ids, mem_append] at hx
      rw [flatMap_cons, hclause_ids, mem_append]
      rcases hx with hx | hx
      · exact (hparts x hx).imp_left fun hx => .inl (.tail _ hx)
      · exact (hids x hx).imp .inr hlater.size.trans
    · intro u hu hd
      rw [flatMap_cons, hclause_ids] at hd
      refine hstay5 u (hstay u hu fun hm => hd hm (by simp)) fun x hx hxu => ?_
      exact hd hx (mem_append_right _ hxu)

theorem buildCase_eq {n : Nat} (hn : n ≤ w.tree.size) (h : w.tree.Owned) (sink : Sink)
    {m x : ElementId} {ids : List ElementId} (hmatch : w.tree.Shows (.node m (.matchOf ids x) o us)) :
    ∃ w' c ss us' ids' y, buildCase sink m ids x w = .ok (c, ss) w' ∧
      w.tree.Later w'.tree (Unfolding.node m (.matchOf ids x) o us).ids ∧
      w'.tree.Loose (.node c (.caseOf ids' y) o us') ∧ Laid n sink us ss us' ∧ n ≤ c ∧
      ∀ z ∈ (Unfolding.node c (.caseOf ids' y) o us').ids,
        z ∈ us.flatMap Unfolding.ids ∨ w.tree.size ≤ z := by
  have hface : w.tree.face? m = some (.matchOf ids x, o) := hmatch.face?
  have hnodup := hmatch.nodup_ids h
  rw [ids_node, nodup_cons] at hnodup
  obtain ⟨hm, hnodup⟩ := hnodup
  have hslots : (Kind.matchOf ids x).slots =
      ids.map (Role.clause .value, ·) ++ [(Arm.value.actionRole, x)] := rfl
  obtain ⟨vs, v, rfl, rfl, rfl, hclauses, hexpr⟩ := (hmatch.fits h).alternatives hslots
  have hshows := hmatch.child
  rw [flatMap_append, flatMap_singleton, nodup_append'] at hnodup
  rw [flatMap_append, flatMap_singleton, mem_append, not_or] at hm
  obtain ⟨hnodup, -, hdisjoint⟩ := hnodup
  obtain ⟨w1, ss, us', hmove, hlater1, hus', hnodup', hids, hstay, hlaid⟩ := moveClauses_eq h sink
    (fun u hu => ⟨hshows u (by simp [hu]), hclauses u hu⟩) hnodup
  -- the match itself and its fallback are as before
  have hnot : ∀ {y}, y ∉ vs.flatMap Unfolding.ids → y ∉ vs.map Unfolding.id :=
    fun hy hm => hy (id_mem_flatMap hm)
  have hface1 : w1.tree.face? m = some (.matchOf (vs.map Unfolding.id) v.id, o) := by
    rw [hlater1.face? m hmatch.lt_size (hnot hm.1), hface]
  have hv1 : w1.tree.Shows v := hlater1.shows (hshows v (by simp)) fun y hy =>
    hnot fun hm => hdisjoint hm hy
  have hs : (Kind.matchOf (vs.map Unfolding.id) v.id).slots[vs.length]? = some (Role.expression, v.id) := by
    simp [slots]
  obtain ⟨w2, hrelease, hlater2, -, hloose, hstay2⟩ := release_loose hlater1.owned hface1 hv1 hm.2 hs rfl
  obtain ⟨w3, s, b, hsink, hlater3, hs, hb, hlay, hstay3⟩ := sinkValue_eq hlater2.owned sink hloose hexpr
  have hvlt : v.id < w.tree.size := (hshows v (by simp)).lt_size
  have hus3 : ∀ u ∈ us', w3.tree.Loose u := by
    intro u hu
    obtain ⟨hu1, -, hle⟩ := hus' u hu
    refine hstay3 u (hstay2 u hu1 fun hmu => ?_) (Nat.ne_of_gt (Nat.lt_of_lt_of_le hvlt hle))
    rcases hids m (mem_flatMap.mpr ⟨u, hu, hmu⟩) with hmu | hle
    · exact hm.1 hmu
    · exact absurd hmatch.lt_size (Nat.not_lt.mpr hle)
  have hblt : ∀ u ∈ us', u.id < b := fun u hu =>
    Nat.lt_of_lt_of_le (hus' u hu).1.shows.lt_size (hlater2.size.trans hb)
  have hmap : (us' ++ [lay sink b s v]).map Unfolding.id =
      (caseOf (us'.map Unfolding.id) b).children := by
    simp [Kind.children, slots, lay, Unfolding.id]
  have hroles : ∀ r ∈ (caseOf (us'.map Unfolding.id) b).slots,
      ∃ u ∈ us' ++ [lay sink b s v], r.2 = u.id ∧ r.1.accepts u.kind = true := by
    intro r hr
    rw [slots, map_map, mem_append, mem_singleton] at hr
    rcases hr with hr | rfl
    · obtain ⟨u, hu, rfl⟩ := mem_map.mp hr
      exact ⟨u, mem_append_left _ hu, rfl, (hus' u hu).2.1⟩
    · exact ⟨lay sink b s v, by simp, rfl, rfl⟩
  have hchildren : (caseOf (us'.map Unfolding.id) b).children.Nodup := by
    rw [← hmap, map_append, nodup_append']
    refine ⟨hnodup', by simp, fun y hy hyb => ?_⟩
    obtain ⟨u, hu, rfl⟩ := mem_map.mp hy
    exact Nat.ne_of_lt (hblt u hu) (mem_singleton.mp hyb)
  obtain ⟨w4, halloc, hlater4, hcase, -⟩ := alloc_loose hlater3.owned o hmap
    (fun u hu => (mem_append.mp hu).elim (hus3 u) fun hu => mem_singleton.mp hu ▸ hlay)
    hroles hchildren
  have hsize := hlater1.size.trans hlater2.size
  refine ⟨w4, _, _, _, _, _, ?_, ?_, hcase, hlaid hn (.fallback hexpr (hn.trans (hsize.trans hb))
    (hn.trans (hsize.trans hs))), hn.trans (hsize.trans hlater3.size), ?_⟩
  · obtain ⟨e, he, heq⟩ := Option.map_eq_some_iff.mp hface
    have horigin : e.origin = o := (Prod.mk.inj heq).2
    unfold buildCase
    simp only [bind_apply, element_apply, get_eq_ok_iff.mpr he, horigin, hmove, hrelease,
      hsink, halloc, pure_apply]
  · refine (hlater1.trans (hlater2.trans (hlater3.trans hlater4))).mono fun y hy _ => ?_
    rw [ids_node, flatMap_append]
    simp only [append_nil, mem_append, mem_singleton] at hy
    rcases hy with hy | rfl
    · exact .tail _ (mem_append_left _ (id_mem_flatMap hy))
    · exact .head _
  · intro z hz
    rw [ids_node, mem_cons, flatMap_append, flatMap_singleton, ids_lay,
      mem_append, mem_cons, mem_cons] at hz
    rw [flatMap_append, flatMap_singleton, mem_append]
    rcases hz with rfl | hz | rfl | rfl | hz
    · exact .inr (hsize.trans hlater3.size)
    · exact (hids z hz).imp_left .inl
    · exact .inr (hsize.trans hb)
    · exact .inr (hsize.trans hs)
    · exact .inl (.inr hz)

end MatchExpansion

end Clausal
