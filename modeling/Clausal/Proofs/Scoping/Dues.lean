import Clausal.Proofs.Scoping.LetSites

/-! # An initializer stands right behind its declaration

A statement right behind a declaration owes it a value: each arm of the statement may initialize the name that
was declared, and nothing else in it may. -/

namespace Clausal

open List

namespace Scoping

open Unfolding

variable {i : ElementId} {k k' : Kind} {o : Origin} {us us' before after : List Unfolding} {u u' : Unfolding}
  {due : Option String} {x : String}

def lastDeclared (before : List Unfolding) : Option String := (before.getLast?.bind declares).map Prod.fst

/-- The name that the arms of a part of an element may initialize, between the parts before and after it. -/
def dueIn (k : Kind) (due : Option String) (before after : List Unfolding) : Option String :=
  match k, before, after with
  | .block _, [], [] => due
  | .block _, before, _ => lastDeclared before
  | .caseOf .., _, _ => due
  | .whenClause .., [_], [] => due
  | .conditional .., [_], [_] => due
  | .conditional .., [_, _], [] => due
  | _, _, _ => none

/-- The kind initializes no other name, and does not declare it as well. -/
def Pays (due : Option String) (k : Kind) : Prop :=
  ∀ x, k.initialized? = some x → due = some x ∧ k.isDeclaration = false

/-- Every initializer is an arm of a statement right behind a declaration of its name. -/
inductive Poised : Option String → Unfolding → Prop
  | node {due : Option String} {i : ElementId} {k : Kind} {o : Origin} {us : List Unfolding} : Pays due k →
      (∀ before u after, us = before ++ u :: after → Poised (dueIn k due before after) u) →
      Poised due (.node i k o us)

theorem pays_of_initialized? (h : k.initialized? = none) : Pays due k := by
  intro x hx
  rw [h] at hx
  cases hx

theorem dueIn_of_not_forks (hk : k.forks = false) (due : Option String) (before after : List Unfolding) :
    dueIn k due before after = none := by
  cases k <;> first | rfl | cases hk

namespace Poised

theorem pays (h : Poised due u) : Pays due u.kind := by
  cases h with
  | node hpays _ => exact hpays

theorem split (before after : List Unfolding) (h : Poised due (.node i k o (before ++ u :: after))) :
    Poised (dueIn k due before after) u := by
  cases h with
  | node _ hbelow => exact hbelow before u after rfl

theorem part (h : Poised due (.node i k o us)) (hk : k.forks = false) (hu : u ∈ us) : Poised none u := by
  obtain ⟨before, after, rfl⟩ := append_of_mem hu
  have hpart := h.split _ _
  rwa [dueIn_of_not_forks hk] at hpart

theorem of_parts (hk : k.forks = false) (hpays : Pays due k) (hus : ∀ u ∈ us, Poised none u) :
    Poised due (.node i k o us) := by
  refine .node hpays ?_
  rintro before u after rfl
  rw [dueIn_of_not_forks hk]
  exact hus u (by simp)

end Poised

/-! ### Fresh trees -/

theorem pays_of_paired {ids : List ElementId} (h : Paired (before ++ u :: after)) :
    Pays (dueIn (.block ids) due before after) u.kind := by
  intro x hx
  obtain ⟨before', v, d, value, rfl, hv, hkind⟩ := exists_declaration h hx
  have hlast : lastDeclared (before' ++ [v]) = some x := by
    rw [lastDeclared, getLast?_concat, Option.bind_some, hv]
    rfl
  refine ⟨?_, by rw [hkind]; rfl⟩
  cases before' <;> exact hlast

theorem poised_of_shows {t : Tree} (ht : t.Fresh) (hu : t.Shows u) (hpays : Pays due u.kind) : Poised due u := by
  induction u generalizing due with
  | node i k o us ih =>
    refine .node hpays ?_
    rintro before u after rfl
    have hm : u ∈ before ++ u :: after := by simp
    refine ih u hm (hu.child u hm) ?_
    by_cases hk : ∃ ids, k = .block ids
    · obtain ⟨ids, rfl⟩ := hk
      exact pays_of_paired (ht.paired hu)
    · exact pays_of_initialized? (initialized?_of_fits (hu.fits ht.owned) (fun ids heq => hk ⟨ids, heq⟩) hm)

/-! ### Rows -/

theorem Pays.like (h : Pays due k) (hk : k.Like k') : Pays due k' := by
  intro x hx
  rw [hk.initialized?] at hx
  rw [hk.declaration]
  exact h x hx

theorem lastDeclared_row (h : Forall₂ (fun u u' => declares u' = declares u) us us') :
    lastDeclared us' = lastDeclared us := by
  induction h with
  | nil => rfl
  | cons hu hrest ih =>
    cases hrest with
    | nil => simp only [lastDeclared, getLast?_singleton, Option.bind_some, hu]
    | cons _ _ => simpa only [lastDeclared, getLast?_cons_cons] using ih

theorem dueIn_row {before' after' : List Unfolding} (hk : k.Like k')
    (hbefore : Forall₂ (fun u u' => declares u' = declares u) before before')
    (hafter : after'.length = after.length) : dueIn k' due before' after' = dueIn k due before after := by
  have hblock (ids ids' : List ElementId) :
      dueIn (.block ids') due before' after' = dueIn (.block ids) due before after := by
    cases hbefore with
    | nil =>
      cases after <;> cases after' <;> first | rfl | cases hafter
    | cons hu hrest => exact lastDeclared_row (.cons hu hrest)
  rcases hk.shape with (rfl | ⟨ids, ids', rfl, rfl⟩) | ⟨hforks, hforks'⟩
  · have hlength := hbefore.length_eq
    cases k' with
    | block ids => exact hblock ids ids
    | whenClause | conditional =>
      rcases before with _ | ⟨_, _ | ⟨_, _ | ⟨_, _⟩⟩⟩ <;> rcases before' with _ | ⟨_, _ | ⟨_, _ | ⟨_, _⟩⟩⟩ <;>
        simp only [length_cons, length_nil] at hlength <;> first | omega | skip
      all_goals
        rcases after with _ | ⟨_, _ | ⟨_, _⟩⟩ <;> rcases after' with _ | ⟨_, _ | ⟨_, _⟩⟩ <;>
          first | rfl | (simp only [length_cons, length_nil] at hafter; omega)
    | _ => rfl
  · exact hblock ids ids'
  · rw [dueIn_of_not_forks hforks, dueIn_of_not_forks hforks']

/-- The second unfolding can take the place of the first one. -/
structure Exchanges (u u' : Unfolding) : Prop where
  declares_eq : declares u' = declares u
  poised : ∀ due, Poised due u → Poised due u'

theorem Poised.exchange (h : Poised due (.node i k o us)) (hk : k.Like k') (hus : Forall₂ Exchanges us us') :
    Poised due (.node i k' o us') := by
  refine .node (h.pays.like hk) ?_
  rintro before' u' after' rfl
  have hbefore := forall₂_take_append us before' (u' :: after') hus
  have hrest := forall₂_drop_append us before' (u' :: after') hus
  obtain ⟨u, after, hu, hafter, hdrop⟩ := forall₂_cons_right_iff.mp hrest
  rw [← take_append_drop before'.length us, hdrop] at h
  rw [dueIn_row hk (hbefore.imp fun _ _ h => h.declares_eq) hafter.length_eq.symm]
  exact hu.poised _ (h.split _ _)

theorem Poised.marked (h : Poised due u) (as : List (ElementId × Mark)) : Poised due (u.marked as) := by
  induction u generalizing due with
  | node i k o us ih =>
    rw [marked_node]
    refine h.exchange (Kind.like_rekind i as k) ?_
    rw [forall₂_map_right_iff]
    exact forall₂_same.mpr fun u hu => ⟨declares_marked as u, fun due hdue => ih u hu hdue⟩

/-! ### Places -/

/-- The arms of the element are arms of a statement right behind a declaration of the name, and there a name means
what it means in front of that statement. -/
def Behind (root : Unfolding) (l : Layer) (env : List Layer) (x : String) (u : Unfolding) : Prop :=
  ∃ l0 i ids o before d s after, At root (l0 :: env) (.node i (.block ids) o (before ++ d :: s :: after)) ∧
    (declares d).map Prod.fst = some x ∧ (∀ a ∈ u.arms, a ∈ s.arms) ∧
      ∀ y, l.find? y = (l0.opened (before ++ [d])).find? y

section
variable {root : Unfolding} {l : Layer} {env : List Layer}

theorem arms_of_dueIn {before after : List Unfolding} (hk : changesScope k = false)
    (h : dueIn k due before after = some x) (i : ElementId) (o : Origin) :
    due = some x ∧ ∀ a ∈ u.arms, a ∈ (Unfolding.node i k o (before ++ u :: after)).arms := by
  have hbranch {vs : List Unfolding} (hvs : branches k (before ++ u :: after) = some vs) (hu : u ∈ vs) :
      ∀ a ∈ u.arms, a ∈ (Unfolding.node i k o (before ++ u :: after)).arms := by
    intro a ha
    rw [arms_of_branches hvs]
    exact mem_flatMap.mpr ⟨u, hu, ha⟩
  unfold dueIn at h
  split at h
  · cases hk
  · cases hk
  · exact ⟨h, hbranch rfl (by simp)⟩
  · exact ⟨h, hbranch rfl (by simp)⟩
  · exact ⟨h, hbranch rfl (by simp)⟩
  · exact ⟨h, hbranch rfl (by simp)⟩
  · cases h

theorem Poised.of_at (h : Poised none root) (hu : At root env u) :
    ∃ l env' due, env = l :: env' ∧ Poised due u ∧ ∀ x, due = some x → Behind root l env' x u := by
  induction hu with
  | @function i j b m name ids o o' us params captures lifted body heq hf =>
    subst heq
    have hbody := (h.part rfl hf).part rfl (.head _)
    exact ⟨_, _, none, rfl, hbody, nofun⟩
  | @closure env i j f b name o o' params captures bound lifted body _ ih =>
    obtain ⟨l, env', due, rfl, hclosure, -⟩ := ih
    have hbody := (hclosure.part rfl (.head _)).part rfl (.head _)
    exact ⟨_, _, none, rfl, hbody, nofun⟩
  | @statement l env i ids o before after u hat ih =>
    obtain ⟨l', env', due, heq, hblock, hbehind⟩ := ih
    cases heq
    refine ⟨_, _, _, rfl, hblock.split before after, fun x hx => ?_⟩
    rcases eq_nil_or_concat before with rfl | ⟨front, d, rfl⟩
    · cases after with
      | nil =>
        -- the only statement of a block has its arms
        obtain ⟨l0, i', ids', o', before', d, s, after', hat', hd, harms, hfind⟩ := hbehind x hx
        refine ⟨l0, i', ids', o', before', d, s, after', hat', hd, fun a ha => harms a ?_, hfind⟩
        rwa [nil_append, arms_of_branches rfl, flatMap_singleton]
      | cons => cases hx
    · have hdue : dueIn (.block ids) due (front ++ [d]) after = lastDeclared (front ++ [d]) := by
        cases front <;> rfl
      rw [concat_eq_append] at hx hat
      rw [hdue, lastDeclared, getLast?_concat, Option.bind_some] at hx
      rw [append_assoc, singleton_append] at hat
      exact ⟨l, i, ids, o, front, d, u, after, hat, hx, fun a ha => ha, fun y => by rw [concat_eq_append]⟩
  | @part env i k o us u hat hk hu ih =>
    obtain ⟨l, env', due, rfl, hwhole, hbehind⟩ := ih
    obtain ⟨before, after, rfl⟩ := append_of_mem hu
    refine ⟨l, env', _, rfl, hwhole.split before after, fun x hx => ?_⟩
    obtain ⟨hdue, hsub⟩ := arms_of_dueIn hk hx i o
    obtain ⟨l0, i', ids', o', before', d, s, after', hat', hd, harms, hfind⟩ := hbehind x hdue
    exact ⟨l0, i', ids', o', before', d, s, after', hat', hd, fun a ha => harms a (hsub a ha), hfind⟩

theorem Poised.behind_of_at (h : Poised none root) (hu : At root (l :: env) u)
    (hx : u.kind.initialized? = some x) : Behind root l env x u ∧ u.kind.isDeclaration = false := by
  obtain ⟨l', env', due, heq, hpoised, hbehind⟩ := h.of_at hu
  cases heq
  obtain ⟨hdue, hdeclaration⟩ := hpoised.pays x hx
  exact ⟨hbehind x hdue, hdeclaration⟩

theorem exists_at_of_mem_arms {s a : Unfolding} (hs : At root (l :: env) s) (ha : a ∈ s.arms) :
    ∃ scopes, At root ({ l with scopes } :: env) a ∧ ∀ y, ({ l with scopes } : Layer).find? y = l.find? y := by
  induction s generalizing l with
  | node i k o us ih =>
    cases hb : branches k us with
    | none =>
      rw [arms_of_branches_eq_none hb, mem_singleton] at ha
      subst ha
      exact ⟨l.scopes, hs, fun y => rfl⟩
    | some vs =>
      rw [arms_of_branches hb] at ha
      obtain ⟨v, hv, hav⟩ := mem_flatMap.mp ha
      have hpart (hk : changesScope k = false) (hm : v ∈ us) :
          ∃ scopes, At root ({ l with scopes } :: env) a ∧
            ∀ y, ({ l with scopes } : Layer).find? y = l.find? y := ih v hm (hs.part hk hm) hav
      unfold branches at hb
      split at hb <;> cases hb
      · obtain rfl := mem_singleton.mp hv
        have hat : At root (l.opened [] :: env) v := .statement hs
        obtain ⟨scopes, hat', hfind⟩ := ih v hv hat hav
        exact ⟨scopes, hat', hfind⟩
      · exact hpart rfl hv
      · obtain rfl := mem_singleton.mp hv
        exact hpart rfl (by simp)
      · exact hpart rfl (.tail _ hv)

end

end Scoping

open Scoping

/-! ### Matches -/

namespace MatchExpansion

variable {make : ElementId → Kind} {due : Option String} {us : List Unfolding} {u : Unfolding}

theorem Drains.pays {k : Kind} (h : Drains k make) (hpays : Pays due k) (x : ElementId) :
    Pays due (make x) := by
  intro y hy
  rw [h.initialized?] at hy
  refine ⟨(hpays y hy).1, ?_⟩
  obtain ⟨sink, -, rfl⟩ := h
  cases sink <;> rfl

theorem poised_block (hu : Poised due u) (i : ElementId) (ids : List ElementId) (o : Origin) :
    Poised due (.node i (.block ids) o [u]) := by
  refine .node nofun fun before v after heq => ?_
  cases before with
  | nil =>
    cases heq
    exact hu
  | cons b before => simp at heq

theorem poised_clause {condition action : Unfolding} (hcondition : Poised none condition)
    (haction : Poised due action) (i c a : ElementId) (arm : Arm) (o : Origin) :
    Poised due (.node i (.whenClause c a arm) o [condition, action]) := by
  refine .node nofun fun before v after heq => ?_
  rcases before with _ | ⟨_, _ | ⟨_, _⟩⟩
  · cases heq
    exact hcondition
  · cases heq
    exact haction
  · simp at heq

theorem poised_caseOf (hus : ∀ u ∈ us, Poised due u) (i x : ElementId) (ids : List ElementId) (o : Origin) :
    Poised due (.node i (.caseOf ids x) o us) := by
  refine .node nofun ?_
  rintro before u after rfl
  exact hus u (by simp)

theorem poised_of_expanded {u' : Unfolding} (h : Expanded Drains u u') :
    ∀ due, Poised due u → Poised due u' := by
  refine h.induct (P := fun u u' => ∀ due, Poised due u → Poised due u')
    (Q := fun make v u => ∀ due k, Drains k make → Pays due k → Poised none v → Poised due u)
    (A := fun make us us' => ∀ due k, Drains k make → Pays due k → (∀ u ∈ us, Poised none u) →
      ∀ u ∈ us', Poised due u)
    ?node ?poured ?value ?matchOf ?fallback ?clause
  case node =>
    intro i k k' o us us' hakin hus due h
    exact h.exchange hakin.like (hus.imp fun _ _ hu => ⟨declares_of_expanded hu.1, hu.2⟩)
  case poured =>
    intro i k make o v u hdrains hu due h
    have hforks := (plain_of_ofKind? hdrains.choose_spec.1).2.1
    exact hu due k hdrains h.pays (h.part hforks (.head _))
  case value =>
    intro make v v' i x o hv due k hdrains hpays h
    exact .of_parts (hdrains.plain x).2.1 (hdrains.pays hpays x) (forall_mem_singleton.mpr (hv none h))
  case matchOf =>
    intro make i j x y ids ids' o o' us us' harms due k hdrains hpays h
    exact poised_caseOf (harms due k hdrains hpays fun u hu => h.part rfl hu) _ _ _ _
  case fallback =>
    intro make v u b ids o _ hu due k hdrains hpays h
    exact forall_mem_singleton.mpr (poised_block (hu due k hdrains hpays (h v (.head _))) b ids o)
  case clause =>
    intro make i j c c' a b b' ids o o' condition condition' v u us us' hcondition hu harms due k hdrains
      hpays h
    obtain ⟨hclause, hrest⟩ := forall_mem_cons.mp h
    have hc := hcondition none (hclause.split [] _)
    have hv := hu due k hdrains hpays (hclause.split [condition] _)
    have hblock := poised_block hv b ids o'
    exact forall_mem_cons.mpr ⟨poised_clause hc hblock j c' b' .statement o,
      harms due k hdrains hpays hrest⟩

end MatchExpansion

/-! ### Cases -/

namespace CaseExpansion

variable {u : Unfolding} {due : Option String}

theorem Chain.poised {us : List Unfolding} (h : Chain us u) (hus : ∀ u ∈ us, Poised due u) :
    Poised due u := by
  induction h with
  | last _ => exact hus _ (.head _)
  | @clause i j c a o condition action r rest _ ih =>
    obtain ⟨hclause, hrest⟩ := forall_mem_cons.mp hus
    refine .node nofun fun before v after heq => ?_
    rcases before with _ | ⟨_, _ | ⟨_, _ | ⟨_, _⟩⟩⟩
    · cases heq
      exact hclause.split [] _
    · cases heq
      exact hclause.split [condition] _
    · cases heq
      exact ih hrest
    · simp at heq

theorem poised_of_expanded {u' : Unfolding} (h : Expanded u u') (hu : Poised due u) : Poised due u' := by
  induction u generalizing u' due with
  | node i k o us ih =>
    have hrow {us'} (hparts : Forall₂ Expanded us us') : Forall₂ Exchanges us us' :=
      Unfolding.forall₂_of_mem hparts fun u hu u' hu' =>
        ⟨declares_of_expanded hu', fun due hdue => ih u hu hu' hdue⟩
    cases h with
    | node hparts => exact hu.exchange (Kind.Akin.refl _).like (hrow hparts)
    | block hparts => exact hu.exchange (Kind.Akin.like (.inr ⟨_, _, rfl, rfl⟩)) (hrow hparts)
    | caseOf hparts hchain =>
      refine hchain.poised fun v' hv' => ?_
      obtain ⟨v, hv, hexchanges⟩ := exists_of_mem_right (hrow hparts) hv'
      obtain ⟨before, after, rfl⟩ := append_of_mem hv
      exact hexchanges.poised due (hu.split _ _)

end CaseExpansion

end Clausal
