import Clausal.Proofs.Passes.KeptFreshness
import Clausal.Proofs.Scoping.Initializers

/-! # Names are declared before they are initialized

The value of a declaration may be given by a statement of its own, which is marked as the initializer of the
name. -/

namespace Clausal

open List Unfolding

def Kind.initialized? : Kind → Option String
  | .assignment x _ _ _ true => some x
  | _ => none

variable {k : Kind}

theorem Kind.initialized?_of_isInitializer (h : k.isInitializer = false) : k.initialized? = none := by
  cases k with
  | assignment x d value b initializer => cases initializer <;> first | rfl | cases h
  | _ => rfl

theorem Kind.Akin.initialized? {k' : Kind} (h : k.Akin k') : k'.initialized? = k.initialized? := by
  rcases h with rfl | ⟨_, _, rfl, rfl⟩ <;> rfl

namespace Scoping

variable {i : ElementId} {k k' : Kind} {o : Origin} {us us' : List Unfolding} {u u' root : Unfolding}
  {seen seen' : List String} {x : String} {env : List Layer}

/-- The names that are known to a part of an element, after the parts before it. -/
def known (k : Kind) (seen : List String) (before : List Unfolding) : List String :=
  match k with
  | .function .. => []
  | .block _ => (declared before).map Prod.fst ++ seen
  | _ => seen

/-- Every initializer comes after a declaration of its name. -/
inductive Announced : List String → Unfolding → Prop
  | node {seen : List String} {i : ElementId} {k : Kind} {o : Origin} {us : List Unfolding} :
      (∀ x, k.initialized? = some x → x ∈ seen) →
      (∀ before u after, us = before ++ u :: after → Announced (known k seen before) u) →
      Announced seen (.node i k o us)

namespace Announced

theorem mem_of_initialized? (h : Announced seen u) (hx : u.kind.initialized? = some x) : x ∈ seen := by
  cases h with
  | node hinit _ => exact hinit x hx

theorem statement {before after : List Unfolding} (h : Announced seen (.node i k o (before ++ u :: after))) :
    Announced (known k seen before) u := by
  cases h with
  | node _ hbelow => exact hbelow before u after rfl

theorem only (h : Announced seen (.node i k o [u])) : Announced (known k seen []) u := by
  cases h with
  | node _ hbelow => exact hbelow [] u [] rfl

theorem known_of_not_changesScope (hk : changesScope k = false) (seen : List String)
    (before : List Unfolding) : known k seen before = seen := by
  cases k <;> first | rfl | cases hk

theorem part (h : Announced seen (.node i k o us)) (hk : changesScope k = false) (hu : u ∈ us) :
    Announced seen u := by
  obtain ⟨before, after, rfl⟩ := append_of_mem hu
  have hpart := h.statement
  rwa [known_of_not_changesScope hk] at hpart

theorem of_parts (hk : changesScope k = false) (hinit : ∀ x, k.initialized? = some x → x ∈ seen)
    (hus : ∀ u ∈ us, Announced seen u) : Announced seen (.node i k o us) := by
  refine .node hinit ?_
  rintro before u after rfl
  rw [known_of_not_changesScope hk]
  exact hus u (by simp)

theorem block_singleton {ids : List ElementId} (hu : Announced seen u) :
    Announced seen (.node i (.block ids) o [u]) := by
  refine .node nofun fun before v after heq => ?_
  obtain ⟨rfl, rfl, rfl⟩ : before = [] ∧ u = v ∧ after = [] := by
    cases before with
    | nil =>
      cases heq
      exact ⟨rfl, rfl, rfl⟩
    | cons b before => simp at heq
  exact hu

end Announced

/-! ### Fresh trees -/

theorem initialized?_of_fits (h : Fits (.node i k o us)) (hk : ∀ ids, k ≠ .block ids)
    (hu : u ∈ us) : u.kind.initialized? = none := by
  obtain ⟨i', k', o', vs⟩ := u
  obtain ⟨⟨role, c⟩, hs, -, ha⟩ := h.slot_of_mem hu
  cases k' with
  | assignment name d value binding initializer =>
    cases role <;> cases ha
    obtain ⟨ids, rfl⟩ := Kind.block_of_statement hs
    exact absurd rfl (hk ids)
  | _ => rfl

/-- An initializer comes right after the declaration of its name. -/
theorem exists_declaration {before after : List Unfolding} (h : Paired (before ++ u :: after))
    (hx : u.kind.initialized? = some x) : ∃ before' v d value, before = before' ++ [v] ∧
      declares v = some (x, d) ∧ u.kind = .assignment x none value none true := by
  generalize hus : before ++ u :: after = us at h
  induction h generalizing before with
  | nil => simp at hus
  | @one v us hv _ ih =>
    cases before with
    | nil =>
      obtain ⟨rfl, -⟩ := List.cons.inj hus
      rw [Kind.initialized?_of_isInitializer hv] at hx
      cases hx
    | cons b before =>
      obtain ⟨before', v, d, value, rfl, h⟩ := ih (List.cons.inj hus).2
      exact ⟨b :: before', v, d, value, rfl, h⟩
  | two _ ih =>
    cases before with
    | nil =>
      obtain ⟨rfl, -⟩ := List.cons.inj hus
      cases hx
    | cons b before =>
      obtain ⟨rfl, hrest⟩ := List.cons.inj hus
      cases before with
      | nil =>
        obtain ⟨rfl, -⟩ := List.cons.inj hrest
        cases hx
        exact ⟨[], _, _, _, rfl, rfl, rfl⟩
      | cons c before =>
        obtain ⟨before', v, d, value, rfl, h⟩ := ih (List.cons.inj hrest).2
        exact ⟨_ :: c :: before', v, d, value, rfl, h⟩

theorem announced_of_shows {t : Tree} (ht : t.Fresh) (hu : t.Shows u)
    (hinit : ∀ x, u.kind.initialized? = some x → x ∈ seen) : Announced seen u := by
  induction u generalizing seen with
  | node i k o us ih =>
    refine .node hinit ?_
    rintro before u after rfl
    have hm : u ∈ before ++ u :: after := by simp
    refine ih u hm (hu.child u hm) fun x hx => ?_
    by_cases hk : ∃ ids, k = .block ids
    · obtain ⟨ids, rfl⟩ := hk
      obtain ⟨before', v, d, -, rfl, hv, -⟩ := exists_declaration (ht.paired hu) hx
      simp [known, declared, filterMap_append, hv]
    · rw [initialized?_of_fits (hu.fits ht.owned) (fun ids heq => hk ⟨ids, heq⟩) hm] at hx
      cases hx

/-! ### Marks -/

section
variable (as : List (ElementId × Mark))

theorem initialized?_rekind (i : ElementId) (k : Kind) :
    (rekind i as k).initialized? = k.initialized? := by
  rw [rekind_def]
  cases k with
  | assignment x d value b initializer => cases initializer <;> rfl
  | _ => rfl

theorem known_marked (i : ElementId) (k : Kind) (seen : List String) (before : List Unfolding) :
    known (rekind i as k) seen (before.map (·.marked as)) = known k seen before := by
  rw [rekind_def]
  cases k with
  | block ids => exact congrArg (fun ds => ds.map Prod.fst ++ seen) (declared_map_marked as before)
  | _ => rfl

end

theorem Announced.marked (h : Announced seen u) (as : List (ElementId × Mark)) :
    Announced seen (u.marked as) := by
  induction h with
  | @node seen i k o us hinit _ ih =>
    rw [marked_node]
    refine .node (fun x hx => hinit x ?_) fun before u after heq => ?_
    · rwa [initialized?_rekind] at hx
    · obtain ⟨before, rest, rfl, rfl, hrest⟩ := map_eq_append_iff.mp heq
      obtain ⟨u, after, rfl, rfl, rfl⟩ := map_eq_cons_iff.mp hrest
      rw [known_marked]
      exact ih before u after rfl

/-! ### Rows -/

theorem known_of_declares (hk : k.Akin k') (h : Forall₂ (fun u u' => declares u' = declares u) us us') :
    known k' seen us' = known k seen us := by
  have hdeclared : declared us' = declared us := by
    unfold declared
    induction h with
    | nil => rfl
    | cons hu _ ih => rw [filterMap_cons, filterMap_cons, hu, ih]
  rcases hk with rfl | ⟨_, _, rfl, rfl⟩
  · cases k' with
    | block ids => simp only [known, hdeclared]
    | _ => rfl
  · simp only [known, hdeclared]

/-- The second unfolding can take the place of the first one. -/
structure Replaces (u u' : Unfolding) : Prop where
  declares_eq : declares u' = declares u
  announced : ∀ seen, Announced seen u → Announced seen u'

theorem Announced.replace (h : Announced seen (.node i k o us)) (hk : k.Akin k')
    (hus : Forall₂ Replaces us us') : Announced seen (.node i k' o us') := by
  refine .node (fun x hx => h.mem_of_initialized? (hk.initialized? ▸ hx)) ?_
  rintro before' u' after' rfl
  have hbefore := forall₂_take_append us before' (u' :: after') hus
  have hrest := forall₂_drop_append us before' (u' :: after') hus
  obtain ⟨u, after, hu, -, hdrop⟩ := forall₂_cons_right_iff.mp hrest
  rw [← take_append_drop before'.length us, hdrop] at h
  rw [known_of_declares hk (hbefore.imp fun _ _ h => h.declares_eq)]
  exact hu.announced _ h.statement

theorem declares_parts (i : ElementId) (k : Kind) (o : Origin) (us us' : List Unfolding) :
    declares (.node i k o us') = declares (.node i k o us) := by
  cases k with
  | assignment x d value b initializer => cases d <;> rfl
  | _ => rfl

/-! ### Places -/

def Layer.announced (l : Layer) : List String := l.scopes.flatMap (·.map Prod.fst)

theorem Announced.of_at (h : Announced [] root) (hu : At root env u) :
    ∃ l env', env = l :: env' ∧ Announced l.announced u := by
  induction hu with
  | @function i j b m name ids o o' us params captures lifted body heq hf =>
    subst heq
    obtain ⟨before, after, rfl⟩ := append_of_mem hf
    exact ⟨_, _, rfl, h.statement.only⟩
  | closure _ ih =>
    obtain ⟨l, env', rfl, hclosure⟩ := ih
    exact ⟨_, _, rfl, hclosure.only.only⟩
  | statement _ ih =>
    obtain ⟨l, env', heq, hblock⟩ := ih
    cases heq
    exact ⟨_, _, rfl, hblock.statement⟩
  | part _ hk hu ih =>
    obtain ⟨l, env', rfl, hwhole⟩ := ih
    exact ⟨l, env', rfl, hwhole.part hk hu⟩

theorem Announced.find?_of_at {l : Layer} (h : Announced [] root) (hroot : root.ids.Nodup)
    (hu : At root (l :: env) u) (hx : u.kind.initialized? = some x) :
    ∃ j constant, l.find? x = some (.local j constant) := by
  obtain ⟨l', env', heq, hannounced⟩ := h.of_at hu
  cases heq
  obtain ⟨s, hs, hmem⟩ := mem_flatMap.mp (hannounced.mem_of_initialized? hx)
  have hsome : (l.scopes.findSome? (·.lookup x)).isSome = true := by
    rw [isSome_findSome?, any_eq_true]
    exact ⟨s, hs, by rwa [isSome_lookup, contains_iff_mem]⟩
  obtain ⟨d, hd⟩ := Option.isSome_iff_exists.mp hsome
  obtain ⟨s', hs', hlookup⟩ := exists_of_findSome?_eq_some hd
  obtain ⟨_, _, rfl, -⟩ := lookup_eq_some_iff.mp hlookup
  obtain ⟨j, constant, rfl, -⟩ := (hu.elsewhere hroot).2 l (.head _) _ hs' x d (by simp)
  exact ⟨j, constant, by rw [Layer.find?, hd, Option.some_or]⟩

end Scoping

open Scoping

/-! ### Matches -/

namespace MatchExpansion

variable {k : Kind} {make : ElementId → Kind} {u u' : Unfolding}

theorem declares_of_ofKind? {sink : Sink} (h : Sink.ofKind? k = some sink) (i : ElementId) (o : Origin)
    (us : List Unfolding) : declares (.node i k o us) = none := by
  cases k with
  | assignment x d value b initializer =>
    cases d with
    | none => rfl
    | some d => cases h
  | _ => rfl

theorem Drains.initialized? (h : Drains k make) (x : ElementId) : (make x).initialized? = k.initialized? := by
  obtain ⟨sink, hk, rfl⟩ := h
  cases k with
  | assignment y d value b initializer =>
    cases d with
    | none =>
      cases hk
      cases initializer <;> rfl
    | some d => cases hk
  | returns value =>
    cases value with
    | none => cases hk
    | some value =>
      cases hk
      rfl
  | _ => cases hk

theorem declares_of_expanded (h : Expanded Drains u u') : declares u' = declares u := by
  cases h with
  | node hakin =>
    rcases hakin with rfl | ⟨_, _, rfl, rfl⟩
    · exact declares_parts ..
    · rfl
  | poured hdrains hpoured =>
    obtain ⟨sink, hk, rfl⟩ := hdrains
    rw [declares_of_ofKind? hk]
    cases hpoured with
    | value => exact declares_of_ofKind? (Sink.ofKind?_statement sink _) ..
    | matchOf => rfl

theorem announced_of_expanded (h : Expanded Drains u u') : ∀ seen, Announced seen u → Announced seen u' := by
  refine h.induct (P := fun u u' => ∀ seen, Announced seen u → Announced seen u')
    (Q := fun make v u => ∀ k seen, Drains k make → (∀ x, k.initialized? = some x → x ∈ seen) →
      Announced seen v → Announced seen u)
    (A := fun make us us' => ∀ k seen, Drains k make → (∀ x, k.initialized? = some x → x ∈ seen) →
      (∀ u ∈ us, Announced seen u) → ∀ u ∈ us', Announced seen u)
    ?node ?poured ?value ?matchOf ?fallback ?clause
  case node =>
    intro i k k' o us us' hakin hus seen hseen
    exact hseen.replace hakin (hus.imp fun _ _ hu => ⟨declares_of_expanded hu.1, hu.2⟩)
  case poured =>
    intro i k make o v u hdrains hu seen hseen
    have hk : changesScope k = false := by
      have hstep := hdrains.isStep.1
      cases k <;> first | rfl | cases hstep
    exact hu k seen hdrains (fun x hx => hseen.mem_of_initialized? hx) (hseen.part hk (.head _))
  case value =>
    intro make v v' i x o hv k seen hdrains hinit hseen
    have hk : changesScope (make x) = false := by
      have hstep := hdrains.isStep.2 x
      generalize make x = k at hstep
      cases k <;> first | rfl | cases hstep
    refine .of_parts hk (fun y hy => hinit y (hdrains.initialized? x ▸ hy)) ?_
    exact forall_mem_singleton.mpr (hv seen hseen)
  case matchOf =>
    intro make i j x y ids ids' o o' us us' harms k seen hdrains hinit hseen
    exact .of_parts rfl nofun (harms k seen hdrains hinit fun u hu => hseen.part rfl hu)
  case fallback =>
    intro make v u b ids o _ hu k seen hdrains hinit hseen
    exact forall_mem_singleton.mpr (.block_singleton (hu k seen hdrains hinit (hseen v (.head _))))
  case clause =>
    intro make i j c c' a b b' ids o o' condition condition' v u us us' hcondition hu harms k seen hdrains
      hinit hseen
    obtain ⟨hclause, hrest⟩ := forall_mem_cons.mp hseen
    have hc := hcondition seen (hclause.part rfl (by simp))
    have hv := hu k seen hdrains hinit (hclause.part rfl (by simp))
    refine forall_mem_cons.mpr ⟨.of_parts rfl nofun ?_, harms k seen hdrains hinit hrest⟩
    exact forall_mem_cons.mpr ⟨hc, forall_mem_singleton.mpr (.block_singleton hv)⟩

end MatchExpansion

/-! ### Cases -/

namespace CaseExpansion

variable {u u' : Unfolding} {seen : List String}

theorem declares_of_expanded (h : Expanded u u') : declares u' = declares u := by
  cases h with
  | node => exact declares_parts ..
  | block => rfl
  | caseOf _ hchain => obtain ⟨_, _, _, _, rfl⟩ | ⟨_, _, _, _, _, _, rfl⟩ := hchain.shape <;> rfl

theorem Chain.announced {us : List Unfolding} (h : Chain us u) (hus : ∀ u ∈ us, Announced seen u) :
    Announced seen u := by
  induction h with
  | last _ => exact hus _ (.head _)
  | clause _ ih =>
    obtain ⟨hclause, hrest⟩ := forall_mem_cons.mp hus
    refine .of_parts rfl nofun ?_
    simp only [forall_mem_cons]
    exact ⟨hclause.part rfl (by simp), hclause.part rfl (by simp), ih hrest, nofun⟩

theorem announced_of_expanded (h : Expanded u u') (hu : Announced seen u) : Announced seen u' := by
  induction u generalizing u' seen with
  | node i k o us ih =>
    have hrow {us'} (hparts : Forall₂ Expanded us us') : Forall₂ Replaces us us' :=
      forall₂_of_mem hparts fun u hu u' hu' =>
        ⟨declares_of_expanded hu', fun seen hseen => ih u hu hu' hseen⟩
    cases h with
    | node hparts => exact hu.replace (.refl _) (hrow hparts)
    | block hparts => exact hu.replace (.inr ⟨_, _, rfl, rfl⟩) (hrow hparts)
    | caseOf hparts hchain =>
      refine hchain.announced fun v' hv' => ?_
      obtain ⟨v, hv, hreplaces⟩ := exists_of_mem_right (hrow hparts) hv'
      exact hreplaces.announced seen (hu.part rfl hv)

end CaseExpansion

end Clausal
