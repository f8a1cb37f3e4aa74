import Clausal.Proofs.Bytecode.FrameSizes
import Clausal.Proofs.Scoping.Announcements

/-! # Constants and where they get their values

A constant is declared by a statement.  If its value is a match then the declaration has the value `null`, and
the statement behind it gives the constant its value: an initializer, or a case or a conditional in which each
arm is one (`Unfolding.arms`). -/

namespace Clausal

open Scoping (declares)

/-! ### Kinds -/

namespace Kind

def constant? : Kind → Option String
  | .assignment x (some .constant) _ _ _ => some x
  | _ => none

theorem constant?_of_accepts {k : Kind} {role : Role} (h : role.accepts k = true)
    (hrole : role ≠ .statement) : k.constant? = none := by
  cases k with
  | assignment => cases role <;> first | exact absurd rfl hrole | cases h
  | _ => rfl

def forks : Kind → Bool
  | .block _ | .caseOf .. | .whenClause .. | .conditional .. => true
  | _ => false

/-- Two kinds do the same for the values of constants. -/
structure Like (k k' : Kind) : Prop where
  shape : k.Akin k' ∨ k.forks = false ∧ k'.forks = false
  initialized? : k'.initialized? = k.initialized?
  constant? : k'.constant? = k.constant?
  declaration : k'.isDeclaration = k.isDeclaration
  function : Role.function.accepts k' = Role.function.accepts k

theorem Akin.like {k k' : Kind} (h : k.Akin k') : k.Like k' := by
  refine ⟨.inl h, h.initialized?, ?_, ?_, ?_⟩
  · rcases h with rfl | ⟨_, _, rfl, rfl⟩ <;> rfl
  · rcases h with rfl | ⟨_, _, rfl, rfl⟩ <;> rfl
  · rcases h with rfl | ⟨_, _, rfl, rfl⟩ <;> rfl

theorem like_rekind (i : ElementId) (as : List (ElementId × Mark)) (k : Kind) :
    k.Like (Unfolding.rekind i as k) := by
  refine ⟨?_, Scoping.initialized?_rekind as i k, ?_, ?_, ?_⟩ <;> rw [Unfolding.rekind_def]
  · cases k <;> first | exact .inl (.refl _) | exact .inr ⟨rfl, rfl⟩
  · cases k with
    | assignment x d value b initializer =>
      cases d with
      | none => rfl
      | some d => cases d <;> rfl
    | _ => rfl
  · cases k with
    | assignment x d value b initializer => cases d <;> rfl
    | _ => rfl
  · cases k <;> rfl

end Kind

/-! ### Arms -/

namespace Unfolding

mutual

/-- The statements in which the arms of a statement end.  The arms of a case are those of its clauses and its
fallback, the arms of a conditional are its branches, and the arms of a block with one statement are those of
the statement. -/
def arms : Unfolding → List Unfolding
  | .node _ (.block _) _ [u] => arms u
  | .node _ (.caseOf ..) _ us => armsAll us
  | .node _ (.whenClause ..) _ [_, action] => arms action
  | .node _ (.conditional ..) _ [_, action, other] => arms action ++ arms other
  | u => [u]

def armsAll : List Unfolding → List Unfolding
  | [] => []
  | u :: us => arms u ++ armsAll us

end

theorem armsAll_eq_flatMap (us : List Unfolding) : armsAll us = us.flatMap arms :=
  eq_flatMap (by rw [armsAll]) (fun _ _ => by rw [armsAll]) us

def branches : Kind → List Unfolding → Option (List Unfolding)
  | .block _, [u] => some [u]
  | .caseOf .., us => some us
  | .whenClause .., [_, action] => some [action]
  | .conditional .., [_, action, other] => some [action, other]
  | _, _ => none

variable {k : Kind} {us vs : List Unfolding}

theorem branches_of_not_forks (h : k.forks = false) (us : List Unfolding) : branches k us = none := by
  cases k <;> first | rfl | cases h

theorem arms_of_branches (h : branches k us = some vs) (i : ElementId)
    (o : Origin) : arms (.node i k o us) = vs.flatMap arms := by
  unfold branches at h
  split at h
  · cases h
    rw [arms, List.flatMap_singleton]
  · cases h
    rw [arms, armsAll_eq_flatMap]
  · cases h
    rw [arms, List.flatMap_singleton]
  · cases h
    rw [arms, List.flatMap_cons, List.flatMap_singleton]
  · cases h

theorem arms_of_branches_eq_none (h : branches k us = none) (i : ElementId)
    (o : Origin) : arms (.node i k o us) = [.node i k o us] := by
  unfold arms
  split
  · rename_i heq
    cases heq
    cases h
  · rename_i heq
    cases heq
    cases h
  · rename_i heq
    cases heq
    cases h
  · rename_i heq
    cases heq
    cases h
  · rfl

theorem branches_row {R : Unfolding → Unfolding → Prop} {k' : Kind} {us' : List Unfolding}
    (hk : k.Like k') (h : List.Forall₂ R us us') :
    branches k us = none ∧ branches k' us' = none ∨
      ∃ vs vs', branches k us = some vs ∧ branches k' us' = some vs' ∧ List.Forall₂ R vs vs' := by
  have hparts (ids ids' : List ElementId) : branches (.block ids) us = none ∧ branches (.block ids') us' = none ∨
      ∃ vs vs', branches (.block ids) us = some vs ∧ branches (.block ids') us' = some vs' ∧
        List.Forall₂ R vs vs' := by
    cases h with
    | nil => exact .inl ⟨rfl, rfl⟩
    | cons hu hrest =>
      cases hrest with
      | nil => exact .inr ⟨_, _, rfl, rfl, .cons hu .nil⟩
      | cons => exact .inl ⟨rfl, rfl⟩
  rcases hk.shape with (rfl | ⟨_, _, rfl, rfl⟩) | ⟨hforks, hforks'⟩
  · cases k' with
    | block ids => exact hparts ids ids
    | caseOf => exact .inr ⟨us, us', rfl, rfl, h⟩
    | whenClause =>
      rcases h with _ | ⟨_, _ | ⟨ha, _ | _⟩⟩
      · exact .inl ⟨rfl, rfl⟩
      · exact .inl ⟨rfl, rfl⟩
      · exact .inr ⟨_, _, rfl, rfl, .cons ha .nil⟩
      · exact .inl ⟨rfl, rfl⟩
    | conditional =>
      rcases h with _ | ⟨_, _ | ⟨ha, _ | ⟨he, _ | _⟩⟩⟩
      · exact .inl ⟨rfl, rfl⟩
      · exact .inl ⟨rfl, rfl⟩
      · exact .inl ⟨rfl, rfl⟩
      · exact .inr ⟨_, _, rfl, rfl, .cons ha (.cons he .nil)⟩
      · exact .inl ⟨rfl, rfl⟩
    | _ => exact .inl ⟨rfl, rfl⟩
  · exact hparts _ _
  · exact .inl ⟨branches_of_not_forks hforks us, branches_of_not_forks hforks' us'⟩

/-! ### What arms initialize -/

def inits (u : Unfolding) : List (Option String) := u.arms.map (·.kind.initialized?)

def starts (x : String) (u : Unfolding) : Bool := u.inits.contains (some x)

def fills (x : String) (u : Unfolding) : Bool := u.starts x && u.inits.all (· == some x)

theorem inits_of_branches (h : branches k us = some vs) (i : ElementId)
    (o : Origin) : inits (.node i k o us) = vs.flatMap inits := by
  rw [inits, arms_of_branches h, List.map_flatMap]
  rfl

theorem inits_of_branches_eq_none (h : branches k us = none) (i : ElementId)
    (o : Origin) : inits (.node i k o us) = [k.initialized?] := by
  rw [inits, arms_of_branches_eq_none h, List.map_singleton]
  rfl

def SameInits (u u' : Unfolding) : Prop := ∀ q, q ∈ u'.inits ↔ q ∈ u.inits

section
variable {u u' : Unfolding} {us us' : List Unfolding}

theorem SameInits.starts_eq (h : SameInits u u') (x : String) : u'.starts x = u.starts x := by
  rw [Bool.eq_iff_iff]
  simpa only [starts, List.contains_iff_mem] using h (some x)

theorem SameInits.fills_eq (h : SameInits u u') (x : String) : u'.fills x = u.fills x := by
  have hall : u'.inits.all (· == some x) = u.inits.all (· == some x) := by
    rw [Bool.eq_iff_iff]
    simp only [List.all_eq_true]
    exact forall_congr' fun q => by rw [h q]
  rw [fills, fills, h.starts_eq, hall]

theorem mem_inits_row (h : List.Forall₂ SameInits us us') (q : Option String) :
    q ∈ us'.flatMap inits ↔ q ∈ us.flatMap inits := by
  induction h with
  | nil => rfl
  | cons hu _ ih => simp only [List.flatMap_cons, List.mem_append, hu q, ih]

theorem sameInits_node {i i' : ElementId} {k k' : Kind} {o o' : Origin} (hk : k.Like k')
    (h : List.Forall₂ SameInits us us') : SameInits (.node i k o us) (.node i' k' o' us') := by
  intro q
  rcases branches_row hk h with ⟨hnone, hnone'⟩ | ⟨vs, vs', hsome, hsome', hrow⟩
  · rw [inits_of_branches_eq_none hnone, inits_of_branches_eq_none hnone', hk.initialized?]
  · rw [inits_of_branches hsome, inits_of_branches hsome']
    exact mem_inits_row hrow q

end

end Unfolding

/-! ### Declarations of constants -/

/-- The declaration of a constant, with the function it belongs to and the statement behind it. -/
structure LetSite where
  function : Unfolding
  declaration : Unfolding
  next : Option Unfolding

/-- What the syntax tells about the declaration of a constant: where its function and the declaration come from,
its name, and whether the statement behind it gives it a value in some arm, and in all of them. -/
structure LetKey where
  function : Origin
  origin : Origin
  name : Option String
  starts : Bool
  fills : Bool

/-- What the syntax tells about the declaration of a constant in an unfolding. -/
def LetSite.key (s : LetSite) : LetKey where
  function := s.function.origin
  origin := s.declaration.origin
  name := s.declaration.kind.constant?
  starts := s.declaration.kind.constant?.any fun x => s.next.any (·.starts x)
  fills := s.declaration.kind.constant?.any fun x => s.next.any (·.fills x)

namespace Unfolding

/-- The declaration of a constant in a function, in front of a statement. -/
def letSite (f u : Unfolding) (next : Option Unfolding) : List LetSite :=
  if u.kind.constant?.isSome then [⟨f, u, next⟩] else []

mutual

/-- The declarations of constants below an element of a function, in order. -/
def letSitesIn (f : Unfolding) : Unfolding → List LetSite
  | .node i k o us => letSitesAll (if Role.function.accepts k then .node i k o us else f) us

/-- The declarations of constants among several elements of a function and below them. -/
def letSitesAll (f : Unfolding) : List Unfolding → List LetSite
  | [] => []
  | u :: us => letSite f u us.head? ++ letSitesIn f u ++ letSitesAll f us

end

def letSites (u : Unfolding) : List LetSite := letSitesIn u u

variable {f u u' f' : Unfolding} {i : ElementId} {k : Kind} {us us' : List Unfolding} {o : Origin}

theorem letSite_of_constant? (h : u.kind.constant? = none) (next : Option Unfolding) :
    letSite f u next = [] := by
  rw [letSite, h]
  rfl

theorem letSitesIn_of_not_function (hk : Role.function.accepts k = false)
    (o : Origin) (us : List Unfolding) : letSitesIn f (.node i k o us) = letSitesAll f us := by
  rw [letSitesIn, hk]
  rfl

theorem letSitesAll_eq_flatMap (h : ∀ u ∈ us, u.kind.constant? = none) :
    letSitesAll f us = us.flatMap (letSitesIn f) := by
  induction us with
  | nil => rw [letSitesAll, List.flatMap_nil]
  | cons u us ih =>
    obtain ⟨hu, hus⟩ := List.forall_mem_cons.mp h
    rw [letSitesAll, letSite_of_constant? hu, ih hus, List.nil_append, List.flatMap_cons]

/-- What the syntax tells about the declarations below an element of a function. -/
def keysIn (f u : Unfolding) : List LetKey := (letSitesIn f u).map LetSite.key

/-- The second unfolding declares the same constants as the first one, and gives them their values alike. -/
structure SameLets (u u' : Unfolding) : Prop where
  constant? : u'.kind.constant? = u.kind.constant?
  origin : u.kind.constant?.isSome = true → u'.origin = u.origin
  inits : SameInits u u'
  keys : ∀ f f' : Unfolding, f'.origin = f.origin → keysIn f' u' = keysIn f u

theorem keys_letSite (h : SameLets u u') (hf : f'.origin = f.origin)
    {next next' : Option Unfolding} (hnext : Option.Rel SameInits next next') :
    (letSite f' u' next').map LetSite.key = (letSite f u next).map LetSite.key := by
  rw [letSite, letSite, h.constant?]
  cases hx : u.kind.constant? with
  | none => rfl
  | some x =>
    have horigin := h.origin (by rw [hx]; rfl)
    cases hnext with
    | none => simp [LetSite.key, h.constant?, hx, hf, horigin]
    | some hinits =>
      simp [LetSite.key, h.constant?, hx, hf, horigin, hinits.starts_eq, hinits.fills_eq]

theorem keys_row (h : List.Forall₂ SameLets us us') (hf : f'.origin = f.origin) :
    (letSitesAll f' us').map LetSite.key = (letSitesAll f us).map LetSite.key := by
  induction h with
  | nil => rfl
  | @cons u u' us us' hu hrow ih =>
    have hnext : Option.Rel SameInits us.head? us'.head? := by
      cases hrow with
      | nil => exact .none
      | cons hv _ => exact .some hv.inits
    have hkeys : (letSitesIn f' u').map LetSite.key = (letSitesIn f u).map LetSite.key := hu.keys f f' hf
    rw [letSitesAll, letSitesAll, List.map_append, List.map_append, List.map_append, List.map_append,
      keys_letSite hu hf hnext, hkeys, ih]

theorem keys_flatMap (h : List.Forall₂ SameLets us us')
    (hf : f'.origin = f.origin) : us'.flatMap (keysIn f') = us.flatMap (keysIn f) := by
  induction h with
  | nil => rfl
  | cons hu _ ih => rw [List.flatMap_cons, List.flatMap_cons, hu.keys f f' hf, ih]

theorem sameLets_node {k' : Kind} (hk : k.Like k')
    (h : List.Forall₂ SameLets us us') : SameLets (.node i k o us) (.node i k' o us') := by
  refine ⟨hk.constant?, fun _ => rfl, sameInits_node hk (h.imp fun _ _ hu => hu.inits), fun f f' hf => ?_⟩
  rw [keysIn, keysIn, letSitesIn, letSitesIn, hk.function]
  refine keys_row h ?_
  split_ifs
  · rfl
  · exact hf

theorem sameLets_marked (as : List (ElementId × Mark)) (u : Unfolding) : SameLets u (u.marked as) := by
  induction u with
  | node i k o us ih =>
    rw [marked_node]
    refine sameLets_node (Kind.like_rekind i as k) ?_
    rw [List.forall₂_map_right_iff]
    exact List.forall₂_same.mpr ih

theorem SameLets.refl (u : Unfolding) : SameLets u u := by
  induction u with
  | node i k o us ih => exact sameLets_node (Kind.Akin.refl k).like (List.forall₂_same.mpr ih)

theorem SameLets.trans {u'' : Unfolding} (h : SameLets u u') (h' : SameLets u' u'') : SameLets u u'' where
  constant? := h'.constant?.trans h.constant?
  origin := fun hu => (h'.origin (h.constant?.symm ▸ hu)).trans (h.origin hu)
  inits := fun q => (h'.inits q).trans (h.inits q)
  keys := fun f f' hf => (h'.keys f' f' rfl).trans (h.keys f f' hf)

theorem keysIn_eq_flatMap (hk : Role.function.accepts k = false) (hus : ∀ u ∈ us, u.kind.constant? = none) :
    keysIn f (.node i k o us) = us.flatMap (keysIn f) := by
  rw [keysIn, letSitesIn_of_not_function hk, letSitesAll_eq_flatMap hus, List.map_flatMap]
  rfl

theorem constant?_of_fits
    (h : Fits (.node i k o us)) (hk : ∀ ids, k ≠ .block ids) : ∀ u ∈ us, u.kind.constant? = none := by
  intro u hu
  obtain ⟨⟨role, c⟩, hs, -, haccepts⟩ := h.slot_of_mem hu
  refine Kind.constant?_of_accepts haccepts ?_
  rintro rfl
  obtain ⟨ids, rfl⟩ := Kind.block_of_statement hs
  exact hk ids rfl

end Unfolding

open Unfolding

/-! ### Matches -/

namespace MatchExpansion

/-- A value and the statements it was poured into, which all initialize the same. -/
structure PouredLets (q0 : Option String) (u u' : Unfolding) : Prop where
  constant? : u'.kind.constant? = none
  inits : ∀ q, q ∈ u'.inits ↔ q = q0
  keys : ∀ f f' : Unfolding, f'.origin = f.origin → keysIn f' u' = keysIn f u

variable {u u' : Unfolding} {k : Kind}

theorem PouredLets.block {q0 : Option String} (h : PouredLets q0 u u') (i : ElementId)
    (ids : List ElementId) (o : Origin) : PouredLets q0 u (.node i (.block ids) o [u']) := by
  refine ⟨rfl, fun q => ?_, fun f f' hf => ?_⟩
  · rw [inits_of_branches rfl, List.flatMap_singleton]
    exact h.inits q
  · rw [keysIn_eq_flatMap rfl (List.forall_mem_singleton.mpr h.constant?), List.flatMap_singleton]
    exact h.keys f f' hf

/-- Rows of such values and statements. -/
structure PouredRow (q0 : Option String) (us us' : List Unfolding) : Prop where
  constant? : ∀ u' ∈ us', u'.kind.constant? = none
  inits : ∀ q, q ∈ us'.flatMap inits ↔ q = q0
  keys : ∀ f f' : Unfolding, f'.origin = f.origin → us'.flatMap (keysIn f') = us.flatMap (keysIn f)

theorem plain_of_ofKind? {sink : Sink} (h : Sink.ofKind? k = some sink) :
    k.constant? = none ∧ k.forks = false ∧ Role.function.accepts k = false := by
  cases k with
  | assignment x d value b initializer =>
    cases d with
    | none => exact ⟨rfl, rfl, rfl⟩
    | some d => cases h
  | returns => exact ⟨rfl, rfl, rfl⟩
  | _ => cases h

theorem Drains.plain {make : ElementId → Kind} (h : Drains k make) (x : ElementId) :
    (make x).constant? = none ∧ (make x).forks = false ∧ Role.function.accepts (make x) = false := by
  obtain ⟨sink, -, rfl⟩ := h
  exact plain_of_ofKind? (Sink.ofKind?_statement sink x)

theorem sameLets_of_expanded (h : Expanded Drains u u') : u.Fits → SameLets u u' := by
  refine h.induct (P := fun u u' => u.Fits → SameLets u u')
    (Q := fun make v u => ∀ k, Drains k make → v.Fits → v.kind.constant? = none →
      PouredLets k.initialized? v u)
    (A := fun make us us' => ∀ k, Drains k make → (∀ u ∈ us, u.Fits) → PouredRow k.initialized? us us')
    ?node ?poured ?value ?matchOf ?fallback ?clause
  case node =>
    intro i k k' o us us' hakin hus hfits
    exact sameLets_node hakin.like (Unfolding.forall₂_of_mem hus fun u hu u' hu' => hu'.2 (hfits.child u hu))
  case poured =>
    intro i k make o v u hdrains hu hfits
    obtain ⟨hk, hforks, hfunction⟩ := plain_of_ofKind? hdrains.choose_spec.1
    have hconstants := constant?_of_fits hfits (by rintro ids rfl; cases hforks)
    have hlets := hu k hdrains (hfits.child v (.head _)) (hconstants v (.head _))
    refine ⟨hlets.constant?.trans hk.symm, fun hsome => ?_, fun q => ?_, fun f f' hf => ?_⟩
    · rw [Unfolding.kind, hk] at hsome
      cases hsome
    · rw [hlets.inits, inits_of_branches_eq_none (branches_of_not_forks hforks _), List.mem_singleton]
    · rw [keysIn_eq_flatMap hfunction hconstants, List.flatMap_singleton]
      exact hlets.keys f f' hf
  case value =>
    intro make v v' i x o hv k hdrains hfits hconstant
    have hlets := hv hfits
    obtain ⟨hmake, hforks, hfunction⟩ := hdrains.plain x
    refine ⟨hmake, fun q => ?_, fun f f' hf => ?_⟩
    · rw [inits_of_branches_eq_none (branches_of_not_forks hforks _), List.mem_singleton,
        hdrains.initialized? x]
    · rw [keysIn_eq_flatMap hfunction (List.forall_mem_singleton.mpr (hlets.constant?.trans hconstant)),
        List.flatMap_singleton]
      exact hlets.keys f f' hf
  case matchOf =>
    intro make i j x y ids ids' o o' us us' harms k hdrains hfits _
    have hrow := harms k hdrains hfits.child
    refine ⟨rfl, fun q => ?_, fun f f' hf => ?_⟩
    · rw [inits_of_branches rfl]
      exact hrow.inits q
    · rw [keysIn_eq_flatMap rfl hrow.constant?, keysIn_eq_flatMap rfl (constant?_of_fits hfits (by simp))]
      exact hrow.keys f f' hf
  case fallback =>
    intro make v u b ids o hexpr hu k hdrains hfits
    have hconstant : v.kind.constant? = none := @Kind.constant?_of_accepts v.kind .expression hexpr (by simp)
    have hblock := (hu k hdrains (hfits v (.head _)) hconstant).block b ids o
    refine ⟨List.forall_mem_singleton.mpr hblock.constant?, fun q => ?_, fun f f' hf => ?_⟩
    · rw [List.flatMap_singleton]
      exact hblock.inits q
    · rw [List.flatMap_singleton, List.flatMap_singleton]
      exact hblock.keys f f' hf
  case clause =>
    intro make i j c c' a b b' ids o o' condition condition' v u us us' hcondition hu harms k hdrains hfits
    obtain ⟨hclause, hrest⟩ := List.forall_mem_cons.mp hfits
    have hconstants := constant?_of_fits hclause (by simp)
    have hc := hcondition (hclause.child condition (by simp))
    have hv := (hu k hdrains (hclause.child v (by simp)) (hconstants v (by simp))).block b ids o'
    have hrow := harms k hdrains hrest
    have hcondition' := hc.constant?.trans (hconstants condition (by simp))
    refine ⟨List.forall_mem_cons.mpr ⟨rfl, hrow.constant?⟩, fun q => ?_, fun f f' hf => ?_⟩
    · rw [List.flatMap_cons, List.mem_append, inits_of_branches rfl, List.flatMap_singleton, hv.inits,
        hrow.inits, or_self]
    · rw [List.flatMap_cons, List.flatMap_cons, hrow.keys f f' hf, keysIn_eq_flatMap rfl hconstants,
        keysIn_eq_flatMap rfl (by simpa using ⟨hcondition', hv.constant?⟩), List.flatMap_cons,
        List.flatMap_singleton, List.flatMap_cons, List.flatMap_singleton, hc.keys f f' hf, hv.keys f f' hf]

end MatchExpansion

/-! ### Cases -/

namespace CaseExpansion

variable {u u' : Unfolding} {us : List Unfolding}

theorem constant?_of_expanded (h : Expanded u u') : u'.kind.constant? = u.kind.constant? := by
  cases h with
  | node => rfl
  | block => rfl
  | caseOf _ hchain => obtain ⟨_, _, _, _, rfl⟩ | ⟨_, _, _, _, _, _, rfl⟩ := hchain.shape <;> rfl

theorem Chain.inits_eq (h : Chain us u) : u.inits = us.flatMap inits := by
  induction h with
  | last _ => exact (List.flatMap_singleton ..).symm
  | clause _ ih =>
    rw [inits_of_branches rfl, List.flatMap_cons, List.flatMap_singleton, ih, List.flatMap_cons,
      inits_of_branches rfl, List.flatMap_singleton]

theorem Chain.constant? (h : Chain us u) : u.kind.constant? = none := by
  obtain ⟨_, _, _, _, rfl⟩ | ⟨_, _, _, _, _, _, rfl⟩ := h.shape <;> rfl

theorem Chain.keysIn_eq (h : Chain us u)
    (hus : ∀ u ∈ us, Role.block.accepts u.kind = false → ∀ v ∈ u.children, v.kind.constant? = none)
    (f : Unfolding) : keysIn f u = us.flatMap (keysIn f) := by
  induction h with
  | last _ => exact (List.flatMap_singleton ..).symm
  | @clause i j c a o condition action r rest hchain ih =>
    obtain ⟨hclause, hrest⟩ := List.forall_mem_cons.mp hus
    have hparts : ∀ v ∈ [condition, action], v.kind.constant? = none := hclause rfl
    have hparts' : ∀ v ∈ [condition, action, r], v.kind.constant? = none := by
      simpa [hchain.constant?] using hparts
    rw [keysIn_eq_flatMap rfl hparts', List.flatMap_cons, List.flatMap_cons, List.flatMap_singleton, ih hrest,
      List.flatMap_cons, keysIn_eq_flatMap rfl hparts, List.flatMap_cons, List.flatMap_singleton,
      List.append_assoc]

theorem constant?_of_row {us' : List Unfolding} (h : List.Forall₂ Expanded us us') (hus : ∀ u ∈ us, u.Fits)
    (hcases : ∀ u ∈ us, ∀ ids x, u.kind ≠ .caseOf ids x) :
    ∀ u' ∈ us', Role.block.accepts u'.kind = false → ∀ v ∈ u'.children, v.kind.constant? = none := by
  intro u' hu' hblock v' hv'
  obtain ⟨u, hu, hexp⟩ := exists_of_mem_right h hu'
  cases hexp with
  | @node i k o vs vs' hparts =>
    obtain ⟨v, hv, hexp⟩ := exists_of_mem_right hparts hv'
    refine (constant?_of_expanded hexp).trans (constant?_of_fits (hus _ hu) ?_ v hv)
    rintro ids rfl
    cases hblock
  | block => cases hblock
  | caseOf => exact absurd rfl (hcases _ hu _ _)

theorem sameLets_of_expanded (h : Expanded u u') (hu : u.Fits) : SameLets u u' := by
  induction u generalizing u' with
  | node i k o us ih =>
    have hrow {us'} (hparts : List.Forall₂ Expanded us us') : List.Forall₂ SameLets us us' :=
      Unfolding.forall₂_of_mem hparts fun u hm u' hu' => ih u hm hu' (hu.child u hm)
    cases h with
    | node hparts => exact sameLets_node (Kind.Akin.refl _).like (hrow hparts)
    | block hparts => exact sameLets_node (Kind.Akin.like (.inr ⟨_, _, rfl, rfl⟩)) (hrow hparts)
    | @caseOf _ x ids _ _ us' _ hparts hchain =>
      have hconstants := constant?_of_fits hu (by simp)
      have hcases : ∀ u ∈ us, ∀ ids x, u.kind ≠ .caseOf ids x := by
        intro u hm ids' x' hkind
        obtain ⟨⟨role, c⟩, hslot, -, haccepts⟩ := hu.slot_of_mem hm
        rw [hkind] at haccepts
        simp only [Kind.slots, List.mem_append, List.mem_map, List.mem_singleton, Prod.mk.injEq] at hslot
        rcases hslot with ⟨_, _, rfl, _⟩ | ⟨rfl, _⟩ <;> cases haccepts
      refine ⟨hchain.constant?, by rintro ⟨⟩, fun q => ?_, fun f f' hf => ?_⟩
      · rw [hchain.inits_eq, inits_of_branches rfl]
        exact mem_inits_row ((hrow hparts).imp fun _ _ hlets => hlets.inits) q
      · rw [hchain.keysIn_eq (constant?_of_row hparts hu.child hcases), keysIn_eq_flatMap rfl hconstants]
        exact keys_flatMap (hrow hparts) hf

end CaseExpansion

end Clausal
