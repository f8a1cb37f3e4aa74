import Clausal.Proofs.Passes.MatchPouring
import Clausal.Proofs.Scoping.Places
import Clausal.Proofs.Scoping.Settled

/-! # Walking over expanded matches

A walk over an unfolding and the same walk over its expansion, where cases stand in the place of statements
that take the value of a match. -/

namespace Clausal

open MatchExpansion Scoping Unfolding

variable {k : Kind} {v : Unfolding}

theorem Mark.settle_akin (own : Option Mark) {k' : Kind} (h : k.Akin k') :
    (Mark.settle own k).Akin (Mark.settle own k') := by
  rcases h with rfl | ⟨ids, ids', rfl, rfl⟩
  · exact .refl _
  · refine .inr ⟨ids, ids', ?_, ?_⟩ <;> cases own with
    | none => rfl
    | some a => cases a <;> rfl

theorem Mark.isExpression_settle (own : Option Mark) (k : Kind) :
    (Mark.settle own k).isExpression = k.isExpression := by
  cases own with
  | none => rfl
  | some a => cases a <;> cases k <;> rfl

theorem MatchExpansion.Drains.isExpression {i : ElementId} {make : ElementId → Kind} {o : Origin}
    (h : Drains k make) (hu : Fits (.node i k o [v])) : v.kind.isExpression = true := by
  obtain ⟨sink, hk, -⟩ := h
  obtain ⟨x, hslots⟩ : ∃ x, k.slots = [(.expression, x)] := by
    unfold Sink.ofKind? at hk
    split at hk
    · exact ⟨_, rfl⟩
    · exact ⟨_, rfl⟩
    · cases hk
  obtain ⟨w, hw, -, haccepts⟩ := hu.one hslots
  cases hw
  exact haccepts

theorem Scoping.declares_of_isExpression (hv : v.kind.isExpression = true) : declares v = none := by
  obtain ⟨i, k, o, us⟩ := v
  cases k <;> first | rfl | cases hv

def Kind.isBranch : Kind → Bool
  | .caseOf .. | .matchOf .. | .whenClause .. => true
  | _ => false

namespace Walker

variable {σ : Type} (W : Walker σ) {P : σ → Unfolding → Prop}

/-- Something holds at each element, in the state in which the walk comes to it. -/
inductive Each (P : σ → Unfolding → Prop) : σ → Unfolding → Prop
  | node {s i k o us} : P s (.node i k o us) →
      (∀ before u after, us = before ++ u :: after →
        Each P (before.foldl W.visit (W.enter s (.node i k o us))) u) →
      Each P s (.node i k o us)

def EachAll (P : σ → Unfolding → Prop) (s : σ) (us : List Unfolding) : Prop :=
  ∀ before u after, us = before ++ u :: after → W.Each P (before.foldl W.visit s) u

variable {W}

variable {u : Unfolding} {us : List Unfolding}

theorem Each.here {s : σ} (h : W.Each P s u) : P s u := by
  cases h with
  | node hP _ => exact hP

theorem Each.imp {Q : σ → Unfolding → Prop} (hPQ : ∀ {s u}, P s u → Q s u) {s : σ} (h : W.Each P s u) :
    W.Each Q s u := by
  induction h with
  | node hP _ ih => exact .node (hPQ hP) ih

theorem Each.and {Q : σ → Unfolding → Prop} {s : σ} (h : W.Each P s u) (h' : W.Each Q s u) :
    W.Each (fun s u => P s u ∧ Q s u) s u := by
  induction h with
  | node hP _ ih =>
    cases h' with
    | node hQ hus => exact .node ⟨hP, hQ⟩ fun before u after heq => ih before u after heq (hus _ _ _ heq)

theorem Each.parts {s : σ} {i : ElementId} {k : Kind} {o : Origin} (h : W.Each P s (.node i k o us)) :
    W.EachAll P (W.enter s (.node i k o us)) us := by
  cases h with
  | node _ hus => exact hus

theorem eachAll_cons_iff {s : σ} : W.EachAll P s (u :: us) ↔ W.Each P s u ∧ W.EachAll P (W.visit s u) us := by
  constructor
  · intro h
    exact ⟨h [] u us rfl, fun before v after heq => h (u :: before) v after (by rw [heq]; rfl)⟩
  · rintro ⟨hu, hus⟩ before v after heq
    cases before with
    | nil =>
      cases heq
      exact hu
    | cons w before =>
      cases heq
      exact hus before v after rfl

variable {v : Unfolding}

theorem EachAll.exists_of_mem {s : σ} (h : W.EachAll P s us) (hv : v ∈ W.settleAll s us) :
    ∃ u ∈ us, ∃ t, v = W.settle t u ∧ W.Each P t u := by
  induction us generalizing s with
  | nil =>
    rw [settleAll] at hv
    cases hv
  | cons u us ih =>
    obtain ⟨hu, hus⟩ := eachAll_cons_iff.mp h
    rw [settleAll] at hv
    rcases List.mem_cons.mp hv with rfl | hv
    · exact ⟨u, .head _, s, rfl, hu⟩
    · obtain ⟨w, hw, t, ht⟩ := ih hus hv
      exact ⟨w, .tail _ hw, t, ht⟩

theorem Each.exists_of_within {s : σ} (h : W.Each P s u) (hu : u.Fits) (hv : v.Within (W.settle s u)) :
    ∃ t w, v = W.settle t w ∧ w.Fits ∧ P t w := by
  induction u generalizing s with
  | node i k o us ih =>
    cases hv with
    | here => exact ⟨s, _, rfl, hu, h.here⟩
    | child hmem hv =>
      obtain ⟨w, hw, t, rfl, ht⟩ := h.parts.exists_of_mem hmem
      exact ih w hw ht (hu.child w hw) hv

/-- A walk over an expansion stays in touch with the walk over what was expanded.  `drains` tells, in a
state, what becomes of statements that take a value. -/
structure Tracks (W : Walker σ) (P : σ → Unfolding → Prop) (S : σ → σ → Prop)
    (drains : σ → (ElementId → Kind) → (ElementId → Kind) → Prop)
    (same same' : Kind → (ElementId → Kind) → Prop) : Prop where
  enter : ∀ {s s' i k k' o us us'}, S s s' → k.Akin k' → List.Forall₂ (Expanded same) us us' →
    S (W.enter s (.node i k o us)) (W.enter s' (.node i k' o us'))
  leave : ∀ {s s' i k k' o us us'}, Fits (.node i k o us) →
    Fits (.node i k' o us') → S s s' → k.Akin k' → List.Forall₂ (Expanded same) us us' →
    P s (.node i k o us) → P s' (.node i k' o us') →
    S (W.below s (.node i k o us)) (W.below s' (.node i k' o us')) →
    S (W.visit s (.node i k o us)) (W.visit s' (.node i k' o us')) ∧
      W.own s (W.below s (.node i k o us)) (.node i k o us) =
        W.own s' (W.below s' (.node i k' o us')) (.node i k' o us')
  branch : ∀ {i k o us}, k.isBranch = true → ∀ s, W.enter s (.node i k o us) = s ∧
    W.visit s (.node i k o us) = us.foldl W.visit s ∧ ∀ t, W.own s t (.node i k o us) = none
  opens : ∀ {s s' i ids o us}, S s s' → S s (W.enter s' (.node i (.block ids) o us)) ∧
    ∀ t, W.own s' t (.node i (.block ids) o us) = none
  closes : ∀ {s0 s s' i ids o u}, Fits (.node i (.block ids) o [u]) → declares u = none →
    S s0 s' → S s (W.visit (W.enter s' (.node i (.block ids) o [u])) u) →
    S s (W.visit s' (.node i (.block ids) o [u]))
  takes : ∀ {s i k make o v}, Fits (.node i k o [v]) → same k make →
    P s (.node i k o [v]) → (∀ t, S (W.visit s v) t → S (W.visit s (.node i k o [v])) t) ∧
    ∃ make', drains s make make' ∧ same' (Mark.settle (W.own s (W.visit s v) (.node i k o [v])) k) make'
  gives : ∀ {s s' i x make make' o v}, drains s make make' → S s (W.visit s' v) →
    S s (W.visit s' (.node i (make x) o [v])) ∧
    Mark.settle (W.own s' (W.visit s' v) (.node i (make x) o [v])) (make x) = make' x
  steady : ∀ {s make make' v}, v.Fits → v.kind.isExpression = true → drains s make make' →
    drains (W.visit s v) make make'
  quiet : ∀ {s make make' i x o us}, drains s make make' → declares (.node i (make x) o us) = none

namespace Tracks

variable {S : σ → σ → Prop} {drains : σ → (ElementId → Kind) → (ElementId → Kind) → Prop}
  {same same' : Kind → (ElementId → Kind) → Prop} {o : Origin}

variable {us : List Unfolding} {make make' : ElementId → Kind} {v : Unfolding}

theorem declares_of_poured (h : W.Tracks P S drains same same') {s : σ} (hdrains : drains s make make')
    {u : Unfolding} (hpoured : Poured same make v u) : declares u = none := by
  cases hpoured with
  | value => exact h.quiet hdrains
  | matchOf => rfl

variable {k : Kind} {i : ElementId}

theorem settle_one {s : σ} (henter : W.enter s (.node i k o [v]) = s) : W.settle s (.node i k o [v]) =
      .node i (Mark.settle (W.own s (W.visit s v) (.node i k o [v])) k) o [W.settle s v] := by
  have hbelow : W.below s (.node i k o [v]) = W.visit s v := by
    rw [below, henter]
    rfl
  rw [settle, hbelow, henter, settleAll, settleAll]

theorem settle_branch (h : W.Tracks P S drains same same') (hk : k.isBranch = true) (s : σ) :
    W.settle s (.node i k o us) = .node i k o (W.settleAll s us) := by
  obtain ⟨henter, -, hown⟩ := h.branch hk s
  rw [settle, hown, henter]
  rfl

theorem isExpression_settle (s : σ) (u : Unfolding) :
    (W.settle s u).kind.isExpression = u.kind.isExpression := by
  obtain ⟨i, k, o, us⟩ := u
  rw [settle]
  exact Mark.isExpression_settle _ k

theorem visit_clause (h : W.Tracks P S drains same same') (i c a : ElementId) (arm : Arm)
    (o : Origin) (condition action : Unfolding) (s : σ) :
    W.visit s (.node i (.whenClause c a arm) o [condition, action]) = W.visit (W.visit s condition) action :=
  (h.branch rfl s).2.1

end Tracks

end Walker

end Clausal
