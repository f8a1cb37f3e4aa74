import Clausal.Proofs.Meaning.Evaluation
import Clausal.Proofs.Tree.Exchanges

/-! # Agreement

Two unfoldings agree if they have the same value and run alike, whatever the interpretation.  Agreement is a
congruence: elements of the same kind agree if their parts do (`runs_of_parts`), and so do rows of statements,
the arms of cases and the arms of matches. -/

namespace Clausal.Meaning

open List Unfolding

/-- Two unfoldings mean the same, as expressions and as statements. -/
structure Agree (u u' : Unfolding) : Prop where
  value : ∀ {V : Type} (I : Interpretation V) (s : Store V), value I u s = value I u' s
  runs : ∀ {V : Type} (I : Interpretation V) (s : Store V) (r : Outcome V),
    Runs I (.statement u) s r ↔ Runs I (.statement u') s r

theorem Agree.symm {u u' : Unfolding} (h : Agree u u') : Agree u' u :=
  ⟨fun I s => (h.value I s).symm, fun I s r => (h.runs I s r).symm⟩

/-- The arms of two cases or matches mean the same, one by one. -/
inductive AgreeArms : List Unfolding → List Unfolding → Prop
  | fallback {u u'} : (∀ c a arm, u.kind ≠ .whenClause c a arm) →
      (∀ c a arm, u'.kind ≠ .whenClause c a arm) → Agree u u' → AgreeArms [u] [u']
  | clause {i i' c c' a a' arm arm' o o' condition condition' action action' us us'} :
      Agree condition condition' → Agree action action' → AgreeArms us us' →
      AgreeArms (.node i (.whenClause c a arm) o [condition, action] :: us)
        (.node i' (.whenClause c' a' arm') o' [condition', action'] :: us')

variable {us us' : List Unfolding} {V : Type} {I : Interpretation V} {i c a : ElementId} {o : Origin}
  {s : Store V} {r : Outcome V} {k k' : Kind}

theorem AgreeArms.symm (h : AgreeArms us us') : AgreeArms us' us := by
  induction h with
  | fallback hu hu' h => exact .fallback hu' hu h.symm
  | clause hc ha _ ih => exact .clause hc.symm ha.symm ih

theorem AgreeArms.exists_cons (h : AgreeArms us us') : (∃ u vs, us = u :: vs) ∧ ∃ u vs, us' = u :: vs := by
  cases h with
  | fallback | clause => exact ⟨⟨_, _, rfl⟩, _, _, rfl⟩

theorem forall₂_agree_symm (h : Forall₂ Agree us us') : Forall₂ Agree us' us :=
  h.flip.imp fun _ _ h => Agree.symm h

/-! ### Expressions -/

theorem values_congr (h : Forall₂ Agree us us') (s : Store V) : values I us s = values I us' s := by
  induction h generalizing s with
  | nil => rfl
  | cons hu _ ih => simp only [values, hu.value, ih]

theorem choice_clause {arm : Arm} {condition action : Unfolding} (hus : ∃ u vs, us = u :: vs) (s : Store V) :
    choice I (.node i (.whenClause c a arm) o [condition, action] :: us) s =
      (value I condition s).bind fun r =>
        if I.truthy r.1 then value I action r.2 else choice I us r.2 := by
  obtain ⟨u, vs, rfl⟩ := hus
  rw [choice]
  · rfl
  · simp

theorem choice_congr (h : AgreeArms us us') (s : Store V) : choice I us s = choice I us' s := by
  induction h generalizing s with
  | fallback _ _ h => simp only [choice, h.value]
  | clause hc ha hus ih =>
    obtain ⟨h1, h2⟩ := hus.exists_cons
    simp only [choice_clause h1, choice_clause h2, hc.value, ha.value, ih]

/-! ### Statements -/

theorem runs_sequence (h : Forall₂ Agree us us') (hr : Runs I (.sequence us) s r) :
    Runs I (.sequence us') s r := by
  induction h generalizing s with
  | nil => exact hr
  | cons hu _ ih =>
    cases hr with
    | next hfirst hrest => exact .next ((hu.runs I _ _).mp hfirst) (ih hrest)
    | stop hfirst => exact .stop ((hu.runs I _ _).mp hfirst)

theorem runs_arms (h : AgreeArms us us') (hr : Runs I (.arms us) s r) : Runs I (.arms us') s r := by
  induction h generalizing s with
  | fallback hu hu' h =>
    cases hr with
    | clause | nextClause => exact absurd rfl (hu _ _ _)
    | fallback hr => exact .fallback ((h.runs I _ _).mp hr)
  | clause hc ha hus ih =>
    cases hr with
    | clause hv ht hr => exact .clause (hc.value I _ ▸ hv) ht ((ha.runs I _ _).mp hr)
    | nextClause hv ht hr => exact .nextClause (hc.value I _ ▸ hv) ht (ih hr)
    | fallback hr =>
      obtain ⟨⟨_, _, ⟨⟩⟩, -⟩ := hus.exists_cons

theorem runs_loop {condition condition' body body' : Unfolding}
    (hc : Agree condition condition') (hb : Agree body body')
    (hr : Runs I (.statement (.node i (.loop c a) o [condition, body])) s r) :
    Runs I (.statement (.node i (.loop c a) o [condition', body'])) s r := by
  generalize htask : Task.statement (.node i (.loop c a) o [condition, body]) = task at hr
  induction hr with
  | loopAgain hv ht hbody _ _ ih =>
    cases htask
    exact .loopAgain (hc.value I _ ▸ hv) ht ((hb.runs I _ _).mp hbody) (ih rfl)
  | loopReturn hv ht hbody _ =>
    cases htask
    exact .loopReturn (hc.value I _ ▸ hv) ht ((hb.runs I _ _).mp hbody)
  | loopEnd hv ht =>
    cases htask
    exact .loopEnd (hc.value I _ ▸ hv) ht
  | expression hk =>
    cases htask
    cases hk
  | _ => cases htask

theorem runs_of_parts (hk : k.Akin k') (hus : Forall₂ Agree us us')
    (hcase : ∀ ids x, k = .caseOf ids x → AgreeArms us us')
    (hvalue : value I (.node i k o us) s = value I (.node i k' o us') s)
    (hr : Runs I (.statement (.node i k o us)) s r) : Runs I (.statement (.node i k' o us')) s r := by
  rcases hk with rfl | ⟨ids, ids', rfl, rfl⟩
  · cases hr with
    | expression hexpr hv => exact .expression hexpr (hvalue ▸ hv)
    | block hr => exact .block (runs_sequence hus hr)
    | assignment hv =>
      obtain ⟨u', rfl, hu⟩ := forall₂_one hus
      exact .assignment (hu.value I _ ▸ hv)
    | bareReturn => exact .bareReturn
    | valueReturn hv =>
      obtain ⟨u', rfl, hu⟩ := forall₂_one hus
      exact .valueReturn (hu.value I _ ▸ hv)
    | thenBranch hv ht hr =>
      obtain ⟨condition', _, hc, hrest, rfl⟩ := forall₂_cons_left_iff.mp hus
      obtain ⟨action', _, ha, -, rfl⟩ := forall₂_cons_left_iff.mp hrest
      exact .thenBranch (hc.value I _ ▸ hv) ht ((ha.runs I _ _).mp hr)
    | elseBranch hv ht hr =>
      obtain ⟨condition', _, hc, hrest, rfl⟩ := forall₂_cons_left_iff.mp hus
      obtain ⟨action', other', rfl, -, ho⟩ := forall₂_two hrest
      exact .elseBranch (hc.value I _ ▸ hv) ht ((ho.runs I _ _).mp hr)
    | noElse hv ht =>
      obtain ⟨condition', action', rfl, hc, -⟩ := forall₂_two hus
      exact .noElse (hc.value I _ ▸ hv) ht
    | caseOf hr => exact .caseOf (runs_arms (hcase _ _ rfl) hr)
    | loopAgain hv ht hb hr =>
      obtain ⟨condition', body', rfl, hc, hbody⟩ := forall₂_two hus
      exact runs_loop hc hbody (.loopAgain hv ht hb hr)
    | loopReturn hv ht hb =>
      obtain ⟨condition', body', rfl, hc, hbody⟩ := forall₂_two hus
      exact runs_loop hc hbody (.loopReturn hv ht hb)
    | loopEnd hv ht =>
      obtain ⟨condition', body', rfl, hc, hbody⟩ := forall₂_two hus
      exact runs_loop hc hbody (.loopEnd hv ht)
  · cases hr with
    | expression hexpr => cases hexpr
    | block hr => exact .block (runs_sequence hus hr)

theorem returns_of_parts (hus : Forall₂ Agree us us') {v : V} {s1 : Store V}
    (h : Returns I (.node i k o us) s v s1) : Returns I (.node i k' o us') s v s1 := by
  obtain ⟨body, r, hbody, hr, hresult⟩ := h
  obtain rfl : us = [body] := hbody
  obtain ⟨body', rfl, hagree⟩ := forall₂_one hus
  exact ⟨body', r, rfl, (hagree.runs I _ _).mp hr, hresult⟩

end Clausal.Meaning
