import Clausal.Proofs.Meaning.Agreement
import Clausal.Proofs.Passes.KeptFunctions

/-! # Expanded matches mean the same

A statement that takes the value of a match, and the case that takes the value of each clause in its place,
run alike as long as all of these statements are bound to the same slot (`Yields`). -/

namespace Clausal.Meaning

open MatchExpansion Unfolding

/-- The statements that take a value as one of some kind does. -/
inductive Yields : Kind → (ElementId → Kind) → Prop
  | assignment {name y b f} :
      Yields (.assignment name none y (some b) f) fun x => .assignment name none x (some b) f
  | returns {y} : Yields (.returns (some y)) fun x => .returns (some x)

variable {V : Type} {I : Interpretation V} {k : Kind} {make : ElementId → Kind} {i : ElementId} {o : Origin}
  {us us' : List Unfolding} {ids : List ElementId} {s : Store V} {r : Outcome V} {u : Unfolding}

def Ends (I : Interpretation V) (make : ElementId → Kind) (finish : V → Store V → Outcome V) : Prop :=
  ∀ i x o v s r, Runs I (.statement (.node i (make x) o [v])) s r ↔
    ∃ a s1, value I v s = some (a, s1) ∧ r = finish a s1

theorem Yields.ends (h : Yields k make) (I : Interpretation V) : ∃ finish, Ends I make finish := by
  cases h with
  | @assignment name y b f =>
    refine ⟨fun a s => .falls (s.write b.slot a), fun i x o v s r => ⟨fun hr => ?_, ?_⟩⟩
    · cases hr with
      | expression hk => cases hk
      | assignment hv => exact ⟨_, _, hv, rfl⟩
    · rintro ⟨a, s1, hv, rfl⟩
      exact .assignment hv
  | returns =>
    refine ⟨fun a s => .returns a s, fun i x o v s r => ⟨fun hr => ?_, ?_⟩⟩
    · cases hr with
      | expression hk => cases hk
      | valueReturn hv => exact ⟨_, _, hv, rfl⟩
    · rintro ⟨a, s1, hv, rfl⟩
      exact .valueReturn hv

theorem Yields.isStep (h : Yields k make) : k.isStep = true ∧ ∀ x, (make x).isStep = true := by
  cases h <;> exact ⟨rfl, fun _ => rfl⟩

theorem Yields.exists_eq (h : Yields k make) : ∃ y, k = make y := by
  cases h with
  | @assignment _ y => exact ⟨y, rfl⟩
  | @returns y => exact ⟨y, rfl⟩

theorem value_of_isStep (hk : k.isStep = true) (s : Store V) : value I (.node i k o us) s = none := by
  cases k <;> first | (cases hk; done) | simp only [value]

theorem runs_caseOf_iff {x : ElementId} :
    Runs I (.statement (.node i (.caseOf ids x) o us)) s r ↔ Runs I (.arms us) s r := by
  constructor
  · intro hr
    cases hr with
    | expression hk => cases hk
    | caseOf hr => exact hr
  · exact .caseOf

theorem runs_block_singleton {b : ElementId} :
    Runs I (.statement (.node b (.block ids) o [u])) s r ↔ Runs I (.statement u) s r := by
  constructor
  · intro hr
    cases hr with
    | expression hk => cases hk
    | block hr =>
      cases hr with
      | next hfirst hrest =>
        cases hrest
        exact hfirst
      | stop hfirst => exact hfirst
  · intro hr
    cases r with
    | falls s1 => exact .block (.next hr .done)
    | returns v s1 => exact .block (.stop hr)

/-- A case with statements for the values of a match does what one statement does with its value. -/
def Pours (I : Interpretation V) (finish : V → Store V → Outcome V) (v u : Unfolding) : Prop :=
  ∀ s r, Runs I (.statement u) s r ↔ ∃ a s1, value I v s = some (a, s1) ∧ r = finish a s1

theorem pours_arms {finish : V → Store V → Outcome V} (h : PouredArms Yields make us us')
    (ih : ∀ v ∈ us, ∀ u, Poured Yields make v u → Pours I finish v u) (ih' : ∀ u ∈ us, ∀ v ∈ u.children, (∀
    v', Expanded Yields v v' → Agree v v') ∧ ∀ u, Poured Yields make v u → Pours I finish v u) (s : Store V)
    (r : Outcome V) : Runs I (.arms us') s r ↔ ∃ a s1, choice I us s = some (a, s1) ∧ r = finish a s1 := by
  induction us generalizing us' s with
  | nil => cases h
  | cons w us ihus =>
    cases h with
    | @fallback _ _ u b ids o hexpr hpoured =>
      rw [choice, ← ih w (.head _) u hpoured s r, ← runs_block_singleton]
      constructor
      · intro hr
        cases hr with
        | fallback hr => exact hr
      · exact .fallback
    | @clause _ i j c c' a b b' ids o o' condition condition' v u _ us' hcondition hpoured harms =>
      obtain ⟨h1, h2⟩ := harms.exists_cons
      have hc := (ih' _ (.head _) condition (by simp [children])).1 _ hcondition
      have hv := (ih' _ (.head _) v (by simp [children])).2 _ hpoured
      have hrest := fun s => ihus harms (fun v hv => ih v (.tail _ hv)) (fun u hu => ih' u (.tail _ hu)) s
      rw [choice_clause h1]
      constructor
      · intro hr
        cases hr with
        | clause hvalue ht hr =>
          rw [← hc.value] at hvalue
          rw [hvalue, Option.bind_some, if_pos ht]
          exact (hv _ _).mp (runs_block_singleton.mp hr)
        | nextClause hvalue ht hr =>
          rw [← hc.value] at hvalue
          rw [hvalue, Option.bind_some, if_neg (by simp [ht])]
          exact (hrest _).mp hr
        | fallback =>
          obtain ⟨_, _, ⟨⟩⟩ := h2
      · rintro ⟨a, s1, hchoice, hr⟩
        obtain ⟨⟨t, s2⟩, hvalue, hchoice⟩ := Option.bind_eq_some_iff.mp hchoice
        rw [hc.value] at hvalue
        cases ht : I.truthy t with
        | true =>
          rw [if_pos ht] at hchoice
          exact .clause hvalue ht (runs_block_singleton.mpr ((hv _ _).mpr ⟨a, s1, hchoice, hr⟩))
        | false =>
          rw [if_neg (by simp [ht])] at hchoice
          exact .nextClause hvalue ht ((hrest _).mpr ⟨a, s1, hchoice, hr⟩)

theorem agreeArms_of_expanded {arm : Arm} (harms : Arms arm us)
    (hus : List.Forall₂ (Expanded Yields) us us') (ih : ∀ u ∈ us, ∀ u', Expanded Yields u u' → Agree u u')
    (ih' : ∀ u ∈ us, ∀ v ∈ u.children, ∀ v', Expanded Yields v v' → Agree v v') : AgreeArms us us' := by
  induction harms generalizing us' with
  | @fallback u _ hu =>
    obtain ⟨u', rfl, hexp⟩ := forall₂_one hus
    obtain ⟨hstep, hclause⟩ : u.kind.isStep = false ∧ ∀ c a arm, u.kind ≠ .whenClause c a arm := by
      generalize u.kind = k at hu
      cases arm <;> cases k <;> first | (cases hu; done) | exact ⟨rfl, fun _ _ _ => nofun⟩
    have hakin : u.kind.Akin u'.kind := hexp.akin fun make hyields => by
      rw [hyields.isStep.1] at hstep
      cases hstep
    refine .fallback hclause (fun c a arm heq => ?_) (ih u (.head _) u' hexp)
    rw [heq] at hakin
    rcases hakin with hk | ⟨_, _, _, hk⟩
    · exact hclause _ _ _ hk.symm
    · cases hk
  | @clause i c a o condition action rest _ _ _ _ _ ihrest =>
    obtain ⟨w, rest', hexp, hrest, rfl⟩ := List.forall₂_cons_left_iff.mp hus
    cases hexp with
    | node hakin hparts =>
      rcases hakin with rfl | ⟨_, _, hk, -⟩
      · obtain ⟨condition', action', rfl, hc, ha⟩ := forall₂_two hparts
        exact .clause (ih' _ (.head _) condition (by simp [children]) _ hc)
          (ih' _ (.head _) action (by simp [children]) _ ha)
          (ihrest hrest (fun u hu => ih u (.tail _ hu)) fun u hu => ih' u (.tail _ hu))
      · cases hk

theorem value_of_parts {k' : Kind} (hfits : Fits (.node i k o us)) (hk : k.Akin k')
    (hexp : List.Forall₂ (Expanded Yields) us us') (hus : List.Forall₂ Agree us us')
    (hmatch : ∀ ids x, k = .matchOf ids x → AgreeArms us us') (s : Store V) :
    value I (.node i k o us) s = value I (.node i k' o us') s := by
  rcases hk with rfl | ⟨ids, ids', rfl, rfl⟩
  · cases k' with
    | binary operator l r =>
      obtain ⟨left, right, rfl, -⟩ := hfits.two rfl
      obtain ⟨left', right', rfl, hl, hr⟩ := forall₂_two hus
      cases operator <;> simp only [value, hl.value, hr.value]
    | unary operator x =>
      obtain ⟨operand, rfl, -⟩ := hfits.one rfl
      obtain ⟨operand', rfl, h⟩ := forall₂_one hus
      simp only [value, h.value]
    | invocation name arguments target =>
      cases target with
      | none => simp only [value]
      | some target => simp only [value, values_congr hus]
    | closure f captured =>
      obtain ⟨function, rfl, -, hf⟩ := hfits.one rfl
      obtain ⟨function', rfl, hfunction⟩ := forall₂_one hexp
      obtain ⟨i', kf, o', body⟩ := function
      cases kf <;> cases hf
      cases hfunction with
      | node hakin _ =>
        rcases hakin with rfl | ⟨_, _, hk, -⟩
        · simp only [value]
        · cases hk
      | poured hyields => cases hyields
    | matchOf ids x => simp only [value, choice_congr (hmatch ids x rfl)]
    | reference name b => cases b <;> simp only [value]
    | _ => simp only [value]
  · simp only [value]

/-- Unfoldings agree with their expansions, and a case with statements for the values of a match does what
one statement does with the value of the match. -/
theorem agree_of_expanded (u : Unfolding) (hfits : u.Fits) :
    (∀ u', Expanded Yields u u' → Agree u u') ∧
      ∀ (V : Type) (I : Interpretation V) make finish u', Ends I make finish → Poured Yields make u u' →
        Pours I finish u u' := by
  induction u using induct₂ with
  | node i k o us ih ih' =>
    have hus := fun u hu => ih u hu (hfits.child u hu)
    have hus' : ∀ u ∈ us, ∀ v ∈ u.children, (∀ v', Expanded Yields v v' → Agree v v') ∧
        ∀ (V : Type) (I : Interpretation V) make finish u', Ends I make finish →
          Poured Yields make v u' → Pours I finish v u' := by
      intro u hu v hv
      obtain ⟨_, _, _, _⟩ := u
      exact ih' _ hu v hv ((hfits.child _ hu).child v hv)
    have hagree : ∀ u', Expanded Yields (.node i k o us) u' → Agree (.node i k o us) u' := by
      intro u' hexp
      cases hexp with
      | @node _ _ k' _ _ us' hakin hparts =>
        have hall := forall₂_of_mem hparts fun u hu => (hus u hu).1
        have harms : ∀ {arm}, Arms arm us → AgreeArms us us' := fun harms =>
          agreeArms_of_expanded harms hparts (fun u hu => (hus u hu).1) fun u hu v hv => (hus' u hu v hv).1
        have hmatch : ∀ ids x, k = .matchOf ids x → AgreeArms us us' := by
          rintro ids x rfl
          exact harms (hfits.arms rfl)
        have hcase : ∀ ids x, k = .caseOf ids x → AgreeArms us us' := by
          rintro ids x rfl
          exact harms (hfits.arms rfl)
        have hcase' : ∀ ids x, k' = .caseOf ids x → AgreeArms us' us := by
          rintro ids x rfl
          rcases hakin with hk | ⟨_, _, _, hk⟩
          · exact (hcase ids x hk.symm).symm
          · cases hk
        have hvalue := fun {V : Type} (I : Interpretation V) (s : Store V) =>
          value_of_parts (I := I) hfits hakin hparts hall hmatch s
        exact ⟨hvalue, fun I s r => ⟨runs_of_parts hakin hall hcase (hvalue I s),
          runs_of_parts hakin.symm (forall₂_agree_symm hall) hcase' (hvalue I s).symm⟩⟩
      | @poured _ _ make _ v _ hyields hpoured =>
        refine ⟨fun I s => ?_, fun I s r => ?_⟩
        · rw [value_of_isStep hyields.isStep.1]
          cases hpoured with
          | value => rw [value_of_isStep (hyields.isStep.2 _)]
          | matchOf => rw [value_of_isStep rfl]
        · obtain ⟨y, rfl⟩ := hyields.exists_eq
          obtain ⟨finish, hends⟩ := hyields.ends I
          rw [hends, (hus v (.head _)).2 _ I make finish u' hends hpoured s r]
    refine ⟨hagree, fun V I make finish u' hends hpoured => ?_⟩
    cases hpoured with
    | value hexp =>
      intro s r
      rw [hends]
      simp only [(hagree _ hexp).value]
    | matchOf harms =>
      intro s r
      rw [runs_caseOf_iff, pours_arms harms (fun v hv u hu => (hus v hv).2 _ I _ _ _ hends hu)
        fun u hu v hv => ⟨(hus' u hu v hv).1, fun w hw => (hus' u hu v hv).2 _ I _ _ _ hends hw⟩]
      simp only [value]

/-! ### Functions -/

/-- Two functions have the same name and shape and return the same. -/
def SameFunction (f f' : Unfolding) : Prop :=
  f'.kind = f.kind ∧ ∀ (V : Type) (I : Interpretation V) (s : Store V) (v : V) (s1 : Store V),
    Returns I f s v s1 ↔ Returns I f' s v s1

theorem functions_of_expanded {u' : Unfolding} (h : Expanded Yields u u') (hfits : u.Fits) :
    List.Forall₂ SameFunction u.functions u'.functions := by
  refine MatchExpansion.functions_of_expanded (fun h => h.isStep) (fun _ hfits hparts => ⟨rfl, ?_⟩) h hfits
  intro V I s v s1
  have hall := forall₂_of_mem hparts fun u hu => (agree_of_expanded u (hfits.child u hu)).1
  exact ⟨returns_of_parts hall, returns_of_parts (forall₂_agree_symm hall)⟩

end Clausal.Meaning
