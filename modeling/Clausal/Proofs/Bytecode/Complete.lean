import Clausal.Proofs.Bytecode.Functions
import Clausal.Proofs.Scoping.Settling

/-! # Code for everything that is resolved

Code generation only fails on a name that was never resolved (`Generate.exists_outside`), and a name that is not
resolved is an error.  So an unfolding that is settled without errors is `Complete`. -/

namespace Clausal

open Option Unfolding

namespace Resolution

variable {r r' : Resolution} {o : Origin} {i : ElementId} {x : String} {u : Unfolding}

def Clean (r : Resolution) : Prop := ∀ d ∈ r.diagnostics, d.isError = false

theorem Later.clean (h : r.Later r') (hclean : r'.Clean) : r.Clean := fun d hd =>
  hclean d (h.diagnostics d hd)

theorem not_clean_complain {problem : Problem} (h : problem.level.isError = true) :
    ¬ (r.complain o problem).Clean := by
  intro hclean
  have hlevel : problem.level.isError = false := hclean ⟨problem, o⟩ (Array.mem_push_self ..)
  rw [h] at hlevel
  cases hlevel

theorem Clean.declareLocal {d : Declaration} (h : (r.declareLocal i o x d).Clean) :
    (r.declared? x d).isSome = true := by
  unfold Resolution.declareLocal at h
  unfold declared?
  cases hf : r.frames with
  | nil =>
    rw [hf] at h
    exact absurd h (not_clean_complain rfl)
  | cons top outer =>
    rw [hf] at h
    simp only [List.head?_cons, bind_some] at h ⊢
    generalize top.declare .local (d = .constant) x = result at h ⊢
    obtain ⟨top', refusal | b⟩ := result
    · refine absurd h (not_clean_complain ?_)
      cases refusal <;> rfl
    · rfl

theorem Clean.assign {initializer : Bool} (h : (r.assign i o x initializer).Clean) :
    (r.assigned? x initializer).isSome = true := by
  unfold Resolution.assign at h
  unfold assigned?
  cases hs : r.lookup x with
  | none =>
    rw [hs] at h
    exact absurd h (not_clean_complain rfl)
  | some s =>
    rw [hs] at h
    dsimp only at h
    split_ifs at h with hcaptured hconstant
    · exact absurd h (not_clean_complain rfl)
    · exact absurd h (not_clean_complain rfl)
    · rw [bind_some, if_neg]
      · rfl
      · rw [Bool.or_eq_true, decide_eq_true_eq]
        exact not_or.mpr ⟨hcaptured, hconstant⟩

theorem Clean.refer (h : (r.refer i o x).Clean) : (r.lookup x).isSome = true := by
  unfold Resolution.refer at h
  cases hs : r.lookup x with
  | none =>
    rw [hs] at h
    exact absurd h (not_clean_complain rfl)
  | some s => rfl

theorem Clean.call {given : Nat} (h : (r.call i o x given).Clean) : (r.called? x).isSome = true := by
  unfold Resolution.call at h
  unfold called?
  cases hs : r.lookup x with
  | some s => rfl
  | none =>
    rw [hs] at h
    dsimp only at h ⊢
    rw [Std.HashMap.contains_eq_isSome_getElem?]
    cases hf : r.functions[x]? with
    | some expected => rfl
    | none =>
      rw [hf] at h
      dsimp only at h
      split_ifs at h with hb
      · rw [isSome_none, if_neg Bool.false_ne_true, if_pos hb]
        rfl
      · exact absurd h (not_clean_complain rfl)

theorem Clean.capture {names : List String} (h : (r.capture i o names).Clean) :
    (r.sources names).length = names.length := by
  unfold sources
  rw [List.length_filterMap_eq_countP, List.countP_eq_length]
  intro x hx
  rw [isSome_map]
  by_contra hnone
  have hmissing : x ∈ names.filter fun x => (r.lookup x).isNone := by
    rw [List.mem_filter]
    exact ⟨hx, by simpa using hnone⟩
  have herror := h ⟨.captureOutOfScope x, o⟩ (mem_diagnostics_foldl o Problem.captureOutOfScope hmissing r)
  cases herror

theorem later_below (hu : u.Fits) (r : Resolution) : (walker.below r u).Later (visit r u) := by
  rw [walker_below]
  obtain ⟨i, k, o, us⟩ := u
  unfold visit
  cases k with
  | assignment x d value b initializer =>
    cases d with
    | some d =>
      exact later_declareLocal ..
    | none =>
      exact later_assign ..
  | reference x b =>
    obtain rfl := hu.none rfl
    exact later_refer ..
  | invocation x arguments target =>
    exact later_call ..
  | function name params b lifted captures =>
    exact later_frames ..
  | block ids =>
    exact later_modifyTop ..
  | _ =>
    exact .refl _

theorem complete_settleAll {us : List Unfolding} (hus : ∀ u ∈ us, u.Inner)
    (ih : ∀ u ∈ us, ∀ r, (visit r u).Clean → (walker.settle r u).Complete) (hclean : (visitAll r us).Clean) :
    ∀ v ∈ walker.settleAll r us, v.Complete := by
  induction us generalizing r with
  | nil =>
    rw [Walker.settleAll]
    exact by simp
  | cons u us ihus =>
    rw [visitAll] at hclean
    have hrest : ∀ v ∈ us, v.Inner := fun v hv => hus v (.tail _ hv)
    have hfirst : (visit r u).Clean := (later_visitAll hrest _).clean hclean
    intro v hv
    rw [Walker.settleAll] at hv
    rcases List.mem_cons.mp hv with rfl | hv
    · exact ih u (.head _) r hfirst
    · exact ihus hrest (fun v hv => ih v (.tail _ hv)) hclean v hv

theorem capturesOf_settleAll (r : Resolution) (us : List Unfolding) :
    capturesOf (walker.settleAll r us) = capturesOf us := by
  cases us with
  | nil => rw [Walker.settleAll]
  | cons u us =>
    obtain ⟨i, k, o, vs⟩ := u
    rw [Walker.settleAll, Walker.settle]
    generalize hown : walker.own r (walker.below r (.node i k o vs)) (.node i k o vs) = own
    cases k with
    | function => cases hown; rfl
    | _ => cases own with
      | none => rfl
      | some a => cases a <;> rfl

theorem complete_settle (hu : u.Fits) (hclean : (visit r u).Clean) : (walker.settle r u).Complete := by
  induction u generalizing r with
  | node i k o us ih =>
    have hbelow : (visitAll (walker.enter r (.node i k o us)) us).Clean := by
      have hlater := later_below hu r
      rw [walker_below] at hlater
      exact hlater.clean hclean
    rw [Walker.settle]
    refine .node ?_ (complete_settleAll hu.inner (fun u hm r => ih u hm (hu.child u hm)) hbelow)
    rw [walker_below]
    cases k with
    | assignment x d value b initializer =>
      cases d with
      | some d =>
        rw [visit] at hclean
        obtain ⟨b', hb'⟩ := isSome_iff_exists.mp hclean.declareLocal
        simp only [walker, children, hb']
        rfl
      | none =>
        rw [visit] at hclean
        obtain ⟨b', hb'⟩ := isSome_iff_exists.mp hclean.assign
        simp only [walker, children, hb']
        rfl
    | reference x b =>
      rw [visit] at hclean
      obtain ⟨s, hs⟩ := isSome_iff_exists.mp hclean.refer
      simp only [walker, hs]
      rfl
    | invocation x arguments target =>
      rw [visit] at hclean
      obtain ⟨c, hc⟩ := isSome_iff_exists.mp hclean.call
      simp only [walker, children, hc]
      rfl
    | closure f bound =>
      have hcapture : (r.capture i o (capturesOf us)).Clean := (later_visitAll hu.inner _).clean hbelow
      refine decide_eq_true ?_
      rw [capturesOf_settleAll]
      exact hcapture.capture.symm
    | _ => rfl

end Resolution

end Clausal
