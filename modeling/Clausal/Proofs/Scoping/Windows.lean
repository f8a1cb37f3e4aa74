import Clausal.Proofs.Tree.Marking

/-! # Windows into a walk

Closure capture and name resolution walk over an unfolding and log marks for the elements they meet. -/

namespace Clausal

open List

/-- The visit of a part of a walk: the log before and after it, and the log in the end. -/
structure Window (ids : List ElementId) (before after final : List (ElementId × Mark)) : Prop where
  unmarked : ∀ q ∈ before, q.1 ∉ ids
  kept : ∀ q ∈ after, q ∈ final
  complete : ∀ q ∈ final, q.1 ∈ ids → q ∈ after

theorem Window.narrow {ids ids' : List ElementId} {before before' after after' final : List (ElementId × Mark)}
    (h : Window ids before after final) (hids : ∀ i ∈ ids', i ∈ ids)
    (hbefore : ∀ q ∈ before', q ∈ before ∨ q.1 ∉ ids')
    (hafter : ∀ q ∈ after, q ∈ after' ∨ q.1 ∉ ids') (hafter' : ∀ q ∈ after', q ∈ after) :
    Window ids' before' after' final := by
  refine ⟨?_, fun q hq => h.kept q (hafter' q hq), ?_⟩
  · intro q hq hi
    rcases hbefore q hq with hq | hq
    · exact h.unmarked q hq (hids _ hi)
    · exact hq hi
  · intro q hq hi
    rcases hafter q (h.complete q hq (hids _ hi)) with hq | hq
    · exact hq
    · exact absurd hi hq

section
variable {α : Type} (read : Mark → Option α) {ids : List ElementId} {i : ElementId}
  {before after final : List (ElementId × Mark)}

theorem Window.latest_eq (h : Window ids before after final) (hi : i ∈ ids) {a : Mark} {y : α}
    (ha : (i, a) ∈ after) (hy : read a = some y) (hunique : ∀ q ∈ after, q.1 = i → q = (i, a)) (x : α) :
    Mark.latest read i final x = y := by
  refine Mark.latest_eq_of_mem (h.kept _ ha) hy ?_ x
  rintro ⟨j, a'⟩ hq rfl z hz
  cases hunique _ (h.complete _ hq hi) rfl
  exact Option.some.inj (hz.symm.trans hy)

theorem Window.latest_eq_self (h : Window ids before after final) (hi : i ∈ ids)
    (hnone : ∀ q ∈ after, q.1 ≠ i) (x : α) : Mark.latest read i final x = x := by
  refine Mark.latest_eq_self ?_
  rintro ⟨j, a⟩ hq rfl z hz
  exact absurd rfl (hnone _ (h.complete _ hq hi))

end

/-- A walk that keeps its log and only adds marks for what it visits, at least where it visits parts of
some shape. -/
structure Logs {σ : Type} (P : Unfolding → Prop) (visit : σ → Unfolding → σ)
    (log : σ → List (ElementId × Mark)) : Prop where
  keeps : ∀ {u}, P u → ∀ s, ∀ q ∈ log s, q ∈ log (visit s u)
  adds : ∀ {u}, P u → ∀ s, ∀ q ∈ log (visit s u), q ∈ log s ∨ q.1 ∈ u.ids

namespace Logs

variable {σ : Type} {P : Unfolding → Prop} {visit : σ → Unfolding → σ}
  {log : σ → List (ElementId × Mark)} (h : Logs P visit log)
include h

variable {us : List Unfolding}

theorem keeps_foldl (hus : ∀ u ∈ us, P u) (s : σ) : ∀ q ∈ log s, q ∈ log (us.foldl visit s) := by
  induction us generalizing s with
  | nil => exact fun q hq => hq
  | cons u us ih =>
    intro q hq
    exact ih (fun v hv => hus v (.tail _ hv)) (visit s u) q (h.keeps (hus u (.head _)) s q hq)

theorem adds_foldl (hus : ∀ u ∈ us, P u) (s : σ) :
    ∀ q ∈ log (us.foldl visit s), q ∈ log s ∨ q.1 ∈ us.flatMap Unfolding.ids := by
  intro q hq
  rw [mem_flatMap]
  exact mem_or_exists_of_foldl log (fun u hu s => h.adds (hus u hu) s q) hq

theorem child {before after : List Unfolding} {u : Unfolding} {s : σ}
    {final : List (ElementId × Mark)} (hP : ∀ v ∈ before ++ u :: after, P v)
    (hnodup : ((before ++ u :: after).flatMap Unfolding.ids).Nodup)
    (hw : Window ((before ++ u :: after).flatMap Unfolding.ids) (log s)
      (log ((before ++ u :: after).foldl visit s)) final) :
    Window u.ids (log (before.foldl visit s)) (log (visit (before.foldl visit s) u)) final := by
  rw [flatMap_append, flatMap_cons, nodup_append'] at hnodup
  obtain ⟨-, hnodup, hbefore⟩ := hnodup
  obtain ⟨-, -, hafter⟩ := nodup_append'.mp hnodup
  have hsplit : (before ++ u :: after).foldl visit s =
      after.foldl visit (visit (before.foldl visit s) u) := by
    rw [foldl_append, foldl_cons]
  have hP1 : ∀ v ∈ before, P v := fun v hv => hP v (mem_append_left _ hv)
  have hP2 : ∀ v ∈ after, P v := fun v hv => hP v (by simp [hv])
  refine hw.narrow (fun i hi => ?_) (fun q hq => ?_) (fun q hq => ?_) (fun q hq => ?_)
  · simp [hi]
  · refine (h.adds_foldl hP1 s q hq).imp_right fun hq hu => ?_
    exact hbefore hq (mem_append_left _ hu)
  · rw [hsplit] at hq
    exact (h.adds_foldl hP2 _ q hq).imp_right fun hq hu => hafter hu hq
  · rw [hsplit]
    exact h.keeps_foldl hP2 _ q hq

end Logs

theorem Unfolding.Takes.mem_ids {u : Unfolding} {p : ElementId × Mark} (h : u.Takes p) :
    p.1 ∈ u.ids := by
  obtain ⟨k, hk, -⟩ := h
  exact mem_map.mpr ⟨(p.1, k), hk, rfl⟩

end Clausal
