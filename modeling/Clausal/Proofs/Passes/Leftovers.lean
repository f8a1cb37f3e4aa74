import Clausal.Passes.MatchExpansion
import Clausal.Proofs.Tree.Marking

/-! # What is left to expand

A pass that expands statements is done with an unfolding when there is nothing of the form that it looks for
in it.  `Free P u` says so for a form `P`, `FreeBelow P u` leaves out what is on top, which stays as it is
when nobody holds it. -/

namespace Clausal.Unfolding

/-- A statement that assigns or returns the value of a match. -/
inductive Pours : Unfolding → Prop
  | intro {s i x k o o' ids us sink} : Sink.ofKind? k = some sink → Pours (.node s k o [.node i (.matchOf ids x) o' us])

/-- A case statement. -/
inductive Switches : Unfolding → Prop
  | intro {i x o ids us} : Switches (.node i (.caseOf ids x) o us)

def Free (P : Unfolding → Prop) (u : Unfolding) : Prop := ∀ v, v.Within u → ¬ P v

def FreeBelow (P : Unfolding → Prop) (u : Unfolding) : Prop := ∀ v ∈ u.children, v.Free P

variable {P : Unfolding → Prop} {i : ElementId} {k : Kind} {o : Origin} {us : List Unfolding}
  {v u : Unfolding}

theorem free_iff : u.Free P ↔ ¬ P u ∧ u.FreeBelow P := by
  constructor
  · intro h
    refine ⟨h u .here, fun v hv w hw => ?_⟩
    cases u
    exact h w (.child hv hw)
  · rintro ⟨htop, hbelow⟩ v hv
    cases hv with
    | here => exact htop
    | child hu hv => exact hbelow _ hu v hv

theorem Free.below (h : u.Free P) : u.FreeBelow P := (free_iff.mp h).2

theorem freeBelow_one : (Unfolding.node i k o [v]).FreeBelow P ↔ v.Free P := by
  simp [FreeBelow, children]

theorem not_pours_of_ofKind? (hk : Sink.ofKind? k = none) : ¬ Pours (.node i k o us) := by
  rintro ⟨hsink⟩
  rw [hk] at hsink
  cases hsink

theorem not_pours_of_ne_matchOf (hv : ∀ ids x, v.kind ≠ .matchOf ids x) : ¬ Pours (.node i k o [v]) := by
  rintro ⟨-⟩
  exact hv _ _ rfl

theorem not_switches (hk : ∀ ids x, k ≠ .caseOf ids x) : ¬ Switches (.node i k o us) := by
  rintro ⟨⟩
  exact hk _ _ rfl

/-! ### Marks -/

variable (as : List (ElementId × Mark))

theorem ofKind?_rekind : Sink.ofKind? (rekind i as k) = Sink.ofKind? k := by
  rw [rekind_def]
  cases k with
  | assignment _ d _ _ _ => cases d <;> rfl
  | _ => rfl

theorem pours_marked : (u.marked as).Pours → u.Pours := by
  obtain ⟨i, k, o, us⟩ := u
  rw [marked_node]
  intro h
  generalize hvs : us.map (·.marked as) = vs at h
  generalize hk' : rekind i as k = k' at h
  obtain ⟨hsink⟩ := h
  obtain ⟨v, rfl, hv⟩ := List.map_eq_singleton_iff.mp hvs
  obtain ⟨km, ws, rfl, hkm, -⟩ := exists_of_marked hv.symm
  have hmatch : ∃ ids x, km = .matchOf ids x := by
    rw [rekind_def] at hkm
    cases km <;> cases hkm
    exact ⟨_, _, rfl⟩
  obtain ⟨ids, x, rfl⟩ := hmatch
  rw [← hk', ofKind?_rekind] at hsink
  exact .intro hsink

theorem switches_marked : (u.marked as).Switches → u.Switches := by
  obtain ⟨i, k, o, us⟩ := u
  rw [marked_node]
  intro h
  generalize hk' : rekind i as k = k' at h
  cases h
  rw [rekind_def] at hk'
  cases k <;> cases hk'
  exact .intro

theorem Free.marked (hP : ∀ u : Unfolding, P (u.marked as) → P u) (h : u.Free P) : (u.marked as).Free P := by
  induction u with
  | node i k o us ih =>
    obtain ⟨htop, hbelow⟩ := free_iff.mp h
    refine free_iff.mpr ⟨fun hp => htop (hP _ hp), ?_⟩
    rw [marked_node]
    intro v hv
    obtain ⟨u, hu, rfl⟩ := List.mem_map.mp hv
    exact ih u hu (hbelow u hu)

theorem FreeBelow.marked (hP : ∀ u : Unfolding, P (u.marked as) → P u)
    (h : u.FreeBelow P) : (u.marked as).FreeBelow P := by
  obtain ⟨i, k, o, us⟩ := u
  rw [marked_node]
  intro v hv
  obtain ⟨u, hu, rfl⟩ := List.mem_map.mp hv
  exact (h u hu).marked as hP

end Clausal.Unfolding
