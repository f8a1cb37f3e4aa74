import Clausal.Lowering.Names
import Mathlib

/-! # The names of closures are distinct

The name of a closure is made of the name of the function around it and a number, and it tells both
(`Names.closureName_inj`).  Numbers are counted for each function, so a name that is given out is none of
those given out before (`Names.not_issued_next`), in any sequence of calls (`Names.given_nodup`). -/

namespace Clausal

open List

namespace Names

/-! ### Names and numbers -/

theorem toList_closureName (function : String) (number : Nat) :
    (closureName function number).toList =
      (function.toList ++ "$closure".toList) ++ '$' :: Nat.toDigits 10 number := by
  have hname : closureName function number = function ++ "$closure$" ++ toString number := rfl
  rw [hname, Nat.toString_eq_ofList_toDigits]
  simp

theorem dollar_mem_closureName (function : String) (number : Nat) :
    '$' ∈ (closureName function number).toList := by
  rw [toList_closureName]
  exact mem_append_right _ (.head _)

theorem eq_of_append_cons {α : Type} {a : α} {as bs cs ds : List α} (h : as ++ a :: cs = bs ++ a :: ds)
    (hcs : a ∉ cs) (hds : a ∉ ds) : as = bs ∧ cs = ds := by
  rcases append_eq_append_iff.mp h with ⟨es, rfl, heq⟩ | ⟨es, rfl, heq⟩
  · cases es with
    | nil => exact ⟨(append_nil _).symm, (List.cons.inj heq).2⟩
    | cons e es => exact absurd ((List.cons.inj heq).2 ▸ mem_append_right es (.head _)) hcs
  · cases es with
    | nil => exact ⟨append_nil _, (List.cons.inj heq).2.symm⟩
    | cons e es => exact absurd ((List.cons.inj heq).2 ▸ mem_append_right es (.head _)) hds

theorem dollar_not_mem_toDigits (n : Nat) : '$' ∉ Nat.toDigits 10 n := by
  intro h
  have hdigit := Nat.isDigit_of_mem_toDigits (by decide) (by decide) h
  revert hdigit
  decide

theorem closureName_inj {f g : String} {m n : Nat} (h : closureName f m = closureName g n) :
    f = g ∧ m = n := by
  have hlist := congrArg String.toList h
  rw [toList_closureName, toList_closureName] at hlist
  obtain ⟨hfunction, hdigits⟩ :=
    eq_of_append_cons hlist (dollar_not_mem_toDigits m) (dollar_not_mem_toDigits n)
  refine ⟨String.toList_inj.mp (append_cancel_right hfunction), ?_⟩
  rw [← Nat.ofDigitChars_ten_toDigits (n := m), hdigits, Nat.ofDigitChars_ten_toDigits]

def Issued (n : Names) (x : String) : Prop :=
  ∃ function number, number < n.counters.getD function 0 ∧ x = closureName function number

theorem not_issued_next (n : Names) : ¬ n.Issued n.next.1 := by
  rintro ⟨function, number, hlt, heq⟩
  obtain ⟨rfl, rfl⟩ := closureName_inj heq
  exact Nat.lt_irrefl _ hlt

theorem issued_next_iff (n : Names) (x : String) : n.next.2.Issued x ↔ n.Issued x ∨ x = n.next.1 := by
  have hcounters (g : String) : n.next.2.counters.getD g 0 =
      if n.current?.getD "<module>" = g then n.counters.getD g 0 + 1 else n.counters.getD g 0 := by
    simp only [next, Std.HashMap.getD_insert, beq_iff_eq]
    split_ifs with h
    · rw [h]
    · rfl
  constructor
  · rintro ⟨function, number, hlt, rfl⟩
    rw [hcounters] at hlt
    split_ifs at hlt with h
    · rcases Nat.lt_succ_iff_lt_or_eq.mp hlt with hlt | rfl
      · exact .inl ⟨function, number, hlt, rfl⟩
      · refine .inr ?_
        rw [← h]
        rfl
    · exact .inl ⟨function, number, hlt, rfl⟩
  · rintro (⟨function, number, hlt, rfl⟩ | rfl)
    · refine ⟨function, number, ?_, rfl⟩
      rw [hcounters]
      split_ifs
      · exact Nat.lt_succ_of_lt hlt
      · exact hlt
    · refine ⟨_, _, ?_, rfl⟩
      rw [hcounters, if_pos rfl]
      exact Nat.lt_succ_self _

/-! ### Names given out over time -/

/-- What can be asked of the names in use. -/
inductive Call where
  | enter (function : String)
  | exit
  | next

/-- The names given out in a sequence of calls, in order. -/
def given (n : Names) : List Call → List String
  | [] => []
  | .enter function :: rest => (n.enter function).given rest
  | .exit :: rest => n.exit.given rest
  | .next :: rest => n.next.1 :: n.next.2.given rest

/-- What was given out before is not given out again. -/
theorem not_issued_of_mem_given {n : Names} {calls : List Call} {x : String} (h : x ∈ n.given calls) :
    ¬ n.Issued x := by
  induction calls generalizing n with
  | nil => cases h
  | cons call rest ih =>
    cases call with
    -- the counters, which is all that `Issued` reads, are the same
    | enter function => exact ih (n := n.enter function) h
    | exit => exact ih (n := n.exit) h
    | next =>
      rcases mem_cons.mp h with rfl | h
      · exact n.not_issued_next
      · exact fun hissued => ih h ((issued_next_iff n x).mpr (.inl hissued))

/-- Whatever functions are entered and left in between, and whatever their names are. -/
theorem given_nodup (n : Names) (calls : List Call) : (n.given calls).Nodup := by
  induction calls generalizing n with
  | nil => exact nodup_nil
  | cons call rest ih =>
    cases call with
    | enter function => exact ih (n.enter function)
    | exit => exact ih n.exit
    | next =>
      refine nodup_cons.mpr ⟨fun hmem => ?_, ih n.next.2⟩
      exact not_issued_of_mem_given hmem ((issued_next_iff n _).mpr (.inr rfl))

/-- Between two states, distinct names are given out, which were not given out before. -/
structure Gives (n n' : Names) (xs : List String) : Prop where
  nodup : xs.Nodup
  fresh : ∀ x ∈ xs, ¬ n.Issued x ∧ n'.Issued x
  kept : ∀ x, n.Issued x → n'.Issued x

namespace Gives

variable {n n' n'' : Names} {xs ys : List String}

theorem refl (n : Names) : Gives n n [] := ⟨nodup_nil, nofun, fun _ => id⟩

theorem append (h : Gives n n' xs) (h' : Gives n' n'' ys) : Gives n n'' (xs ++ ys) := by
  refine ⟨nodup_append'.mpr ⟨h.nodup, h'.nodup, fun x hx hy => (h'.fresh x hy).1 (h.fresh x hx).2⟩,
    forall_mem_append.mpr ⟨fun x hx => ?_, fun x hx => ?_⟩, fun x hx => h'.kept x (h.kept x hx)⟩
  · exact ⟨(h.fresh x hx).1, h'.kept x (h.fresh x hx).2⟩
  · exact ⟨fun hissued => (h'.fresh x hx).1 (h.kept x hissued), (h'.fresh x hx).2⟩

theorem perm (h : Gives n n' xs) (hp : xs.Perm ys) : Gives n n' ys :=
  ⟨hp.nodup h.nodup, fun x hx => h.fresh x (hp.mem_iff.mpr hx), h.kept⟩

/-- Entering and leaving a function gives out nothing. -/
theorem within {function : String} (h : Gives (n.enter function) n' xs) : Gives n n'.exit xs :=
  ⟨h.nodup, h.fresh, h.kept⟩

theorem next (n : Names) : Gives n n.next.2 [n.next.1] :=
  ⟨nodup_singleton _, forall_mem_singleton.mpr ⟨n.not_issued_next, (issued_next_iff ..).mpr (.inr rfl)⟩,
    fun _ hx => (issued_next_iff ..).mpr (.inl hx)⟩

end Gives

end Names

end Clausal
