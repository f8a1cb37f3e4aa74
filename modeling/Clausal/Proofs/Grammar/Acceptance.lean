import Clausal.Proofs.Grammar.Roles
import Clausal.Proofs.Grammar.Semantics

/-! # The texts that are accepted

A text is accepted if it is not blank, the grammar gives a parse of it, and no integer in it is too large
(`parse_accepts`).  The readers have errors for nodes that lack a part or are of another rule; on the parse of a text
none of them is met (`converts_unitOf`). -/

namespace Clausal.Ast

open List

open Grammar (Parse)

variable {file : String} {p : Parse}

theorem isTooLarge_iff : isTooLarge p = true ↔ 2 ^ 63 - 1 < Decimal.valueOf p.text.toList :=
  decide_eq_true_iff

def IsParse (text : String) (p : Parse) : Prop :=
  ∃ stop, Grammar.Pattern.Gives (.rule .compilationUnit) .inherited (.ofText text) (some (stop, [p]))

variable {text : String}

theorem exists_isParse {nodes : List Parse} (h : Grammar.parse .compilationUnit text = .ok nodes) :
    ∃ p, nodes = [p] ∧ IsParse text p ∧ p.Formed ∧ p.rule = .compilationUnit := by
  obtain ⟨stop, hgives⟩ := Grammar.parse_eq_ok_iff.mp h
  obtain ⟨p, rfl, hp⟩ := exists_formed h
  exact ⟨p, rfl, ⟨stop, hgives⟩, hp⟩

theorem IsParse.unique {q : Parse} (hp : IsParse text p) (hq : IsParse text q) : p = q := by
  obtain ⟨_, hp⟩ := hp
  obtain ⟨_, hq⟩ := hq
  cases hp.unique hq
  rfl

theorem parse_cases (source : SourceFile) :
    source.isEmpty = true ∧ parse source = .error (.empty source.name) ∨
    source.isEmpty = false ∧ (
      Grammar.Pattern.Gives (.rule .compilationUnit) .inherited (.ofText source.content) none ∧
        (∃ failure, parse source = .error (.mismatch source.name failure)) ∨
      ∃ p, IsParse source.content p ∧ parse source = unitOf source.name p ∧
        Converts source.name p.integers (fun unit => ∀ n ∈ unit.functions, Fills .function n)
          (unitOf source.name p)) := by
  cases hempty : source.isEmpty with
  | true => exact .inl ⟨rfl, by rw [parse, if_pos hempty]⟩
  | false =>
    refine .inr ⟨rfl, ?_⟩
    cases hparse : Grammar.parse .compilationUnit source.content with
    | error failure =>
      refine .inl ⟨Grammar.parse_eq_error_iff.mp ⟨failure, hparse⟩, failure, ?_⟩
      rw [parse, hempty, hparse]
      rfl
    | ok nodes =>
      obtain ⟨p, rfl, hp, hformed, hrule⟩ := exists_isParse hparse
      refine .inr ⟨p, hp, ?_, converts_unitOf hformed hrule⟩
      rw [parse, hempty, hparse]
      rfl

theorem isEmpty_eq_false_iff {source : SourceFile} :
    source.isEmpty = false ↔ ∃ c ∈ source.content.toList, Text.isBlank c = false := by
  simp [SourceFile.isEmpty]

variable {α : Type} {ps : List Parse} {P : α → Prop}

theorem Converts.exists_ok_iff {x : Except SyntaxError α} (h : Converts file ps P x) :
    (∃ a, x = .ok a) ↔ ∀ q ∈ ps, Decimal.valueOf q.text.toList ≤ 2 ^ 63 - 1 := by
  unfold Converts at h
  cases hfind : ps.find? isTooLarge with
  | none =>
    rw [hfind] at h
    refine ⟨fun _ q hq => ?_, fun _ => h.imp fun _ => And.left⟩
    exact Nat.not_lt.mp (mt isTooLarge_iff.mpr (find?_eq_none.mp hfind q hq))
  | some q =>
    rw [hfind] at h
    refine ⟨fun ⟨a, ha⟩ => ?_, fun hall => ?_⟩
    · rw [ha] at h
      cases h
    · have hlarge := isTooLarge_iff.mp (find?_some hfind)
      exact absurd (hall q (mem_of_find?_eq_some hfind)) (Nat.not_le.mpr hlarge)

theorem Converts.of_error {x : Except SyntaxError α} {e : SyntaxError} (h : Converts file ps P x)
    (he : x = .error e) :
    ∃ q ∈ ps, 2 ^ 63 - 1 < Decimal.valueOf q.text.toList ∧ e = .integerTooLarge q.text (q.origin file) := by
  unfold Converts at h
  cases hfind : ps.find? isTooLarge with
  | none =>
    rw [hfind] at h
    obtain ⟨a, ha, -⟩ := h
    rw [ha] at he
    cases he
  | some q =>
    rw [hfind] at h
    rw [h] at he
    cases he
    exact ⟨q, mem_of_find?_eq_some hfind, isTooLarge_iff.mp (find?_some hfind), rfl⟩

/-- A file is accepted if it is not blank, the grammar gives a parse of it, and all integers in the parse have room.  Its
syntax is the one that the parse is converted to.  A file that is not accepted is blank, does not match, or has an integer
that is too large, and nothing else is ever reported. -/
theorem parse_accepts (source : SourceFile) :
    ((∃ unit, parse source = .ok unit) ↔ (∃ c ∈ source.content.toList, Text.isBlank c = false) ∧
      ∃ p, IsParse source.content p ∧ ∀ q ∈ p.integers, Decimal.valueOf q.text.toList ≤ 2 ^ 63 - 1) ∧
    (∀ unit p, parse source = .ok unit → IsParse source.content p → unitOf source.name p = .ok unit) ∧
    ∀ e, parse source = .error e → e = .empty source.name ∨ (∃ failure, e = .mismatch source.name failure) ∨
      ∃ p, IsParse source.content p ∧ ∃ q ∈ p.integers,
        2 ^ 63 - 1 < Decimal.valueOf q.text.toList ∧ e = .integerTooLarge q.text (q.origin source.name) := by
  rw [← isEmpty_eq_false_iff]
  rcases parse_cases source with ⟨hempty, hparse⟩ | ⟨hempty, ⟨hnone, failure, hparse⟩ | ⟨p, hp, hparse, hconverts⟩⟩
  · rw [hempty, hparse]
    refine ⟨⟨?_, fun h => absurd h.1 nofun⟩, fun _ _ => nofun, ?_⟩
    · rintro ⟨_, ⟨⟩⟩
    · rintro _ ⟨⟩
      exact .inl rfl
  · have hno : ∀ p, ¬ IsParse source.content p := fun p ⟨_, hgives⟩ => nomatch hgives.unique hnone
    rw [hparse]
    refine ⟨⟨?_, fun ⟨_, p, hp, _⟩ => absurd hp (hno p)⟩, fun _ _ => nofun, ?_⟩
    · rintro ⟨_, ⟨⟩⟩
    · rintro _ ⟨⟩
      exact .inr (.inl ⟨failure, rfl⟩)
  · rw [hparse]
    refine ⟨?_, fun unit q hunit hq => hp.unique hq ▸ hunit, fun e he => .inr (.inr ⟨p, hp, hconverts.of_error he⟩)⟩
    rw [hconverts.exists_ok_iff]
    exact ⟨fun hall => ⟨hempty, p, hp, hall⟩, fun ⟨_, q, hq, hall⟩ => hp.unique hq ▸ hall⟩

end Clausal.Ast
