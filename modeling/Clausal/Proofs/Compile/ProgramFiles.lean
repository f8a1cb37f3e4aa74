import Clausal.Proofs.Bytecode.Restoration
import Clausal.Proofs.Compile.KeptLiterals
import Clausal.Proofs.Json.Reals

/-! # Files of compiled programs

A program is read back from its file when its floating-point constants are finite, and otherwise nothing is
read at all (`Program.ofFileText_eq_ite`). -/

namespace Clausal

open Json (Reader)

/-! ### Finite constants -/

/-- What is read for a floating-point number if finite numbers are read as they are written. -/
def Json.finite (x : Float) : Except Json.Fault Float :=
  if x.isFinite then .ok x else .error (.wrongType .null "f64")

variable {x : Float}

theorem Json.finite_of_isFinite (hx : x.isFinite = true) : Json.finite x = .ok x := if_pos hx

theorem Json.finite_of_not_isFinite (hx : x.isFinite = false) :
    Json.finite x = .error (.wrongType .null "f64") :=
  if_neg (by simp [hx])

theorem mapM_eq_self_or_error {α : Type} {f : α → Except Json.Fault α} {as : List α} {fault : Json.Fault}
    (h : ∀ a ∈ as, f a = .ok a ∨ f a = .error fault) : as.mapM f = .ok as ∨ as.mapM f = .error fault := by
  induction as with
  | nil => exact .inl rfl
  | cons a as ih =>
    obtain ⟨ha, has⟩ := List.forall_mem_cons.mp h
    rw [List.mapM_cons]
    rcases ha with ha | ha
    · rw [ha]
      rcases ih has with has | has <;> rw [has]
      · exact .inl rfl
      · exact .inr rfl
    · rw [ha]
      exact .inr rfl

section
variable {real : Float → Except Json.Fault Float} {fault : Json.Fault}

theorem FunctionCode.restored_eq_self_or_error (h : ∀ x, real x = .ok x ∨ real x = .error fault)
    (f : FunctionCode) : f.restored real = .ok f ∨ f.restored real = .error fault := by
  have hop : ∀ op ∈ f.code, op.restored real = .ok op ∨ op.restored real = .error fault := by
    intro op _
    cases op with
    | const v =>
      cases v with
      | float x =>
        rcases h x with hx | hx <;> rw [Op.restored, Value.restored, hx]
        · exact .inl rfl
        · exact .inr rfl
      | _ => exact .inl rfl
    | _ => exact .inl rfl
  rcases mapM_eq_self_or_error hop with hcode | hcode <;> rw [FunctionCode.restored, hcode]
  · exact .inl rfl
  · exact .inr rfl

theorem Program.restored_eq_self_or_error (h : ∀ x, real x = .ok x ∨ real x = .error fault) (p : Program) :
    p.restored real = .ok p ∨ p.restored real = .error fault := by
  rcases mapM_eq_self_or_error fun f (_ : f ∈ p.functions) => f.restored_eq_self_or_error h with hfs | hfs <;>
    rw [Program.restored, hfs]
  · exact .inl rfl
  · exact .inr rfl

end

theorem Program.ofFileText_eq_ite {p : Program} (hcounts : ∀ n ∈ p.counts, n ≤ 2 ^ 64 - 1)
    (hreal : ∀ x ∈ p.floats, x.isFinite = true → Reader.real.run (Decimal.interchange.text x) = .ok x) :
    Program.ofFileText p.fileText =
      if p.floats.all Float.isFinite then .ok p else .error (.wrongType .null "f64") := by
  have hread : Program.ofFileText p.fileText = p.restored Json.finite := by
    refine Program.ofFileText_fileText Json.finite hcounts fun x hx => ?_
    cases hfinite : x.isFinite with
    | true =>
      rw [Json.finite_of_isFinite hfinite]
      exact Json.reads_real_of_run hfinite (hreal x hx hfinite)
    | false =>
      rw [Json.finite_of_not_isFinite hfinite]
      exact Json.reads_real_of_not_isFinite hfinite
  have hfinite : p.restored Json.finite = .ok p ↔ p.floats.all Float.isFinite = true := by
    rw [Program.restored_eq_ok_iff, List.all_eq_true]
    refine forall₂_congr fun x _ => ⟨fun hx => ?_, Json.finite_of_isFinite⟩
    by_contra hnot
    rw [Json.finite_of_not_isFinite (by simpa using hnot)] at hx
    cases hx
  rw [hread]
  split_ifs with hall
  · exact hfinite.mpr hall
  · refine (p.restored_eq_self_or_error fun x => ?_).resolve_left fun hok => hall (hfinite.mp hok)
    cases hx : x.isFinite with
    | true => exact .inl (Json.finite_of_isFinite hx)
    | false => exact .inr (Json.finite_of_not_isFinite hx)

/-! ### Compiled programs -/

def Value.float? : Value → Option Float
  | .float x => some x
  | _ => none

def Ast.CompilationUnit.floats (unit : Ast.CompilationUnit) : List Float := unit.literals.filterMap Value.float?

theorem Program.floats_eq (p : Program) : p.floats = p.literals.filterMap Value.float? := by
  have hop (op : Op) : op.float? = op.literal?.bind Value.float? := by
    cases op with
    | const v => cases v <;> rfl
    | _ => rfl
  have hfunction (f : FunctionCode) : f.floats = f.literals.filterMap Value.float? := by
    rw [FunctionCode.floats, FunctionCode.literals, List.filterMap_filterMap]
    exact List.filterMap_congr fun op _ => hop op
  rw [Program.floats, Program.literals, List.filterMap_flatMap]
  exact List.flatMap_congr fun f _ => hfunction f

/-- The constants of a compiled program are the literals of its source.  The program is read back from its file exactly
if all floating-point numbers among them are finite, and if one is not, the file is refused. -/
theorem programs_read_back_iff {file : SourceFile} {o : Options} {c : Compilation} {p : Program}
    (h : compile file o = .ok c) (hp : c.program = some p) (hcounts : ∀ n ∈ p.counts, n ≤ 2 ^ 64 - 1)
    (hreal : ∀ x ∈ p.floats, x.isFinite = true → Reader.real.run (Decimal.interchange.text x) = .ok x) :
    ∃ unit, Ast.parse file = .ok unit ∧ p.literals.Perm unit.literals ∧
      (Program.ofFileText p.fileText = .ok p ↔ ∀ x ∈ unit.floats, x.isFinite = true) ∧
      ((∃ x ∈ unit.floats, x.isFinite = false) →
        Program.ofFileText p.fileText = .error (.wrongType .null "f64")) := by
  obtain ⟨unit, hparse, hperm⟩ := Compile.literals_perm h hp
  have hfinite : p.floats.all Float.isFinite = true ↔ ∀ x ∈ unit.floats, x.isFinite = true := by
    rw [Program.floats_eq, (hperm.filterMap _).all_eq, List.all_eq_true]
    rfl
  rw [Program.ofFileText_eq_ite hcounts hreal]
  refine ⟨unit, hparse, hperm, ?_, ?_⟩
  · rw [← hfinite]
    split_ifs with hall <;> simp [hall]
  · rintro ⟨x, hx, hnot⟩
    refine if_neg fun hall => ?_
    rw [hfinite.mp hall x hx] at hnot
    cases hnot

/-! ### Instances -/

def printing (number : String) : SourceFile :=
  ⟨"printing", "printing", "module m function main=||\x7blet x=0.1 print(x," ++ number ++ ")\x7d"⟩

def isPrinting : Ast.CompilationUnit → Bool
  | ⟨_, "m", [.mk (.function "main" []) _ [.mk .block _ [
      .mk (.letDecl "x") _ [.mk (.float _) _ []],
      .mk (.call "print") _ [.mk (.identifier "x") _ [], .mk (.float _) _ []]]]], _⟩ => true
  | _ => false

def prints (number : String) (xs : List Float) : Bool :=
  match Ast.parse (printing number) with
  | .ok unit => isPrinting unit && unit.floats = xs
  | .error _ => false

def Grammar.Outcome.passes (test : Parse → Bool) : Outcome × Attempts → Bool
  | (.matched _ (p :: _), _) => test p
  | _ => false

variable {number : String} {xs : List Float}

theorem prints_of_run {cs : List Char} (hcs : (printing number).content.toList = cs)
    (hblank : cs.all Text.isBlank = false) (h : Grammar.Outcome.passes (fun p => match Ast.unitOf "printing" p
    with | .ok unit => isPrinting unit && unit.floats = xs | .error _ => false) (Grammar.Pattern.run
    (Grammar.fuelFor cs.length) (.rule .compilationUnit) {} { rest := cs } {}) = true) :
    prints number xs = true := by
  have hempty : (printing number).isEmpty = false := by rw [SourceFile.isEmpty, hcs, hblank]
  simp only [prints, Ast.parse, hempty, Bool.false_eq_true, if_false, Grammar.parse, Grammar.Cursor.ofText, hcs]
  generalize Grammar.Pattern.run _ _ _ _ _ = outcome at h ⊢
  unfold Grammar.Outcome.passes at h
  split at h
  · exact h
  · cases h

theorem exists_program_of_prints (h : prints number xs = true) :
    ∃ c p, compile (printing number) {} = .ok c ∧ c.program = some p ∧ p.floats.Perm xs ∧
      ∀ n ∈ p.counts, n ≤ 2 ^ 64 - 1 := by
  unfold prints at h
  split at h
  · rename_i unit hparse
    simp only [Bool.and_eq_true, decide_eq_true_eq] at h
    obtain ⟨hshape, rfl⟩ := h
    have hcompiled : (match compile (printing number) {} with
        | .ok c => c.program.any fun p => ∀ n ∈ p.counts, n ≤ 2 ^ 64 - 1
        | .error _ => false) = true := by
      simp only [compile, Compile.source, Compile.parse, hparse]
      clear hparse
      unfold isPrinting at hshape
      split at hshape
      · cbv
      · cases hshape
    split at hcompiled
    · rename_i c hc
      obtain ⟨p, hp, hcounts⟩ := (Option.any_eq_true _ _).mp hcompiled
      obtain ⟨unit', hparse', hperm⟩ := Compile.literals_perm hc hp
      cases hparse.symm.trans hparse'
      exact ⟨c, p, hc, hp, p.floats_eq ▸ hperm.filterMap _, of_decide_eq_true hcounts⟩
    · cases hcompiled
  · cases h

def comesBack (x : Float) : Bool :=
  match Reader.real.run (Decimal.interchange.text x) with
  | .ok y => y = x
  | .error _ => false

theorem run_of_comesBack (h : comesBack x = true) : Reader.real.run (Decimal.interchange.text x) = .ok x := by
  unfold comesBack at h
  split at h
  · rename_i y hy
    rw [hy, of_decide_eq_true h]
  · cases h

/-- A number that no binary fraction equals, and one that files write with an exponent. -/
theorem fractions_read_back :
    ∃ c p, compile (printing "100000000000000000000.0") {} = .ok c ∧ c.program = some p ∧
      p.floats.Perm [Decimal.scaled 1 (-1), Decimal.scaled 1 20] ∧ (∀ n ∈ p.counts, n ≤ 2 ^ 64 - 1) ∧
      Program.ofFileText p.fileText = .ok p := by
  have hprints : prints "100000000000000000000.0" [Decimal.scaled 1 (-1), Decimal.scaled 1 20] = true := by
    decide +kernel
  have hback : ∀ x ∈ [Decimal.scaled 1 (-1), Decimal.scaled 1 20], x.isFinite = true ∧ comesBack x = true := by
    decide +kernel
  obtain ⟨c, p, hc, hp, hfloats, hcounts⟩ := exists_program_of_prints hprints
  obtain ⟨unit, hparse, hperm, hiff, -⟩ := programs_read_back_iff hc hp hcounts
    fun x hx _ => run_of_comesBack (hback x (hfloats.mem_iff.mp hx)).2
  have hunit : unit.floats.Perm p.floats := p.floats_eq ▸ (hperm.filterMap _).symm
  refine ⟨c, p, hc, hp, hfloats, hcounts, hiff.mpr fun x hx => ?_⟩
  exact (hback x (hfloats.mem_iff.mp (hunit.mem_iff.mp hx))).1

/-- A literal out of range is accepted, and makes a program file that is refused. -/
theorem overflowing_not_read_back :
    ∃ c p, compile (printing ("1" ++ Decimal.zeros 309 ++ ".0")) {} = .ok c ∧ c.program = some p ∧
      Program.ofFileText p.fileText = .error (.wrongType .null "f64") := by
  have hcs : (printing ("1" ++ Decimal.zeros 309 ++ ".0")).content.toList =
      "module m function main=||\x7blet x=0.1 print(x,".toList ++
        ("1".toList ++ List.replicate 309 '0' ++ ".0".toList) ++ ")\x7d".toList := by
    simp only [printing, Decimal.zeros, String.toList_append, String.toList_ofList]
  have hprints : prints ("1" ++ Decimal.zeros 309 ++ ".0") [Decimal.scaled 1 (-1), Decimal.scaled 1 309] = true :=
    prints_of_run hcs (by decide +kernel) (by decide +kernel)
  have hback : ∀ x ∈ [Decimal.scaled 1 (-1), Decimal.scaled 1 309], x.isFinite = true → comesBack x = true := by
    decide +kernel
  obtain ⟨c, p, hc, hp, hfloats, hcounts⟩ := exists_program_of_prints hprints
  have hinfinite : [Decimal.scaled 1 (-1), Decimal.scaled 1 309].all Float.isFinite = false := by decide +kernel
  refine ⟨c, p, hc, hp, ?_⟩
  rw [Program.ofFileText_eq_ite hcounts fun x hx hx' => run_of_comesBack (hback x (hfloats.mem_iff.mp hx) hx'),
    hfloats.all_eq, hinfinite]
  exact if_neg Bool.false_ne_true

end Clausal
