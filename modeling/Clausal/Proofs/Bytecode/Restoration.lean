import Clausal.Bytecode.Exchange
import Clausal.Proofs.Json.Readers

/-! # Program files are read back

A program is written to a file and read from it part by part: every constant, operation and function is read
as it was written, and only floating-point constants depend on what their own text says. -/

namespace Clausal

open List FunctionCode Json

/-! ### The numbers of a program -/

def Op.float? : Op → Option Float
  | .const (.float f) => some f
  | _ => none

def Op.counts : Op → List Nat
  | .jump target | .brTrue target | .brFalse target => [target]
  | .call _ argc | .callBuiltin _ argc | .callClosure _ argc => [argc]
  | _ => []

def FunctionCode.floats (f : FunctionCode) : List Float := f.code.filterMap Op.float?

def FunctionCode.counts (f : FunctionCode) : List Nat := f.arity :: f.captures :: f.locals :: f.code.flatMap Op.counts

def Program.floats (p : Program) : List Float := p.functions.flatMap FunctionCode.floats

def Program.counts (p : Program) : List Nat := p.functions.flatMap FunctionCode.counts

/-! ### What is read for a part -/

section
variable (real : Float → Except Json.Fault Float)

/-- A constant as it is read back, given what is read for floating-point numbers. -/
def Value.restored : Value → Except Json.Fault Value
  | .float f => .float <$> real f
  | v => .ok v

def Op.restored : Op → Except Json.Fault Op
  | .const v => .const <$> v.restored real
  | op => .ok op

def FunctionCode.restored (f : FunctionCode) : Except Json.Fault FunctionCode :=
  (fun code => { f with code }) <$> f.code.mapM (Op.restored real)

def Program.restored (p : Program) : Except Json.Fault Program :=
  (fun functions => { p with functions }) <$> p.functions.mapM (FunctionCode.restored real)

end

theorem mapM_eq_ok_self_iff {α : Type} {f : α → Except Json.Fault α} {as : List α} :
    as.mapM f = .ok as ↔ ∀ a ∈ as, f a = .ok a := by
  induction as with
  | nil => exact iff_of_true rfl nofun
  | cons a as ih =>
    rw [mapM_cons, forall_mem_cons, ← ih]
    constructor
    · intro h
      obtain ⟨b, hb, h⟩ := bind_eq_ok_iff.1 h
      obtain ⟨bs, hbs, h⟩ := bind_eq_ok_iff.1 h
      cases h
      exact ⟨hb, hbs⟩
    · rintro ⟨ha, has⟩
      rw [ha, has]
      rfl

section
variable {real : Float → Except Json.Fault Float}

theorem map_eq_ok_iff {α β : Type} {f : α → β} {x : Except Json.Fault α} {b : β} :
    f <$> x = .ok b ↔ ∃ a, x = .ok a ∧ f a = b := by
  cases x with
  | ok a =>
    refine ⟨fun h => ⟨a, rfl, Except.ok.inj h⟩, ?_⟩
    rintro ⟨a, ⟨⟩, rfl⟩
    rfl
  | error fault => exact iff_of_false nofun nofun

theorem Op.restored_eq_ok_iff {op : Op} : op.restored real = .ok op ↔ ∀ f ∈ op.float?, real f = .ok f := by
  cases op with
  | const v =>
    cases v with
    | float f => simp [Op.restored, Value.restored, Op.float?, map_eq_ok_iff]
    | _ => exact iff_of_true rfl nofun
  | _ => exact iff_of_true rfl nofun

theorem FunctionCode.restored_eq_ok_iff {f : FunctionCode} :
    f.restored real = .ok f ↔ ∀ x ∈ f.floats, real x = .ok x := by
  have hcode : f.restored real = .ok f ↔ f.code.mapM (Op.restored real) = .ok f.code := by
    refine map_eq_ok_iff.trans ⟨?_, fun h => ⟨f.code, h, rfl⟩⟩
    rintro ⟨code, hcode, hf⟩
    rw [hcode, congrArg FunctionCode.code hf.symm]
  rw [hcode, mapM_eq_ok_self_iff]
  simp only [Op.restored_eq_ok_iff, FunctionCode.floats, forall_mem_filterMap]
  rfl

theorem Program.restored_eq_ok_iff {p : Program} : p.restored real = .ok p ↔ ∀ x ∈ p.floats, real x = .ok x := by
  have hfunctions : p.restored real = .ok p ↔ p.functions.mapM (FunctionCode.restored real) = .ok p.functions := by
    refine map_eq_ok_iff.trans ⟨?_, fun h => ⟨p.functions, h, rfl⟩⟩
    rintro ⟨functions, hfunctions, hp⟩
    rw [hfunctions, congrArg Program.functions hp.symm]
  rw [hfunctions, mapM_eq_ok_self_iff]
  simp only [FunctionCode.restored_eq_ok_iff, Program.floats, forall_mem_flatMap]

end

/-! ### Reading what was written -/

section
variable {real : Float → Except Json.Fault Float}

theorem reads_text (s : String) : Reads Program.textReader (.str s) (.ok s) :=
  fun _ => takes_string "a string" s

theorem reads_count {n : Nat} (h : n ≤ 2 ^ 64 - 1) : Reads Program.countReader (.int n) (.ok n) :=
  fun _ => takes_natural "usize" h le_rfl

theorem reads_slot (slot : UInt16) : Reads Program.slotReader (slotDocument slot) (.ok slot) := by
  intro level
  have hslot : slot.toNat ≤ 2 ^ 16 - 1 := Nat.le_pred_of_lt slot.toNat_lt
  refine (takes_natural "u16" hslot (by decide)).bind_ok fun i => ?_
  exact congrArg (EStateM.Result.ok · i) slot.ofNat_toNat

theorem reads_value (v : Value) (hreal : ∀ f, v = .float f → Reads Reader.real (.float f) (real f)) :
    Reads Value.reader v.document (v.restored real) := by
  cases v with
  | int v =>
    have hv : Reads Reader.integer (.int v.toInt) (.ok v) := fun _ => takes_integer v
    exact reads_variant "Int" rfl (hv.map Value.int)
  | float f => exact reads_variant "Float" rfl ((hreal f rfl).map Value.float)
  | bool v =>
    have hv : Reads Reader.boolean (.bool v) (.ok v) := fun _ => takes_boolean v
    exact reads_variant "Bool" rfl (hv.map Value.bool)
  | str v => exact reads_variant "Str" rfl ((reads_text v).map Value.str)
  | null => exact reads_variant_nothing "Null" rfl

theorem reads_op {op : Op} (hcounts : ∀ n ∈ op.counts, n ≤ 2 ^ 64 - 1)
    (hreal : ∀ f ∈ op.float?, Reads Reader.real (.float f) (real f)) : Reads Op.reader op.document (op.restored real) := by
  cases op with
  | const v =>
    refine reads_variant "Const" rfl (reads_record₁ "value" Op.const (reads_value v ?_))
    rintro f rfl
    exact hreal f rfl
  | load slot => exact reads_variant "Load" rfl (reads_record₁ "slot" Op.load (reads_slot slot))
  | store slot => exact reads_variant "Store" rfl (reads_record₁ "slot" Op.store (reads_slot slot))
  | jump target =>
    have htarget := reads_count (hcounts target (.head _))
    exact reads_variant "Jump" rfl (reads_record₁ "target" Op.jump htarget)
  | brTrue target =>
    have htarget := reads_count (hcounts target (.head _))
    exact reads_variant "BrTrue" rfl (reads_record₁ "target" Op.brTrue htarget)
  | brFalse target =>
    have htarget := reads_count (hcounts target (.head _))
    exact reads_variant "BrFalse" rfl (reads_record₁ "target" Op.brFalse htarget)
  | call function argc =>
    have hargc := reads_count (hcounts argc (.head _))
    exact reads_variant "Call" rfl
      (reads_record₂ (by decide) Op.call (reads_text function) hargc)
  | callBuiltin name argc =>
    have hargc := reads_count (hcounts argc (.head _))
    exact reads_variant "CallBuiltin" rfl
      (reads_record₂ (by decide) Op.callBuiltin (reads_text name) hargc)
  | callClosure slot argc =>
    have hargc := reads_count (hcounts argc (.head _))
    exact reads_variant "CallClosure" rfl
      (reads_record₂ (by decide) Op.callClosure (reads_slot slot) hargc)
  | makeClosure function captures =>
    have hcaptures := reads_list "a sequence" fun slot (_ : slot ∈ captures) => reads_slot slot
    rw [mapM_eq_ok_self_iff.2 fun _ _ => rfl] at hcaptures
    exact reads_variant "MakeClosure" rfl
      (reads_record₂ (by decide) Op.makeClosure (reads_text function) hcaptures)
  | _ => exact reads_variant_nothing _ rfl

theorem reads_function {f : FunctionCode} (hcounts : ∀ n ∈ f.counts, n ≤ 2 ^ 64 - 1)
    (hreal : ∀ x ∈ f.floats, Reads Reader.real (.float x) (real x)) :
    Reads reader f.document (f.restored real) := by
  obtain ⟨name, arity, captures, locals, code⟩ := f
  have hcode : Reads (.list "a sequence" Op.reader) (.arr (code.map Op.document)) (code.mapM (Op.restored real)) := by
    refine reads_list "a sequence" fun op hop => reads_op (fun n hn => hcounts n ?_) fun x hx => hreal x ?_
    · exact .tail _ (.tail _ (.tail _ (mem_flatMap.2 ⟨op, hop, hn⟩)))
    · exact mem_filterMap.2 ⟨op, hop, hx⟩
  have harity := reads_count (hcounts arity (by simp [FunctionCode.counts]))
  have hcaptures := reads_count (hcounts captures (by simp [FunctionCode.counts]))
  have hlocals := reads_count (hcounts locals (by simp [FunctionCode.counts]))
  have hfills : Fills fields {}
      [("name", .str name), ("arity", .int arity), ("captures", .int captures), ("locals", .int locals),
        ("code", .arr (code.map Op.document))]
      ((fun code => ⟨some name, some arity, some captures, some locals, some code⟩) <$> code.mapM (Op.restored real)) := by
    refine .cons_ok rfl rfl ((reads_text name).map fun name => FunctionCode.Given.mk (some name) none none none none) ?_
    refine .cons_ok rfl rfl (harity.map fun arity => FunctionCode.Given.mk (some name) (some arity) none none none) ?_
    refine .cons_ok rfl rfl
      (hcaptures.map fun captures => FunctionCode.Given.mk (some name) (some arity) (some captures) none none) ?_
    refine .cons_ok rfl rfl
      (hlocals.map fun locals => FunctionCode.Given.mk (some name) (some arity) (some captures) (some locals) none) ?_
    exact .last _ rfl rfl
      (hcode.map fun code => FunctionCode.Given.mk (some name) (some arity) (some captures) (some locals) (some code))
  have hread := reads_record "struct FunctionCode" ofGiven hfills
  rw [FunctionCode.restored]
  cases hread' : code.mapM (Op.restored real) with
  | ok _ | error _ =>
    rw [hread'] at hread
    exact hread

theorem reads_program {p : Program} (hcounts : ∀ n ∈ p.counts, n ≤ 2 ^ 64 - 1)
    (hreal : ∀ x ∈ p.floats, Reads Reader.real (.float x) (real x)) :
    Reads Program.reader p.document (p.restored real) := by
  have hfunctions := reads_list "a sequence" fun f (hf : f ∈ p.functions) =>
    reads_function (fun n hn => hcounts n (mem_flatMap.2 ⟨f, hf, hn⟩))
      fun x hx => hreal x (mem_flatMap.2 ⟨f, hf, hx⟩)
  exact reads_record₂ (by decide) Program.mk (reads_text p.module) hfunctions

end

theorem Program.ofFileText_fileText (real : Float → Except Json.Fault Float) {p : Program}
    (hcounts : ∀ n ∈ p.counts, n ≤ 2 ^ 64 - 1) (hreal : ∀ x ∈ p.floats, Reads Reader.real (.float x) (real x)) :
    Program.ofFileText p.fileText = p.restored real :=
  run_pretty (reads_program hcounts hreal)

/-- A program without floating-point constants is read back from its file, whatever its names and texts are. -/
theorem Program.ofFileText_eq_of_floats_eq_nil (p : Program) (hcounts : ∀ n ∈ p.counts, n ≤ 2 ^ 64 - 1)
    (hfloats : p.floats = []) : Program.ofFileText p.fileText = .ok p := by
  have hnone : ∀ x, x ∉ p.floats := fun x => hfloats ▸ List.not_mem_nil
  rw [Program.ofFileText_fileText .ok hcounts fun x hx => absurd hx (hnone x)]
  exact Program.restored_eq_ok_iff.2 fun _ _ => rfl

/-- Marks, a backslash and a control character in names, the ends of the 64-bit range, and a branch as far as it can go. -/
theorem Program.ofFileText_eq_of_floats_eq_nil_extremes :
    let p : Program := ⟨"a\"b\\c", [⟨"main\n", 0, 2, 3,
      [.const (.int (-9223372036854775808)), .const (.str "\x01\t"), .const .null, .const (.bool true),
        .jump (2 ^ 64 - 1), .makeClosure "f" [0, 65535], .makeClosure "" [], .callClosure 1 7, .dup, .ret]⟩,
      ⟨"", 2 ^ 64 - 1, 0, 0, []⟩]⟩
    (∀ n ∈ p.counts, n ≤ 2 ^ 64 - 1) ∧ p.floats = [] ∧ Program.ofFileText p.fileText = .ok p :=
  ⟨by decide, rfl, Program.ofFileText_eq_of_floats_eq_nil _ (by decide) rfl⟩

end Clausal
