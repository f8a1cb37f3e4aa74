import Clausal.Bytecode.Assembler
import Clausal.Proofs.Tree.Lookup
import Mathlib.Order.Bounds.Basic

/-! # Labels put in place

What is written with labels comes out with places: `finish_run` says for every sequence of calls when a
function can be finished, at which branch it fails otherwise, and what its code is.  A branch goes to where
its label was marked last, and everything else is as it was written. -/

namespace Clausal

open List

/-! ### The size of a frame -/

namespace FunctionCode

variable {code : List Op}

theorem frameSize_le {arity captures m : Nat} (hinit : arity + captures ≤ m)
    (h : ∀ op ∈ code, ∀ s, op.slot? = some s → s.toNat < m) : frameSize arity captures code ≤ m := by
  unfold frameSize
  generalize arity + captures = init at hinit
  induction code generalizing init with
  | nil => exact hinit
  | cons op code ih =>
    rw [foldl_cons]
    refine ih (fun op' hop => h op' (.tail _ hop)) _ (Nat.max_le.mpr ⟨hinit, ?_⟩)
    cases hs : op.slot? with
    | none => exact Nat.zero_le _
    | some s => exact h op (.head _) s hs

theorem le_foldl_max (code : List Op) (init : Nat) :
    init ≤ code.foldl (fun size op => max size (((op.slot?).map (·.toNat + 1)).getD 0)) init := by
  induction code generalizing init with
  | nil => exact le_rfl
  | cons op code ih => exact (Nat.le_max_left ..).trans (ih _)

theorem le_frameSize (arity captures : Nat) (code : List Op) :
    arity + captures ≤ frameSize arity captures code := le_foldl_max ..

theorem lt_frameSize (arity captures : Nat) {op : Op} (hop : op ∈ code) {s : UInt16} (hs : op.slot? = some s) :
    s.toNat < frameSize arity captures code := by
  obtain ⟨before, after, rfl⟩ := append_of_mem hop
  rw [frameSize, foldl_append, foldl_cons, hs]
  exact (Nat.le_max_right ..).trans (le_foldl_max ..)

end FunctionCode

namespace Assembler

/-! ### Calls -/

/-- Labels are named after they were made, and branches are written with a label; `labels` were made
before. -/
def Allowed (labels : Nat) : List Call → Prop
  | [] => True
  | .newLabel :: rest => Allowed (labels + 1) rest
  | .mark label :: rest => label.number < labels ∧ Allowed labels rest
  | .emit op :: rest => op.branchTarget? = none ∧ Allowed labels rest
  | .branch _ label :: rest => label.number < labels ∧ Allowed labels rest

/-- An operation, or a branch whose place is not known yet. -/
inductive Line where
  | op (op : Op)
  | branch (kind : Branch) (label : Label)

def Call.line? : Call → Option Line
  | .emit op => some (.op op)
  | .branch kind label => some (.branch kind label)
  | _ => none

/-- The lines that calls write, in order. -/
def written (calls : List Call) : List Line := calls.filterMap Call.line?

/-- The line with the labels of its branch put in place: the place of a label is the number of lines before
its last mark. -/
def Placed (calls : List Call) : Line → Op → Prop
  | .op op, op' => op' = op
  | .branch kind label, op => ∃ before after, calls = before ++ .mark label :: after ∧
      .mark label ∉ after ∧ op = kind.op (written before).length

/-- The first line that branches to a label that has nothing. -/
structure FirstLacking (has : Label → Prop) (ls : List Line) (index : Nat) : Prop where
  lacks : ∃ kind label, ls[index]? = some (.branch kind label) ∧ ¬ has label
  before : ∀ i < index, ∀ kind label, ls[i]? = some (.branch kind label) → has label

/-- What a frame must have room for: the captures and arguments, and each slot up to one that is read or
written. -/
def frameNeeds (arity captures : Nat) (calls : List Call) : Set Nat :=
  {m | m = arity + captures ∨ ∃ op s, .emit op ∈ calls ∧ op.slot? = some s ∧ m = s.toNat + 1}

/-- Where labels are, as far as it is known. -/
abbrev Places := Label → Option Nat

variable {a : Assembler} {calls : List Call} {call : Call} {label : Label} {kind : Branch} {op : Op}
  {ls : List Line} {code : List Op} {p : Places}

/-! ### One call -/

theorem size_apply (a : Assembler) (call : Call) :
    (a.apply call).code.size = a.code.size + (written [call]).length := by
  cases call <;> simp [apply, written, Call.line?, newLabel, mark, emit, branch]

theorem place?_apply_of_ne (h : call ≠ .mark label) : (a.apply call).place? label = a.place? label := by
  cases call with
  | newLabel =>
    simp only [apply, newLabel, place?, Array.getElem?_push]
    split_ifs with hsize
    · rw [hsize, Array.getElem?_size]
      rfl
    · rfl
  | mark other =>
    have hne : other.number ≠ label.number := by
      rintro heq
      cases other
      cases label
      exact h (congrArg _ (congrArg _ heq))
    simp only [apply, mark, place?, Array.getElem?_modify, if_neg hne]
  | emit op => rfl
  | branch kind other => rfl

theorem place?_mark (h : label.number < a.places.size) :
    (a.mark label).place? label = some a.code.size := by
  simp only [mark, place?, Array.getElem?_modify, if_pos, Array.getElem?_eq_getElem h, Option.map_some,
    Option.join_some]

theorem Allowed.tail (h : Allowed a.places.size (call :: calls)) : Allowed (a.apply call).places.size calls := by
  cases call with
  | newLabel =>
    change Allowed (a.places.push none).size calls
    rw [Array.size_push]
    exact h
  | mark label =>
    change Allowed (a.places.modify _ _).size calls
    rw [Array.size_modify]
    exact h.2
  | emit | branch => exact h.2

/-! ### A run -/

@[simp] theorem written_append (as bs : List Call) : written (as ++ bs) = written as ++ written bs :=
  filterMap_append

@[simp] theorem written_nil : written [] = [] := rfl

@[simp] theorem written_cons (call : Call) (calls : List Call) :
    written (call :: calls) = call.line?.toList ++ written calls := by
  cases call <;> rfl

theorem mem_written {line : Line} (h : call.line? = some line) : line ∈ written calls ↔ call ∈ calls := by
  simp only [written, mem_filterMap]
  constructor
  · rintro ⟨other, hother, hline⟩
    cases call <;> cases h <;> cases other <;> cases hline <;> exact hother
  · exact fun hcall => ⟨_, hcall, h⟩

theorem exists_last_of_mem {α : Type} {x : α} {xs : List α} (h : x ∈ xs) :
    ∃ before after, xs = before ++ x :: after ∧ x ∉ after := by
  obtain ⟨after, before, heq, hafter⟩ := eq_append_cons_of_mem (mem_reverse.mpr h)
  refine ⟨before.reverse, after.reverse, ?_, by simpa using hafter⟩
  rw [← reverse_reverse xs, heq]
  simp

theorem place?_run_of_not_mem (h : .mark label ∉ calls) : (a.run calls).place? label = a.place? label := by
  induction calls generalizing a with
  | nil => rfl
  | cons call rest ih =>
    change ((a.apply call).run rest).place? label = _
    rw [ih fun hmem => h (.tail _ hmem), place?_apply_of_ne fun heq => h (heq ▸ .head _)]

/-- The last mark of a label counts. -/
theorem place?_run {before after : List Call} (hallowed : Allowed a.places.size (before ++ .mark label :: after))
    (hafter : .mark label ∉ after) :
    (a.run (before ++ .mark label :: after)).place? label = some (a.code.size + (written before).length) := by
  induction before generalizing a with
  | nil =>
    change ((a.mark label).run after).place? label = _
    rw [place?_run_of_not_mem hafter, place?_mark hallowed.1]
    rfl
  | cons call before ih =>
    change ((a.apply call).run (before ++ .mark label :: after)).place? label = _
    rw [ih hallowed.tail, size_apply, Nat.add_assoc, ← length_append, ← written_append]
    rfl

theorem isSome_place?_run (a : Assembler) (ha : a.places.size = 0) (h : Allowed 0 calls) (label : Label) :
    ((a.run calls).place? label).isSome ↔ .mark label ∈ calls := by
  constructor
  · intro hsome
    by_contra hmem
    rw [place?_run_of_not_mem hmem, place?, Array.getElem?_eq_none (ha ▸ Nat.zero_le _)] at hsome
    cases hsome
  · intro hmem
    obtain ⟨before, after, rfl, hafter⟩ := exists_last_of_mem hmem
    rw [place?_run (ha ▸ h) hafter]
    rfl

theorem run_frame (a : Assembler) (calls : List Call) :
    (a.run calls).name = a.name ∧ (a.run calls).arity = a.arity ∧ (a.run calls).captures = a.captures := by
  induction calls generalizing a with
  | nil => exact ⟨rfl, rfl, rfl⟩
  | cons call rest ih =>
    have hcall : (a.apply call).name = a.name ∧ (a.apply call).arity = a.arity ∧
        (a.apply call).captures = a.captures := by
      cases call <;> exact ⟨rfl, rfl, rfl⟩
    exact ⟨(ih _).1.trans hcall.1, (ih _).2.1.trans hcall.2.1, (ih _).2.2.trans hcall.2.2⟩

/-! ### Finishing -/

theorem FirstLacking.unique {has : Label → Prop} {i j : Nat} (hi : FirstLacking has ls i)
    (hj : FirstLacking has ls j) : i = j := by
  obtain ⟨kind, label, hline, hlacks⟩ := hi.lacks
  obtain ⟨kind', label', hline', hlacks'⟩ := hj.lacks
  rcases Nat.lt_trichotomy i j with hlt | heq | hlt
  · exact absurd (hj.before i hlt kind label hline) hlacks
  · exact heq
  · exact absurd (hi.before j hlt kind' label' hline') hlacks'

theorem FirstLacking.cons {has : Label → Prop} {line : Line} {n : Nat} (h : FirstLacking has ls n)
    (hline : ∀ kind label, line = .branch kind label → has label) : FirstLacking has (line :: ls) (n + 1) := by
  refine ⟨h.lacks, fun i hi kind label heq => ?_⟩
  cases i with
  | zero => exact hline kind label (Option.some.inj heq)
  | succ i => exact h.before i (Nat.lt_of_succ_lt_succ hi) kind label heq

/-- The operation that a line becomes, with these places of the labels. -/
def Resolves (p : Places) : Line → Op → Prop
  | .op op, op' => op' = op
  | .branch kind label, op => ∃ place, p label = some place ∧ op = kind.op place

theorem rightUnique_resolves : Relator.RightUnique (Resolves p) := by
  intro line op op' h h'
  cases line with
  | op => exact h.trans h'.symm
  | branch kind label =>
    obtain ⟨place, hplace, rfl⟩ := h
    obtain ⟨place', hplace', rfl⟩ := h'
    rw [Option.some.inj (hplace.symm.trans hplace')]

theorem isSome_of_resolves (h : Forall₂ (Resolves p) ls code) (hmem : .branch kind label ∈ ls) :
    (p label).isSome := by
  obtain ⟨op, -, place, hplace, -⟩ := exists_of_mem_left h hmem
  exact Option.isSome_of_eq_some hplace

/-- The operation that is written for a line at first. -/
def Line.blank : Line → Op
  | .op op => op
  | .branch kind _ => kind.op placeholder

/-- The branches of lines that start at an index. -/
def fixupsFrom (index : Nat) : List Line → List (Nat × Label)
  | [] => []
  | .op _ :: rest => fixupsFrom (index + 1) rest
  | .branch _ label :: rest => (index, label) :: fixupsFrom (index + 1) rest

theorem fixupsFrom_append (ls ms : List Line) (index : Nat) :
    fixupsFrom index (ls ++ ms) = fixupsFrom index ls ++ fixupsFrom (index + ls.length) ms := by
  induction ls generalizing index with
  | nil => rfl
  | cons line ls ih =>
    cases line <;> simp [fixupsFrom, ih, Nat.add_assoc, Nat.add_comm 1]

/-- The assembler was given these lines. -/
structure Holds (a : Assembler) (ls : List Line) : Prop where
  code : a.code.toList = ls.map Line.blank
  fixups : a.fixups.toList = fixupsFrom 0 ls
  frame : a.frame = FunctionCode.frameSize a.arity a.captures (ls.map Line.blank)

theorem slot?_branch (kind : Branch) (place : Nat) : (kind.op place).slot? = none := by
  cases kind <;> rfl

theorem Holds.apply (h : a.Holds ls) (call : Call) : (a.apply call).Holds (ls ++ written [call]) := by
  cases call with
  | newLabel | mark =>
    show Holds _ (ls ++ [])
    rw [append_nil]
    exact ⟨h.code, h.fixups, h.frame⟩
  | emit op =>
    refine ⟨?_, ?_, ?_⟩
    · simp [Assembler.apply, emit, h.code, written, Call.line?, Line.blank]
    · simp [Assembler.apply, emit, h.fixups, written, Call.line?, fixupsFrom_append, fixupsFrom]
    · rw [map_append, FunctionCode.frameSize, foldl_append, ← FunctionCode.frameSize]
      exact congrArg (max · _) h.frame
  | branch kind label =>
    have hsize : a.code.size = ls.length := by rw [← Array.length_toList, h.code, length_map]
    refine ⟨?_, ?_, ?_⟩
    · simp [Assembler.apply, branch, h.code, written, Call.line?, Line.blank]
    · simp [Assembler.apply, branch, h.fixups, hsize, written, Call.line?, fixupsFrom_append, fixupsFrom]
    · rw [map_append, FunctionCode.frameSize, foldl_append, ← FunctionCode.frameSize]
      simp only [written, filterMap_cons, Call.line?, filterMap_nil, map_cons, map_nil, foldl_cons, foldl_nil, Line.blank,
        slot?_branch, Option.map_none, Option.getD_none, Nat.max_zero]
      exact h.frame

theorem Holds.run (h : a.Holds ls) (calls : List Call) : (a.run calls).Holds (ls ++ written calls) := by
  induction calls generalizing a ls with
  | nil =>
    show a.Holds (ls ++ [])
    rwa [append_nil]
  | cons call rest ih =>
    show ((a.apply call).run rest).Holds _
    have hrest := ih (h.apply call)
    rwa [append_assoc, ← written_append] at hrest

theorem retarget?_branch (kind : Branch) (place place' : Nat) :
    (kind.op place').retarget? place = some (kind.op place) := by
  cases kind <;> rfl

/-- Patching goes from the left, where `before` is in place already.  Lines become operations, up to the first
branch to a label without a place. -/
theorem foldlM_patch (before : List Op) {code : Array Op} (hcode : code.toList = before ++ ls.map Line.blank) :
    (∃ ops, (fixupsFrom before.length ls).foldlM a.patch code = .ok (before ++ ops).toArray ∧
      Forall₂ (Resolves a.place?) ls ops) ∨
    ∃ n, (fixupsFrom before.length ls).foldlM a.patch code = .error (before.length + n) ∧
      FirstLacking (fun l => (a.place? l).isSome) ls n := by
  induction ls generalizing before code with
  | nil =>
    rw [map_nil, append_nil] at hcode
    refine .inl ⟨[], ?_, .nil⟩
    rw [append_nil, ← hcode]
    rfl
  | cons line ls ih =>
    -- a line with an operation goes in front of what becomes of the rest
    have hcons (op : Op) (hop : Resolves a.place? line op) {code : Array Op}
        (hcode : code.toList = before ++ op :: ls.map Line.blank) :
        (∃ ops, (fixupsFrom (before.length + 1) ls).foldlM a.patch code = .ok (before ++ ops).toArray ∧
          Forall₂ (Resolves a.place?) (line :: ls) ops) ∨
        ∃ n, (fixupsFrom (before.length + 1) ls).foldlM a.patch code = .error (before.length + n) ∧
          FirstLacking (fun l => (a.place? l).isSome) (line :: ls) n := by
      have hrest := @ih (before ++ [op]) code (by rw [hcode, append_assoc]; rfl)
      rw [length_append, length_singleton] at hrest
      rcases hrest with ⟨ops, hfold, hops⟩ | ⟨n, hfold, hfirst⟩
      · rw [append_assoc] at hfold
        exact .inl ⟨op :: ops, hfold, .cons hop hops⟩
      · rw [Nat.add_right_comm] at hfold
        refine .inr ⟨n + 1, hfold, hfirst.cons ?_⟩
        rintro kind label rfl
        obtain ⟨place, hplace, -⟩ := hop
        exact Option.isSome_of_eq_some hplace
    cases line with
    | op op => exact hcons op rfl hcode
    | branch kind label =>
      rw [fixupsFrom, foldlM_cons, patch]
      cases hplace : a.place? label with
      | none => exact .inr ⟨0, rfl, ⟨kind, label, rfl, by simp [hplace]⟩, fun i hi => absurd hi (Nat.not_lt_zero i)⟩
      | some place =>
        have hget : code[before.length]? = some (kind.op placeholder) := by
          rw [← Array.getElem?_toList, hcode]
          simp [Line.blank]
        simp only [hget, Option.bind_some, retarget?_branch]
        refine hcons (kind.op place) ⟨place, hplace, rfl⟩ ?_
        rw [Array.toList_setIfInBounds, hcode]
        simp [Line.blank]

/-- Branches have no slots, so their targets do not change the frame. -/
theorem frameSize_of_resolves (h : Forall₂ (Resolves p) ls code) (arity captures : Nat) :
    FunctionCode.frameSize arity captures (ls.map Line.blank) = FunctionCode.frameSize arity captures code := by
  unfold FunctionCode.frameSize
  generalize arity + captures = init
  induction h generalizing init with
  | nil => rfl
  | @cons line op _ _ hline _ ih =>
    have hslot : line.blank.slot? = op.slot? := by
      cases line with
      | op op' => rw [hline, Line.blank]
      | branch kind label =>
        obtain ⟨place, -, rfl⟩ := hline
        rw [Line.blank, slot?_branch, slot?_branch]
    rw [map_cons, foldl_cons, foldl_cons, hslot, ih]

theorem Holds.finish_cases (h : a.Holds ls) :
    (∃ code, a.finish = .ok (.ofCode a.name a.arity a.captures code) ∧ Forall₂ (Resolves a.place?) ls code) ∨
      ∃ n, a.finish = .error n ∧ FirstLacking (fun l => (a.place? l).isSome) ls n := by
  have hpatch := @foldlM_patch a ls [] a.code (by simpa using h.code)
  rw [length_nil, ← h.fixups] at hpatch
  rw [finish]
  rcases hpatch with ⟨ops, hfold, hops⟩ | ⟨n, hfold, hfirst⟩
  · refine .inl ⟨ops, ?_, hops⟩
    rw [hfold]
    simp [bind, Except.bind, pure, Except.pure, FunctionCode.ofCode, h.frame, frameSize_of_resolves hops]
  · rw [Nat.zero_add] at hfold
    exact .inr ⟨n, by rw [hfold]; rfl, hfirst⟩

section Fresh

variable {name : String} {arity captures : Nat}

theorem placed_of_resolves (h : Allowed 0 calls) {line : Line}
    (hline : Resolves (run { name, arity, captures } calls).place? line op) : Placed calls line op := by
  cases line with
  | op op' => exact hline
  | branch kind label =>
    obtain ⟨place, hplace, rfl⟩ := hline
    have hmem := (isSome_place?_run { name, arity, captures } rfl h label).mp (Option.isSome_of_eq_some hplace)
    obtain ⟨before, after, rfl, hafter⟩ := exists_last_of_mem hmem
    refine ⟨before, after, rfl, hafter, ?_⟩
    rw [place?_run (a := { name, arity, captures }) h hafter] at hplace
    rw [← Option.some.inj hplace]
    exact congrArg _ (Nat.zero_add _)

theorem Allowed.branchTarget? {labels : Nat} (h : Allowed labels calls) (hop : .emit op ∈ calls) :
    op.branchTarget? = none := by
  induction calls generalizing labels with
  | nil => cases hop
  | cons call rest ih =>
    cases call with
    | newLabel => exact ih h ((mem_cons.mp hop).resolve_left nofun)
    | mark | branch => exact ih h.2 ((mem_cons.mp hop).resolve_left nofun)
    | emit op' =>
      rcases mem_cons.mp hop with heq | hop
      · cases heq
        exact h.1
      · exact ih h.2 hop

theorem target_le (h : Allowed 0 calls) (hcode : Forall₂ (Placed calls) (written calls) code) (hop : op ∈ code)
    {target : Nat} (htarget : op.branchTarget? = some target) : target ≤ code.length := by
  obtain ⟨line, hline, hplaced⟩ := exists_of_mem_right hcode hop
  cases line with
  | op op' =>
    cases hplaced
    rw [h.branchTarget? ((mem_written rfl).mp hline)] at htarget
    cases htarget
  | branch kind label =>
    obtain ⟨before, after, hcalls, -, rfl⟩ := hplaced
    have hbefore : (written before).length ≤ (written calls).length := by
      rw [hcalls, written_append, length_append]
      exact Nat.le_add_right ..
    rw [hcode.length_eq] at hbefore
    cases kind <;> cases htarget <;> exact hbefore

/-- The slots written or read are those of the operations given to `emit`. -/
theorem slot?_of_placed (hcode : Forall₂ (Placed calls) (written calls) code) {s : UInt16} :
    (∃ op ∈ code, op.slot? = some s) ↔ ∃ op, .emit op ∈ calls ∧ op.slot? = some s := by
  constructor
  · rintro ⟨op, hop, hs⟩
    obtain ⟨line, hline, hplaced⟩ := exists_of_mem_right hcode hop
    cases line with
    | op op' =>
      cases hplaced
      exact ⟨op, (mem_written rfl).mp hline, hs⟩
    | branch kind label =>
      obtain ⟨before, after, -, -, rfl⟩ := hplaced
      cases kind <;> cases hs
  · rintro ⟨op, hop, hs⟩
    obtain ⟨op', hop', hplaced⟩ := exists_of_mem_left hcode ((mem_written rfl).mpr hop)
    cases hplaced
    exact ⟨op, hop', hs⟩

/-- A frame is as large as the arguments and the highest slot make it. -/
theorem locals_isGreatest (hcode : Forall₂ (Placed calls) (written calls) code) :
    IsGreatest (frameNeeds arity captures calls) (FunctionCode.frameSize arity captures code) := by
  have hbound : ∀ m ∈ frameNeeds arity captures calls,
      m ≤ FunctionCode.frameSize arity captures code := by
    rintro m (rfl | ⟨op, s, hop, hs, rfl⟩)
    · exact FunctionCode.le_frameSize ..
    · obtain ⟨op', hop', hs'⟩ := (slot?_of_placed hcode).mpr ⟨op, hop, hs⟩
      exact FunctionCode.lt_frameSize arity captures hop' hs'
  refine ⟨?_, hbound⟩
  -- otherwise one slot less would be enough
  by_contra hnot
  have hless : ∀ m ∈ frameNeeds arity captures calls,
      m < FunctionCode.frameSize arity captures code := fun m hm =>
    Nat.lt_of_le_of_ne (hbound m hm) fun heq => hnot (heq ▸ hm)
  have hargs := hless _ (.inl rfl)
  have hle : FunctionCode.frameSize arity captures code ≤ FunctionCode.frameSize arity captures code - 1 := by
    refine FunctionCode.frameSize_le (Nat.le_sub_one_of_lt hargs) fun op hop s hs => ?_
    obtain ⟨op', hop', hs'⟩ := (slot?_of_placed hcode).mp ⟨op, hop, hs⟩
    exact Nat.lt_sub_of_add_lt (hless _ (.inr ⟨op', s, hop', hs', rfl⟩))
  omega

/-- A function can be finished exactly if every label that is branched to was marked, and otherwise the first
branch whose label was not is named.  What is finished has the lines in order, with branches to the places of
their labels, and a frame that is just large enough. -/
theorem finish_run (name : String) (arity captures : Nat) (calls : List Call) (h : Allowed 0 calls) :
    ((∃ f, (run { name, arity, captures } calls).finish = .ok f) ↔
      ∀ kind label, .branch kind label ∈ calls → .mark label ∈ calls) ∧
    (∀ index, (run { name, arity, captures } calls).finish = .error index ↔
      FirstLacking (fun label => .mark label ∈ calls) (written calls) index) ∧
    ∀ f, (run { name, arity, captures } calls).finish = .ok f →
      f.name = name ∧ f.arity = arity ∧ f.captures = captures ∧
      Forall₂ (Placed calls) (written calls) f.code ∧
      (∀ op ∈ f.code, ∀ target, op.branchTarget? = some target → target ≤ f.code.length) ∧
      IsGreatest (frameNeeds arity captures calls) f.locals := by
  have hhas : (fun l => (((run { name, arity, captures } calls).place? l).isSome : Prop)) =
      fun label => .mark label ∈ calls :=
    funext fun l => propext (isSome_place?_run { name, arity, captures } rfl h l)
  obtain ⟨hname, harity, hcaptures⟩ := run_frame { name, arity, captures } calls
  have hstart : Holds { name, arity, captures } [] := ⟨rfl, rfl, rfl⟩
  have hholds : Holds (run { name, arity, captures } calls) (written calls) := hstart.run calls
  rcases hholds.finish_cases with ⟨code, hcode, hrows⟩ | ⟨n, herror, hfirst⟩
  · rw [hcode, hname, harity, hcaptures]
    have hmarked : ∀ kind label, .branch kind label ∈ calls → .mark label ∈ calls := fun kind label hmem =>
      (isSome_place?_run { name, arity, captures } rfl h label).mp
        (isSome_of_resolves hrows ((mem_written rfl).mpr hmem))
    have hplaced : Forall₂ (Placed calls) (written calls) code := hrows.imp fun _ _ => placed_of_resolves h
    refine ⟨⟨fun _ => hmarked, fun _ => ⟨_, rfl⟩⟩, fun index => ⟨nofun, fun hfirst => ?_⟩, ?_⟩
    · obtain ⟨kind, label, hline, hlacks⟩ := hfirst.lacks
      exact absurd (hmarked kind label ((mem_written rfl).mp (mem_of_getElem? hline))) hlacks
    · rintro f ⟨⟩
      exact ⟨rfl, rfl, rfl, hplaced, fun op hop target => target_le h hplaced hop, locals_isGreatest hplaced⟩
  · rw [herror]
    rw [hhas] at hfirst
    refine ⟨⟨nofun, fun hmarked => ?_⟩, fun index => ⟨?_, fun hindex => ?_⟩, nofun⟩
    · obtain ⟨kind, label, hline, hlacks⟩ := hfirst.lacks
      exact absurd (hmarked kind label ((mem_written rfl).mp (mem_of_getElem? hline))) hlacks
    · rintro ⟨⟩
      exact hfirst
    · rw [hfirst.unique hindex]

/-- A loop that branches back, and forward to a label marked twice. -/
def looping : List Call :=
  [.newLabel, .newLabel, .mark ⟨0⟩, .mark ⟨1⟩, .emit (.load 0), .branch .ifFalse ⟨1⟩, .emit (.store 2),
    .branch .always ⟨0⟩, .mark ⟨1⟩, .emit .ret]

theorem looping_finished :
    Allowed 0 looping ∧
    ∃ f, (run { name := "f", arity := 1, captures := 0 } looping).finish = .ok f ∧
      f.code = [.load 0, .brFalse 4, .store 2, .jump 0, .ret] ∧ IsGreatest (frameNeeds 1 0 looping) f.locals := by
  have hallowed : Allowed 0 looping :=
    ⟨Nat.zero_lt_two, Nat.one_lt_two, rfl, Nat.one_lt_two, rfl, Nat.zero_lt_two, Nat.one_lt_two, rfl, trivial⟩
  have hmarked : ∀ kind label, .branch kind label ∈ looping → .mark label ∈ looping := by
    intro kind label hmem
    have hlabel : kind = .ifFalse ∧ label = ⟨1⟩ ∨ kind = .always ∧ label = ⟨0⟩ := by simpa [looping] using hmem
    rcases hlabel with ⟨-, rfl⟩ | ⟨-, rfl⟩ <;> simp [looping]
  obtain ⟨hok, -, hfinished⟩ := finish_run "f" 1 0 looping hallowed
  obtain ⟨f, hf⟩ := hok.mpr hmarked
  refine ⟨hallowed, f, hf, ?_, (hfinished f hf).2.2.2.2.2⟩
  cases hf
  rfl

end Fresh

end Assembler

end Clausal
