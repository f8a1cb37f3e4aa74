import Clausal.Proofs.Tree.Replacement

/-! # Marks keep ownership

What an analysis finds out is recorded on the elements: the slot of a name, the target of a call, the captures
of a function, the slots from which a closure takes them.  The four are cases of one edit, `record`, with a
`Mark`. -/

namespace Clausal

/-- What can be recorded on an element without touching the shape of the tree. -/
inductive Mark where
  | binding (b : Binding)
  | target (c : CallTarget)
  | captures (names : List String)
  | closureBindings (bs : List Binding)

namespace Mark

def word : Mark → String
  | binding _ => "binding"
  | target _ => "call target"
  | captures _ => "captures"
  | closureBindings _ => "closure bindings"

def change : Mark → Kind → Option Kind
  | binding b, .reference name _ => some (.reference name (some b))
  | binding b, .assignment name declaration value _ initializer =>
    some (.assignment name declaration value (some b) initializer)
  | target c, .invocation name arguments _ => some (.invocation name arguments (some c))
  | captures names, .function name params body isClosure _ =>
    some (.function name params body isClosure names)
  | closureBindings bs, .closure function _ => some (.closure function bs)
  | _, _ => none

variable {a : Mark} {k k' : Kind}

theorem change_slots (h : a.change k = some k') : k'.slots = k.slots := by
  unfold change at h
  split at h <;> cases h <;> rfl

theorem change_accepts (h : a.change k = some k') (role : Role) : role.accepts k' = role.accepts k := by
  unfold change at h
  split at h <;> cases h <;> cases role <;> rfl

end Mark

namespace Tree

variable {t t' : Tree} {id : ElementId}

theorem annotate_eq_ok_iff {what : String} {change : Kind → Option Kind} :
    t.annotate id what change = .ok t' ↔
      ∃ k k', t.kind? id = some k ∧ change k = some k' ∧ t' = t.setKind id k' := by
  unfold annotate get kind?
  cases he : t.element? id with
  | none => simp [bind, Except.bind]
  | some e =>
    cases hc : change e.kind with
    | none => simp [bind, Except.bind, hc]
    | some k' => simp [bind, Except.bind, pure, Except.pure, hc, eq_comm]

def record (t : Tree) (id : ElementId) (a : Mark) : Except Fault Tree :=
  t.annotate id a.word a.change

theorem bindReference_eq (id : ElementId) (b : Binding) :
    t.bindReference id b = t.record id (.binding b) := by
  unfold bindReference record
  congr 1
  funext k
  cases k <;> rfl

theorem setCallTarget_eq (id : ElementId) (c : CallTarget) :
    t.setCallTarget id c = t.record id (.target c) := by
  unfold setCallTarget record
  congr 1
  funext k
  cases k <;> rfl

theorem setCaptures_eq (id : ElementId) (names : List String) :
    t.setCaptures id names = t.record id (.captures names) := by
  unfold setCaptures record
  congr 1
  funext k
  cases k <;> rfl

theorem setClosureBindings_eq (id : ElementId) (bs : List Binding) :
    t.setClosureBindings id bs = t.record id (.closureBindings bs) := by
  unfold setClosureBindings record
  congr 1
  funext k
  cases k <;> rfl

theorem Owned.record (h : t.Owned) {a : Mark} (ha : t.record id a = .ok t') : t'.Owned := by
  obtain ⟨k, k', hk, hchange, rfl⟩ := annotate_eq_ok_iff.mp ha
  exact h.setKind hk (Mark.change_slots hchange) (Mark.change_accepts hchange)

def recordAll (t : Tree) (as : List (ElementId × Mark)) : Except Fault Tree :=
  as.foldlM (fun t p => t.record p.1 p.2) t

theorem recordAll_cons (p : ElementId × Mark) (as : List (ElementId × Mark)) :
    t.recordAll (p :: as) = (do (← t.record p.1 p.2).recordAll as) := by
  simp [recordAll]

theorem recordAll_append (as bs : List (ElementId × Mark)) :
    t.recordAll (as ++ bs) = (do (← t.recordAll as).recordAll bs) := by
  simp [recordAll]


end Tree

end Clausal
