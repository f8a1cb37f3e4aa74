import Clausal.Passes.Pipeline
import Clausal.Proofs.Tree.Editing
import Clausal.Proofs.Tree.Showing

/-! # What every pass keeps

A pass changes a tree by storing elements, by replacing them and by annotating them.  So it keeps every
property that these steps keep, also when it meets a fault (`Pass.keeps_run`).  Two such properties are
ownership and having a module for a root (`Tree.Modular`). -/

namespace Clausal

open Edit

section
variable {P : Tree → Prop}

/-! ### Match expansion -/

namespace MatchExpansion

theorem keeps_sinkValue (hP : Steady P) (sink : Sink) (value : ElementId) :
    Keeps P (sinkValue sink value) :=
  (keeps_element _).bind fun _ => (keeps_alloc hP _ _).bind fun _ =>
    (keeps_alloc hP _ _).bind fun _ => keeps_pure _

theorem keeps_moveClauses (hP : Steady P) (sink : Sink) (clauses : List ElementId) :
    Keeps P (moveClauses sink clauses) := by
  induction clauses with
  | nil => exact keeps_pure _
  | cons clause clauses ih =>
    refine keeps_tree.bind fun t => ?_
    cases t.whenParts? clause with
    | none => exact ih
    | some parts =>
      refine (keeps_element _).bind fun _ => (keeps_release hP _ _).bind fun _ =>
        (keeps_release hP _ _).bind fun _ => (keeps_sinkValue hP _ _).bind fun _ =>
        (keeps_alloc hP _ _).bind fun _ => ih.bind fun _ => keeps_pure _

theorem keeps_buildCase (hP : Steady P) (sink : Sink) (id : ElementId) (clauses : List ElementId)
    (otherwise : ElementId) : Keeps P (buildCase sink id clauses otherwise) :=
  (keeps_element _).bind fun _ => (keeps_moveClauses hP _ _).bind fun _ =>
    (keeps_release hP _ _).bind fun _ => (keeps_sinkValue hP _ _).bind fun _ =>
    (keeps_alloc hP _ _).bind fun _ => keeps_pure _

/-- A property is kept by the walk over an unfolding, and by the walk over it as the value of a
statement. -/
def KeptIn (P : Tree → Prop) (u : Unfolding) : Prop :=
  Keeps P (expandIn u) ∧ ∀ sink statement, Keeps P (expandValue sink statement u)

variable {us : List Unfolding}

theorem keeps_expandAll (hus : ∀ u ∈ us, KeptIn P u) : Keeps P (expandAll us) := by
  induction us with
  | nil => exact keeps_pure _
  | cons u us ih =>
    refine (hus u (.head _)).1.bind fun _ => ?_
    exact (ih fun v hv => hus v (.tail _ hv)).bind fun _ => keeps_pure _

theorem keeps_expandArms (hus : ∀ u ∈ us, KeptIn P u) (hinner : ∀ u ∈ us, ∀ v ∈ u.children, KeptIn P v)
    (sink : Sink) (statements : List ElementId) : Keeps P (expandArms sink statements us) := by
  induction us generalizing statements with
  | nil => cases statements <;> exact keeps_pure _
  | cons u us ih =>
    have hrest := ih (fun v hv => hus v (.tail _ hv)) fun v hv => hinner v (.tail _ hv)
    unfold expandArms
    split
    · rename_i heq
      cases heq
      have hparts := hinner _ (.head _)
      refine (hparts _ (by simp [Unfolding.children])).1.bind fun _ => ?_
      refine ((hparts _ (by simp [Unfolding.children])).2 _ _).bind fun _ => ?_
      exact (hrest _).bind fun _ => keeps_pure _
    · rename_i heq
      cases heq
      refine ((hus u (.head _)).2 _ _).bind fun _ => ?_
      exact (hrest _).bind fun _ => keeps_pure _
    · exact keeps_pure _

theorem keptIn (hP : Steady P) (u : Unfolding) : KeptIn P u := by
  induction u using Unfolding.induct₂ with
  | node id k o us hus hinner =>
    constructor
    · unfold expandIn
      split <;> rename_i heq <;> cases heq
      · split
        · exact (hus _ (by simp)).2 _ _
        · exact (hus _ (by simp)).1
      · exact keeps_expandAll hus
    · intro sink statement
      unfold expandValue
      split <;> rename_i heq <;> cases heq
      · refine keeps_tree.bind fun t => ?_
        cases t.parent statement with
        | none => exact (keeps_note _).bind fun _ => keeps_expandAll hus
        | some owner =>
          exact (keeps_buildCase hP _ _ _ _).bind fun _ => (keeps_replace hP _ _ _).bind fun _ =>
            (keeps_note _).bind fun _ => (keeps_expandArms hus hinner _ _).bind fun _ =>
            keeps_pure _
      · exact keeps_expandAll hus

theorem keeps_run (hP : Steady P) : Keeps P run := by
  refine keeps_unfoldRoot.bind fun root => ?_
  cases root with
  | none => exact keeps_pure _
  | some u => exact (keptIn hP u).1

end MatchExpansion

/-! ### Case expansion -/

namespace CaseExpansion

theorem keeps_prependClause (hP : Steady P) (first clause : ElementId) :
    Keeps P (prependClause first clause) := by
  refine keeps_tree.bind fun t => ?_
  cases t.whenParts? clause with
  | none => exact keeps_pure _
  | some parts =>
    exact (keeps_element _).bind fun _ => (keeps_release hP _ _).bind fun _ =>
      (keeps_release hP _ _).bind fun _ => keeps_alloc hP _ _

theorem keeps_chain (hP : Steady P) (last : ElementId) (clauses : List ElementId) :
    Keeps P (chain last clauses) := by
  induction clauses with
  | nil => exact keeps_pure _
  | cons clause clauses ih => exact ih.bind fun _ => keeps_prependClause hP _ _

theorem keeps_expand (hP : Steady P) (id : ElementId) : Keeps P (expand id) := by
  refine keeps_tree.bind fun t => keeps_tree.bind fun t' => ?_
  split
  · exact (keeps_release hP _ _).bind fun _ => (keeps_chain hP _ _).bind fun _ =>
      (keeps_replace hP _ _ _).bind fun _ => (keeps_note _).bind fun _ => keeps_pure _
  · exact keeps_pure _

theorem keeps_expandAll {us : List Unfolding} (hus : ∀ u ∈ us, Keeps P (expandIn u)) :
    Keeps P (expandAll us) := by
  induction us with
  | nil => exact keeps_pure _
  | cons u us ih =>
    refine (hus u (.head _)).bind fun _ => ?_
    exact (ih fun v hv => hus v (.tail _ hv)).bind fun _ => keeps_pure _

theorem keeps_expandIn (hP : Steady P) (u : Unfolding) : Keeps P (expandIn u) := by
  induction u with
  | node id k o us hus =>
    unfold expandIn
    split <;> rename_i heq <;> cases heq
    · exact (keeps_expandAll hus).bind fun _ => (keeps_expand hP _).bind fun _ => keeps_pure _
    · exact keeps_expandAll hus

theorem keeps_run (hP : Steady P) : Keeps P run := by
  refine keeps_unfoldRoot.bind fun root => ?_
  cases root with
  | none => exact keeps_pure _
  | some u => exact keeps_expandIn hP u

end CaseExpansion

/-! ### Closure capture and name resolution -/

theorem Capture.keeps_run (hP : Steady P) : Keeps P Capture.run := by
  refine keeps_tree.bind fun t => (keeps_forIn fun p _ => ?_).bind fun _ => keeps_pure _
  refine (keeps_note _).bind fun _ => (keeps_change ?_).bind fun _ => keeps_pure _
  intro t t' ht h
  rw [Tree.setCaptures_eq] at h
  exact hP.record ht h

namespace Resolution

def marks (r : Resolution) : List (ElementId × Mark) :=
  r.bindings.toList.map (fun p => (p.1, .binding p.2)) ++
    r.targets.toList.map (fun p => (p.1, .target p.2)) ++
    r.closures.toList.map (fun p => (p.1, .closureBindings p.2))

theorem apply_eq_recordAll (r : Resolution) (t : Tree) : r.apply t = t.recordAll r.marks := by
  unfold marks
  rw [Tree.recordAll_append, Tree.recordAll_append]
  simp only [apply, Tree.recordAll, List.foldlM_map, Tree.bindReference_eq, Tree.setCallTarget_eq,
    Tree.setClosureBindings_eq, bind_assoc]

theorem keeps_run (hP : Steady P) : Keeps P run := by
  refine keeps_tree.bind fun t => (keeps_change ?_).bind fun _ => keeps_pure _
  intro t t' ht h
  rw [apply_eq_recordAll] at h
  exact hP.recordAll ht h

end Resolution

theorem Pass.keeps_run (hP : Steady P) (p : Pass) : Keeps P p.run := by
  cases p with
  | matchExpansion => exact (MatchExpansion.keeps_run hP).bind fun _ => keeps_pure _
  | caseExpansion => exact (CaseExpansion.keeps_run hP).bind fun _ => keeps_pure _
  | closureCapture => exact (Capture.keeps_run hP).bind fun _ => keeps_pure _
  | localResolution => exact Resolution.keeps_run hP

end

/-! ### The root -/

theorem steady_root (root : Option ElementId) : Steady fun t => t.root = root where
  alloc := by
    intro t t' k o id h ha
    obtain ⟨-, heq⟩ := Tree.alloc_eq_ok_iff.mp ha
    cases heq
    rw [Tree.root_adopt, h]
  splice h _ := by rw [Tree.root_splice, h]
  record := by
    intro t t' id a h hr
    obtain ⟨k, k', -, -, rfl⟩ := Tree.annotate_eq_ok_iff.mp hr
    rw [Tree.root_setKind, h]

def Tree.Modular (t : Tree) : Prop :=
  ∃ root name functions, t.root = some root ∧ t.kind? root = some (.module name functions)

theorem steady_modular : Steady Tree.Modular where
  alloc := by
    rintro t t' k o id ⟨root, name, functions, hroot, hkind⟩ ha
    obtain ⟨-, heq⟩ := Tree.alloc_eq_ok_iff.mp ha
    cases heq
    refine ⟨root, name, functions, by rw [Tree.root_adopt, hroot], ?_⟩
    rw [Tree.kind?_adopt, if_neg (Nat.ne_of_lt (Tree.lt_size_of_kind? hkind)), hkind]
  splice := by
    rintro t owner old new i ⟨root, name, functions, hroot, hkind⟩ hc
    obtain ⟨k, -, -, hk, -⟩ := (Tree.exchangeable_of_checkReplacement hc).place
    rw [Tree.Modular, Tree.root_splice]
    by_cases heq : root = owner
    · subst heq
      rw [hkind] at hk
      cases hk
      refine ⟨root, name, functions.set i new, hroot, ?_⟩
      rw [Tree.kind?_splice hkind, if_pos rfl]
      rfl
    · exact ⟨root, name, functions, hroot, by rw [Tree.kind?_splice hk, if_neg heq, hkind]⟩
  record := by
    rintro t t' id a ⟨root, name, functions, hroot, hkind⟩ hr
    obtain ⟨k, k', hk, hchange, rfl⟩ := Tree.annotate_eq_ok_iff.mp hr
    have hne : root ≠ id := by
      rintro rfl
      rw [hkind] at hk
      cases hk
      cases a <;> cases hchange
    exact ⟨root, name, functions, hroot, by rw [Tree.kind?_setKind, if_neg fun h => hne h.1, hkind]⟩

end Clausal
