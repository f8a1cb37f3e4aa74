import Clausal.Passes.Pipeline
import Clausal.Proofs.Bytecode.Scripts
import Clausal.Proofs.Tree.Marking

/-! # What expanding cases leaves alone

`Expanded u u'` says that `u'` is `u` with a chain of conditionals in the place of each case statement. -/

namespace Clausal

open Unfolding Resolution

namespace CaseExpansion

/-- The conditionals that the clauses and the fallback of a case become. -/
inductive Chain : List Unfolding → Unfolding → Prop
  | last {u} : Role.block.accepts u.kind = true → Chain [u] u
  | clause {i j c a o condition action r rest} : Chain rest r →
      Chain (.node i (.whenClause c a .statement) o [condition, action] :: rest)
        (.node j (.conditional condition.id action.id (some r.id)) o [condition, action, r])

/-- The second unfolding is the first one with chains in the place of case statements. -/
inductive Expanded : Unfolding → Unfolding → Prop
  | node {i k o us us'} : List.Forall₂ Expanded us us' → Expanded (.node i k o us) (.node i k o us')
  | block {i ids ids' o us us'} :
      List.Forall₂ Expanded us us' → Expanded (.node i (.block ids) o us) (.node i (.block ids') o us')
  | caseOf {i x ids o us us' u'} :
      List.Forall₂ Expanded us us' → Chain us' u' → Expanded (.node i (.caseOf ids x) o us) u'

variable {us us' : List Unfolding} {u u' : Unfolding}

theorem Chain.shape (h : Chain us u) :
    (∃ i ids o vs, u = .node i (.block ids) o vs) ∨
      ∃ i c a e o vs, u = .node i (.conditional c a e) o vs := by
  cases h with
  | @last u hu =>
    obtain ⟨i, k, o, vs⟩ := u
    cases k <;> first | exact .inl ⟨_, _, _, _, rfl⟩ | cases hu
  | clause _ => exact .inr ⟨_, _, _, _, _, _, rfl⟩

theorem Expanded.kind_eq (h : Expanded u u') :
    u'.kind = u.kind ∨ u.kind.isStatement = true ∧ u'.kind.isStatement = true := by
  cases h with
  | node _ => exact .inl rfl
  | block _ => exact .inr ⟨rfl, rfl⟩
  | caseOf _ hchain =>
    obtain ⟨_, _, _, _, rfl⟩ | ⟨_, _, _, _, _, _, rfl⟩ := hchain.shape <;> exact .inr ⟨rfl, rfl⟩

theorem Expanded.isExpression (h : Expanded u u') : u'.kind.isExpression = u.kind.isExpression := by
  rcases h.kind_eq with heq | ⟨hu, hu'⟩
  · rw [heq]
  · generalize u.kind = k at hu ⊢
    generalize u'.kind = k' at hu' ⊢
    cases k <;> cases hu <;> cases k' <;> cases hu' <;> rfl

/-- A walk comes out the same over elements that it treats alike. -/
theorem walk_congr {σ : Type} {one : σ → Unfolding → σ} {all : σ → List Unfolding → σ} (hnil : ∀ s, all s [] = s)
    (hcons : ∀ s u us, all s (u :: us) = all (one s u) us)
    (h : List.Forall₂ (fun u u' => ∀ s, one s u' = one s u) us us') (s : σ) : all s us' = all s us := by
  induction h generalizing s with
  | nil => rw [hnil]
  | cons hu _ ih => rw [hcons, hcons, hu, ih]

/-! ### Closure capture -/

theorem visitAll_capture_congr
    (h : List.Forall₂ (fun u u' => ∀ c, Capture.visit c u' = Capture.visit c u) us us') (c : Capture) :
    Capture.visitAll c us' = Capture.visitAll c us :=
  walk_congr (fun _ => by rw [Capture.visitAll]) (fun _ _ _ => by rw [Capture.visitAll]) h c

theorem Chain.visit_capture (h : Chain us u) (c : Capture) : Capture.visit c u = Capture.visitAll c us := by
  induction h generalizing c with
  | last _ => rw [Capture.visitAll, Capture.visitAll]
  | clause _ ih => simp only [Capture.visit, Capture.visitAll, ih]

theorem Expanded.visit_capture (h : Expanded u u') (c : Capture) :
    Capture.visit c u' = Capture.visit c u := by
  induction u generalizing u' c with
  | node i k o us ih =>
    have hall : ∀ {us'}, List.Forall₂ Expanded us us' → ∀ c,
        Capture.visitAll c us' = Capture.visitAll c us := by
      intro us' hus
      exact visitAll_capture_congr (forall₂_of_mem hus fun u hu u' h => ih u hu h)
    cases h with
    | node hus => cases k <;> simp only [Capture.visit, hall hus]
    | block hus => simp only [Capture.visit, hall hus]
    | caseOf hus hchain => simp only [hchain.visit_capture, Capture.visit, hall hus]

/-! ### Name resolution -/

theorem visitAll_resolution_congr
    (h : List.Forall₂ (fun u u' => ∀ r, visit r u' = visit r u) us us') (r : Resolution) :
    visitAll r us' = visitAll r us :=
  walk_congr (fun _ => by rw [visitAll]) (fun _ _ _ => by rw [visitAll]) h r

theorem Chain.visit_resolution (h : Chain us u) (r : Resolution) :
    visit r u = visitAll r us := by
  induction h generalizing r with
  | last _ => rw [visitAll, visitAll]
  | clause _ ih => simp only [visit, visitAll, ih]

theorem enterFunctions_congr (h : List.Forall₂ Expanded us us') (r : Resolution) :
    r.enterFunctions us' = r.enterFunctions us := by
  induction h generalizing r with
  | nil => rfl
  | @cons u u' us us' hu _ ih =>
    cases hu with
    | @node i k o _ _ _ => cases k <;> simp only [enterFunctions, ih]
    | block _ => simp only [enterFunctions, ih]
    | caseOf _ hchain =>
      obtain ⟨_, _, _, _, rfl⟩ | ⟨_, _, _, _, _, _, rfl⟩ := hchain.shape <;>
        simp only [enterFunctions, ih]

theorem capturesOf_congr (h : List.Forall₂ Expanded us us') :
    capturesOf us' = capturesOf us := by
  cases h with
  | nil => rfl
  | @cons u u' _ _ hu _ =>
    cases hu with
    | @node _ k _ _ _ _ => cases k <;> rfl
    | block _ => rfl
    | caseOf _ hchain =>
      obtain ⟨_, _, _, _, rfl⟩ | ⟨_, _, _, _, _, _, rfl⟩ := hchain.shape <;> rfl

theorem Expanded.visit_resolution (h : Expanded u u') (r : Resolution) :
    visit r u' = visit r u := by
  induction u generalizing u' r with
  | node i k o us ih =>
    have hall : ∀ {us'}, List.Forall₂ Expanded us us' → ∀ r,
        visitAll r us' = visitAll r us := by
      intro us' hus
      exact visitAll_resolution_congr (forall₂_of_mem hus fun u hu u' h => ih u hu h)
    cases h with
    | node hus =>
      cases k <;> simp only [visit, hall hus, enterFunctions_congr hus, capturesOf_congr hus]
    | block hus => simp only [visit, hall hus]
    | caseOf hus hchain => simp only [hchain.visit_resolution, visit, hall hus]

/-! ### Code generation -/

open Generate

theorem emitAll_congr (h : List.Forall₂ (fun u u' => ∀ base, emit base u' = emit base u) us us') (base : Nat) :
    emitAll base us' = emitAll base us := by
  induction h generalizing base with
  | nil => rfl
  | cons hu _ ih => simp only [emitAll, hu, ih]

theorem emitStatements_congr (hus : List.Forall₂ Expanded us us')
    (h : ∀ u ∈ us, ∀ u', Expanded u u' → ∀ base, emit base u' = emit base u) (base : Nat) :
    emitStatements base us' = emitStatements base us := by
  induction hus generalizing base with
  | nil => rfl
  | @cons u u' us us' hu _ ih =>
    have hemit := h u (.head _) u' hu
    have ih := ih fun v hv => h v (.tail _ hv)
    simp only [emitStatements, hemit, ih, hu.isExpression]

theorem emitArms_congr (hus : List.Forall₂ Expanded us us')
    (h : ∀ u ∈ us, ∀ u', Expanded u u' → ∀ base, emit base u' = emit base u)
    (h' : ∀ u ∈ us, ∀ v ∈ u.children, ∀ v', Expanded v v' → ∀ base, emit base v' = emit base v) (base : Nat) :
    emitArms base us' = emitArms base us := by
  induction hus generalizing base with
  | nil => rfl
  | @cons u u' us us' hu _ ih =>
    have hemit := h u (.head _) u' hu
    have hbelow := h' u (.head _)
    have ih := ih (fun v hv => h v (.tail _ hv)) (fun v hv => h' v (.tail _ hv))
    cases hu with
    | @node i k o vs vs' hvs =>
      cases k with
      | whenClause c a arm =>
        -- a clause has two parts; what else there could be is emitted as a whole
        rcases hvs with _ | ⟨hx, _ | ⟨hy, _ | ⟨_, _⟩⟩⟩
        · simp only [emitArms, ih]
        · simp only [emitArms, hemit, ih]
        · simp only [emitArms, hbelow _ (by simp [children]) _ hx,
            hbelow _ (by simp [children]) _ hy, ih]
        · simp only [emitArms, hemit, ih]
      | _ => simp only [emitArms, hemit, ih]
    | block _ => simp only [emitArms, hemit, ih]
    | caseOf _ hchain =>
      obtain ⟨_, _, _, _, rfl⟩ | ⟨_, _, _, _, _, _, rfl⟩ := hchain.shape <;>
        simp only [emitArms, hemit, ih]

theorem Chain.emit_eq (h : Chain us u) (base : Nat) : emit base u = emitArms base us := by
  induction h generalizing base with
  | last hu =>
    have haccepts : Arm.statement.actionRole.accepts _ = true := hu
    rw [emitArms_fallback haccepts]
  | clause _ ih => simp only [emit, emitArms, emitAll_singleton, ih]

theorem closureOp_congr (h : List.Forall₂ Expanded us us') (o : Origin) (captured : List Binding) :
    closureOp o captured us' = closureOp o captured us := by
  cases h with
  | nil => rfl
  | @cons u u' _ _ hu _ =>
    cases hu with
    | @node _ k _ _ _ _ => cases k <;> rfl
    | block _ => rfl
    | caseOf _ hchain =>
      obtain ⟨_, _, _, _, rfl⟩ | ⟨_, _, _, _, _, _, rfl⟩ := hchain.shape <;> rfl

theorem Expanded.emit_eq (h : Expanded u u') (base : Nat) : emit base u' = emit base u := by
  induction u using induct₂ generalizing u' base with
  | node i k o us ih ih' =>
    have hone : ∀ {us'}, List.Forall₂ Expanded us us' →
        List.Forall₂ (fun u u' => ∀ base, emit base u' = emit base u) us us' := fun hus =>
      forall₂_of_mem hus fun u hu u' h => ih u hu h
    have harms : ∀ {us'}, List.Forall₂ Expanded us us' → ∀ base,
        emitArms base us' = emitArms base us := fun hus =>
      emitArms_congr hus (fun u hu u' h => ih u hu h) (fun u hu v hv v' h => ih' u hu v hv h)
    cases h with
    | block hus =>
      simp only [emit, emitStatements_congr hus fun u hu u' h => ih u hu h]
    | caseOf hus hchain => simp only [hchain.emit_eq, emit, harms hus]
    | node hus =>
      have hall := emitAll_congr (hone hus)
      cases k with
      | block ids => simp only [emit, emitStatements_congr hus fun u hu u' h => ih u hu h]
      | caseOf | matchOf => simp only [emit, harms hus]
      | conditional =>
        cases hone hus with
        | nil => rfl
        | cons hc hrest =>
          cases hrest with
          | nil => simp only [emit, hall]
          | cons ha hrest => simp only [emit, hc, ha, emitAll_congr hrest]
      | loop | binary =>
        cases hone hus with
        | nil => rfl
        | cons hc hrest =>
          cases hrest with
          | nil => simp only [emit, hall]
          | cons ha hrest => simp only [emit, hc, ha]
      | returns x => cases x <;> simp only [emit, hall]
      | _ => simp only [emit, hall, closureOp_congr hus]

theorem Expanded.outside_eq {i : ElementId} {name : String} {ids : List ElementId} {o : Origin}
    (h : Expanded (.node i (.module name ids) o us) u')
    (hfits : Fits (.node i (.module name ids) o us)) (hfits' : u'.Fits) :
    moduleName u' = name ∧ outside u' = outside (.node i (.module name ids) o us) := by
  cases h with
  | @node _ _ _ _ us' hus =>
    refine ⟨rfl, ?_⟩
    have hfunctions := hfits.all (r := .function) rfl
    have hchildren := hfits'.child
    simp only [outside]
    clear hfits hfits'
    induction hus with
    | nil => rfl
    | @cons u u' us us' hu _ ih =>
      have hout : outside u' = outside u := by
        have hemit := hu.emit_eq 0
        have hu' := hchildren u' (.head _)
        obtain ⟨hu0, hf⟩ := hfunctions u (.head _)
        cases hu with
        | @node _ k _ _ _ _ =>
          cases k <;> cases hf
          rw [outside_function hu', outside_function hu0, hemit]
        | block _ => cases hf
        | caseOf _ _ => cases hf
      simp only [outsideAll, hout, ih (fun u hu => hfunctions u (.tail _ hu)) fun u hu => hchildren u (.tail _ hu)]

/-! ### Marks -/

section

variable {id : ElementId} {a : Mark}

theorem mark_block (i : ElementId) (ids : List ElementId) (o : Origin) (us : List Unfolding) :
    Unfolding.mark id a (.node i (.block ids) o us) =
      .node i (.block ids) o (us.map (Unfolding.mark id a)) := by
  rw [mark_node, remark_eq_self (by cases a <;> rfl)]

theorem mark_caseOf (i x : ElementId) (ids : List ElementId) (o : Origin) (us : List Unfolding) :
    Unfolding.mark id a (.node i (.caseOf ids x) o us) =
      .node i (.caseOf ids x) o (us.map (Unfolding.mark id a)) := by
  rw [mark_node, remark_eq_self (by cases a <;> rfl)]

variable {u : Unfolding}

theorem Chain.mark {us : List Unfolding} (h : Chain us u) :
    Chain (us.map (Unfolding.mark id a)) (u.mark id a) := by
  induction h with
  | @last u hu =>
    obtain ⟨i, k, o, vs⟩ := u
    cases k <;> cases hu
    rw [List.map_singleton, mark_block]
    exact .last rfl
  | @clause i j c b o condition action r rest _ ih =>
    rw [List.map_cons, mark_node, mark_node,
      remark_eq_self (by cases a <;> rfl), remark_eq_self (by cases a <;> rfl)]
    simp only [List.map_cons, List.map_nil]
    have hid (v : Unfolding) : v.id = (v.mark id a).id := (id_mark v).symm
    rw [hid condition, hid action, hid r]
    exact .clause ih

theorem Expanded.mark {u' : Unfolding} (h : Expanded u u') : Expanded (u.mark id a) (u'.mark id a) := by
  induction u generalizing u' with
  | node i k o us ih =>
    have hall : ∀ {us'}, List.Forall₂ Expanded us us' →
        List.Forall₂ Expanded (us.map (Unfolding.mark id a)) (us'.map (Unfolding.mark id a)) := by
      intro us' hus
      rw [List.forall₂_map_left_iff, List.forall₂_map_right_iff]
      exact forall₂_of_mem hus fun u hu u' h => ih u hu h
    cases h with
    | node hus =>
      rw [mark_node, mark_node]
      exact .node (hall hus)
    | block hus =>
      rw [mark_block, mark_block]
      exact .block (hall hus)
    | caseOf hus hchain =>
      rw [mark_caseOf]
      exact .caseOf (hall hus) hchain.mark

end

end CaseExpansion

end Clausal
