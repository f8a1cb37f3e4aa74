import Clausal.Proofs.Compile.Completion
import Clausal.Proofs.Lowering.FunctionNames
import Clausal.Proofs.Passes.KeptFunctions
import Clausal.Proofs.Scoping.Settling

/-! # Passes keep the names of functions

No pass makes a function, drops one or moves it past another, and the only thing that a pass changes in a
function itself is what a lifted one captures. -/

namespace Clausal

open Unfolding List

/-! ### Marks -/

theorem Mark.heading_settle (a : Option Mark) {k : Kind} (hk : Role.function.accepts k = false) :
    (Mark.settle a k).heading = k.heading := by
  cases a with
  | none => rfl
  | some a => cases a <;> cases k <;> first | rfl | cases hk

namespace Walker

variable {σ : Type} {W : Walker σ}

def KeepsHeadings (W : Walker σ) : Prop :=
  ∀ s s1 u, (Mark.settle (W.own s s1 u) u.kind).heading = u.kind.heading

theorem map_headings_settleAll {us : List Unfolding}
    (ih : ∀ u ∈ us, ∀ s, (W.settle s u).headings = u.headings) (s : σ) :
    (W.settleAll s us).map headings = us.map headings := by
  induction us generalizing s with
  | nil => rfl
  | cons u us ihus =>
    rw [settleAll, map_cons, map_cons, ih u (.head _), ihus fun v hv => ih v (.tail _ hv)]

theorem KeepsHeadings.settle (h : W.KeepsHeadings) (u : Unfolding) (s : σ) :
    (W.settle s u).headings = u.headings := by
  induction u generalizing s with
  | node i k o us ih =>
    rw [Walker.settle]
    cases hk : Role.function.accepts k with
    | true =>
      rw [headings_of_function _ _ ((Mark.accepts_settle ..).trans hk), headings_of_function _ _ hk,
        map_headings_settleAll ih]
      exact congrArg (_ ++ [·]) (h ..)
    | false =>
      rw [headings_of_not_function _ _ ((Mark.accepts_settle ..).trans hk),
        headings_of_not_function _ _ hk, map_headings_settleAll ih]

theorem KeepsHeadings.titles (h : W.KeepsHeadings) (u : Unfolding) (s : σ) :
    (W.settle s u).titles = u.titles := by
  obtain ⟨i, k, o, us⟩ := u
  rw [Walker.settle]
  exact map_headings_settleAll (fun u _ => h.settle u) _

end Walker

theorem Resolution.keepsHeadings : walker.KeepsHeadings := by
  rintro r r1 ⟨i, k, o, us⟩
  cases k with
  | function => rfl
  | _ => exact Mark.heading_settle _ rfl

theorem Capture.keepsHeadings : walker.KeepsHeadings := by
  rintro c c1 ⟨i, k, o, us⟩
  cases k with
  | function name params b lifted captures =>
    cases lifted with
    | false => rfl
    | true =>
      simp only [walker, kind]
      cases c1.captured? <;> rfl
  | _ => exact Mark.heading_settle _ rfl

/-! ### Passes -/

namespace Pass

variable {p : Pass} {ps : List Pass} {w w' : Workbench} {found : List Diagnostic} {u u' : Unfolding}

theorem titles_eq {i i' : ElementId} {k k' : Kind} {o o' : Origin} {us us' : List Unfolding}
    (h : Forall₂ (fun u u' => Forall₂ (fun f f' => f.kind = f'.kind) u.functions u'.functions)
      us us') : titles (.node i k o us) = titles (.node i' k' o' us') := by
  have hheadings : Forall₂ (fun u u' => u.headings = u'.headings) us us' := h.imp fun u u' hu => by
    rw [headings, headings, ← forall₂_eq_eq_eq, forall₂_map_left_iff, forall₂_map_right_iff]
    exact hu.imp fun f f' hf => congrArg Kind.heading hf
  rw [titles, titles, ← forall₂_eq_eq_eq, forall₂_map_left_iff, forall₂_map_right_iff]
  exact hheadings

theorem Turns.titles_eq (h : p.Turns u u') (hfits : u.Fits) (hnodup : u.ids.Nodup)
    (hk : ∃ name ids, u.kind = .module name ids) : u'.titles = u.titles := by
  cases p with
  | matchExpansion =>
    obtain ⟨name, ids, hk⟩ := hk
    cases h.1 with
    | node hakin hparts =>
      refine (titles_eq (forall₂_of_mem hparts fun u hu u' hu' => ?_)).symm
      exact MatchExpansion.functions_of_expanded MatchExpansion.Drains.isStep (fun _ _ _ => rfl) hu'
        (hfits.child u hu)
    | poured hdrains _ =>
      obtain rfl : _ = Kind.module name ids := hk
      cases hdrains.isStep.1
  | caseExpansion =>
    obtain ⟨name, ids, hk⟩ := hk
    cases h.1 with
    | node hparts =>
      refine (titles_eq (hparts.imp fun u u' hu => ?_)).symm
      exact CaseExpansion.functions_of_expanded (fun _ _ => rfl) hu
    | block => cases hk
    | caseOf => cases hk
  | closureCapture =>
    obtain rfl : u' = u.marked (Capture.visit {} u).marks := h
    rw [Capture.marked_eq_settle hfits hnodup, Capture.keepsHeadings.titles]
  | localResolution =>
    obtain rfl : u' = u.marked (Resolution.visit {} u).marks := h
    rw [Resolution.marked_eq_settle hfits hnodup, Resolution.keepsHeadings.titles]

theorem eq_runInOrder {α : Type} {q : Unfolding → α}
    (hq : ∀ {p : Pass} {u u' : Unfolding}, p.Turns u u' → u.Fits → u.ids.Nodup →
      (∃ name ids, u.kind = .module name ids) → q u' = q u)
    (h : w.tree.Owned) (hm : w.tree.Modular) (hrun : runInOrder ps w = .ok found w')
    (hu : w.tree.unfoldRoot = some u) (hu' : w'.tree.unfoldRoot = some u') : q u' = q u := by
  induction ps generalizing w found u with
  | nil =>
    cases hrun
    cases hu.symm.trans hu'
    rfl
  | cons p ps ih =>
    obtain ⟨found1, w1, rest, hrun1, hrest, -⟩ := runInOrder_cons_eq_ok hrun
    have howned := p.keeps_runNoted Edit.steady_owned w h
    have hmodular := p.keeps_runNoted steady_modular w hm
    rw [Edit.after, hrun1] at howned hmodular
    obtain ⟨_, _, _, _, _, hu1⟩ := hmodular.unfoldRoot howned
    obtain ⟨v, hv, hturns⟩ := exists_turns h hrun1 hu1
    cases hu.symm.trans hv
    have hshows := (h.unfoldRoot_eq_some_iff.mp hu).1
    obtain ⟨_, name, ids, _, _, hroot⟩ := hm.unfoldRoot h
    cases hu.symm.trans hroot
    exact (ih howned hmodular hrest hu1).trans
      (hq hturns (hshows.fits h) (hshows.nodup_ids h) ⟨name, ids, rfl⟩)

theorem titles_runInOrder (h : w.tree.Owned) (hm : w.tree.Modular) (hrun : runInOrder ps w = .ok found w')
    (hu : w.tree.unfoldRoot = some u) (hu' : w'.tree.unfoldRoot = some u') : u'.titles = u.titles :=
  eq_runInOrder Turns.titles_eq h hm hrun hu hu'

end Pass

/-! ### Sources -/

namespace Compile

variable {file : SourceFile} {o : Options} {journal journal' : Array Event}

theorem ast_of_parse {unit : Ast.CompilationUnit} (h : parse file journal = .ok unit journal') :
    Ast.parse file = .ok unit := by
  simp only [parse, bind_apply, ofExcept] at h
  cases hparse : Ast.parse file with
  | error e =>
    rw [hparse] at h
    cases h
  | ok unit' =>
    rw [hparse] at h
    cases h
    rfl

theorem titled_of_front {t : Tree} (h : front file o journal = .ok t journal') {u : Unfolding}
    (hu : t.unfoldRoot = some u) : Titled u.titles := by
  simp only [front, bind_apply] at h
  split at h
  · split at h
    · rename_i unit journal1 hparse
      unfold lower at h
      split at h
      · rename_i t' b hunit
        cases h
        exact Lower.titled_of_unit hunit (Ast.named_of_parse (ast_of_parse hparse)) hu
      · cases h
    · cases h
  · cases h

end Compile

end Clausal
