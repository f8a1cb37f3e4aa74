import Clausal.Proofs.Compile.Constancy
import Clausal.Proofs.Lowering.Literals

/-! # Literals end up in the program

Every literal of a source file becomes one constant of the program, and apart from null a program has no other
constants (`Compile.literals_perm`). -/

namespace Clausal

open Unfolding List

/-! ### Constants of a program -/

def Op.literal? : Op → Option Value
  | .const v => v.literal?
  | _ => none

def FunctionCode.literals (c : FunctionCode) : List Value := c.code.filterMap Op.literal?

def Program.literals (p : Program) : List Value := p.functions.flatMap FunctionCode.literals

def Ast.CompilationUnit.literals (unit : Ast.CompilationUnit) : List Value := unit.functions.flatMap Ast.Node.literals

theorem Op.tells_of_literal? {op : Op} {v : Value} (h : op.literal? = some v) : op.tells = true := by
  cases op with
  | const w =>
    cases w with
    | null => cases h
    | _ => rfl
  | _ => cases h

namespace Unfolding

/-- The constants of an element and what is below it, without functions. -/
def toldLiterals (u : Unfolding) : List Value := u.told.filterMap Op.literal?

theorem literals_ownTold (i : ElementId) (k : Kind) (o : Origin) (us : List Unfolding) :
    (ownTold (.node i k o us)).filterMap Op.literal? = k.literal?.toList := by
  cases k with
  | constant v => cases v <;> rfl
  | assignment name d x b f | reference name b => cases b <;> rfl
  | invocation name arguments target =>
    cases target with
    | none => rfl
    | some target => cases target <;> rfl
  | closure x captured =>
    rcases us with _ | ⟨⟨j, kf, of, vs⟩, us⟩
    · rfl
    · cases kf <;> rfl
  | _ => rfl

theorem literals_perm (u : Unfolding) :
    (u.toldLiterals ++ u.functions.flatMap fun f => f.children.flatMap toldLiterals).Perm u.literals := by
  induction u with
  | node i k o us ih =>
    have hbelow : (us.flatMap toldLiterals ++
        (us.flatMap functions).flatMap fun f => f.children.flatMap toldLiterals).Perm (us.flatMap literals) := by
      rw [flatMap_assoc]
      exact (flatMap_append_perm us _ _).trans (Perm.flatMap_left us ih)
    rw [literals_node]
    cases hk : Role.function.accepts k with
    | true =>
      have hnone : k.literal? = none := by cases k <;> first | rfl | cases hk
      rw [toldLiterals, told_of_function _ _ hk, functions_of_function _ _ hk, hnone, flatMap_append,
        flatMap_singleton, filterMap_nil, nil_append]
      exact perm_append_comm.trans hbelow
    | false =>
      rw [toldLiterals, told_of_not_function _ _ hk, functions_of_not_function _ _ hk, filterMap_append,
        filterMap_flatMap, literals_ownTold]
      exact (Perm.append_right _ perm_append_comm).trans
        ((append_assoc ..).symm ▸ hbelow.append_left _)

theorem toldLiterals_of_module {u : Unfolding} (hfits : u.Fits) (hk : ∃ name ids, u.kind = .module name ids) :
    u.toldLiterals = [] := by
  obtain ⟨name, ids, hk⟩ := hk
  cases hfits with
  | @node i k o us hslots _ =>
    obtain rfl : k = .module name ids := hk
    rw [toldLiterals, told_of_not_function _ _ rfl, filterMap_append, literals_ownTold, filterMap_flatMap]
    refine append_eq_nil_iff.mpr ⟨flatMap_eq_nil_iff.mpr fun v hv => ?_, rfl⟩
    obtain ⟨s, hs, -, haccepts⟩ := exists_of_mem_right hslots hv
    obtain ⟨x, -, rfl⟩ := mem_map.mp hs
    obtain ⟨j, kv, ov, vs⟩ := v
    have hkv : Role.function.accepts kv = true := haccepts
    rw [told_of_function _ _ hkv, filterMap_nil]

end Unfolding

theorem Generate.Codes.literals_eq {f : Unfolding} {c : FunctionCode} (h : Codes f c) :
    c.literals = f.children.flatMap toldLiterals := by
  have htold : (c.code.filter Op.tells).filterMap Op.literal? = c.code.filterMap Op.literal? := by
    rw [filterMap_filter]
    refine filterMap_congr fun op _ => ?_
    cases hop : op.literal? with
    | none => exact ite_self none
    | some v => rw [Op.tells_of_literal? hop, if_pos rfl]
  rw [FunctionCode.literals, ← htold, h.told_eq, filterMap_flatMap]
  rfl

/-! ### Passes -/

namespace Pass

variable {p : Pass} {ps : List Pass} {w w' : Workbench} {found : List Diagnostic} {u u' : Unfolding}

def isLiteral (k : Kind) : Bool := k.literal?.isSome

theorem literals_eq_kept (u : Unfolding) :
    u.literals = (u.kept (fun _ => false) isLiteral).filterMap (·.2.literal?) := by
  rw [kept, filterMap_filter, literals, preorder]
  refine filterMap_congr fun q _ => ?_
  rw [isLiteral]
  cases q.2.literal? <;> rfl

theorem passesBranches_literals : PassesBranches (fun _ => false) isLiteral := by
  intro k hk
  cases k <;> first | exact ⟨rfl, rfl⟩ | cases hk

theorem not_isLiteral_of_isStep {k : Kind} (h : k.isStep = true) : isLiteral k = false := by
  cases k <;> first | rfl | cases h

theorem literals_marked (as : List (ElementId × Mark)) (u : Unfolding) : (u.marked as).literals = u.literals := by
  rw [literals, preorder_marked, filterMap_map, literals]
  refine filterMap_congr fun q _ => ?_
  obtain ⟨i, k⟩ := q
  rw [Function.comp_apply, rekind_def]
  cases k <;> rfl

theorem Turns.literals_eq (h : p.Turns u u') : u'.literals = u.literals := by
  cases p with
  | matchExpansion =>
    rw [literals_eq_kept, literals_eq_kept u,
      MatchExpansion.kept_of_expanded passesBranches_literals (fun hdrains => ?_) h.1]
    exact ⟨⟨not_isLiteral_of_isStep hdrains.isStep.1, rfl⟩,
      fun x => ⟨not_isLiteral_of_isStep (hdrains.isStep.2 x), rfl⟩⟩
  | caseExpansion =>
    rw [literals_eq_kept, literals_eq_kept u, CaseExpansion.kept_of_expanded passesBranches_literals h.1]
  | closureCapture | localResolution =>
    obtain rfl : u' = u.marked _ := h
    exact literals_marked _ u

end Pass

/-! ### Sources -/

namespace Compile

theorem literals_perm {file : SourceFile} {o : Options} {c : Compilation} {p : Program}
    (h : compile file o = .ok c) (hp : c.program = some p) :
    ∃ unit, Ast.parse file = .ok unit ∧ p.literals.Perm unit.literals := by
  obtain ⟨t, journal, found, w, v, hfront, hbefore, howned, hv, hfits, -, -, -, hcodes⟩ := exists_resolved h hp
  obtain ⟨hfresh, hmodular⟩ := front_fresh hfront
  obtain ⟨unit, b, b', hparse, hunit⟩ := exists_unit_of_front hfront
  refine ⟨unit, hparse, ?_⟩
  obtain ⟨i, us, hu, hlowered⟩ := Lower.exists_unfoldRoot_of_unit hunit
  obtain ⟨j, name, ids, org, vs, hmodule⟩ :=
    (Pass.steady_runInOrder steady_modular hbefore hmodular).unfoldRoot howned
  cases hmodule.symm.trans hv
  have hnodup := (howned.unfoldRoot_eq_some_iff.mp hv).1.nodup_ids howned
  rw [← Resolution.marked_eq_settle hfits hnodup] at hcodes
  generalize (Resolution.visit {} _).marks = as at hcodes
  have hnone := toldLiterals_of_module (hfits.marked as) ⟨name, ids, by rw [marked_node, kind, rekind_def]⟩
  have hfunctions : p.literals = _ := flatMap_eq_of_forall₂ (hcodes.flip.imp fun c f hc => hc.literals_eq)
  have hperm := Unfolding.literals_perm (marked (.node j (.module name ids) org vs) as)
  rw [hnone, nil_append, ← hfunctions, Pass.literals_marked,
    Pass.eq_runInOrder (fun hturns _ _ _ => hturns.literals_eq) hfresh.owned hmodular hbefore hu hv,
    Unfolding.literals_node] at hperm
  have htrim : ∀ n ∈ unit.functions, Ast.Trim n := fun n hn => Ast.trim_of_fills (Ast.fills_of_parse hparse n hn)
  have hunit : us.flatMap Unfolding.literals = unit.literals :=
    flatMap_eq_of_forall₂ (((forall₂_and_left _ _).mpr ⟨htrim, hlowered⟩).flip.imp fun u n hn =>
      Lower.literals_of_lowered hn.1 hn.2)
  rw [← hunit]
  exact hperm

end Compile

end Clausal
