import Clausal.Proofs.Bytecode.Mentions
import Clausal.Proofs.Scoping.TrackedSlots

/-! # What code refers to

A call refers to a function by its name, and so does what makes a closure.  Closures: where everything is
resolved, the code of a function and of those in it makes every function in it into a closure just once, with
as many slots as it captures (`Unfolding.made_perm`). -/

namespace Clausal

open List

/-- What can be seen of a function from outside. -/
structure Signature where
  name : String
  arity : Nat
  captures : Nat

def Kind.signature : Kind → Signature
  | .function name params _ _ captures => ⟨name, params.length, captures.length⟩
  | _ => ⟨"", 0, 0⟩

def FunctionCode.signature (c : FunctionCode) : Signature := ⟨c.name, c.arity, c.captures⟩

variable {f : Unfolding} {c : FunctionCode}

theorem Generate.Codes.signature_eq (h : Codes f c) : c.signature = f.kind.signature := by
  cases h
  rfl

/-! ### Closures -/

/-- The name of the function that an operation makes into a closure, and how many slots it captures. -/
def Op.makes? : Op → Option (String × Nat)
  | makeClosure name captures => some (name, captures.length)
  | _ => none

namespace Unfolding

def made (u : Unfolding) : List (String × Nat) := u.mentions.filterMap Op.makes?

def madeBelow (u : Unfolding) : List (String × Nat) := u.children.flatMap made

def closed (f : Unfolding) : String × Nat := (f.kind.signature.name, f.kind.signature.captures)

variable {u : Unfolding} {i : ElementId} {k : Kind} {us : List Unfolding}

theorem made_eq_nil (hu : Role.function.accepts u.kind = true) : u.made = [] := by
  obtain ⟨i, k, o, us⟩ := u
  change Role.function.accepts k = true at hu
  rw [made, mentions_of_function _ _ hu, filterMap_nil]

theorem made_of_not_function (o : Origin) (us : List Unfolding) (hk : Role.function.accepts k = false) :
    made (.node i k o us) = us.flatMap made ++ (ownOps (.node i k o us)).filterMap Op.makes? := by
  rw [made, mentions_of_not_function _ _ hk, filterMap_append, filterMap_flatMap]
  rfl

theorem makes_ownOps {o : Origin} (hk : k.holdsFunctions = false) :
    (ownOps (.node i k o us)).filterMap Op.makes? = [] := by
  cases k with
  | closure => cases hk
  | assignment x d value b initializer | reference x b => cases b <;> rfl
  | invocation x arguments target =>
    cases target with
    | none => rfl
    | some target => cases target <;> rfl
  | _ => rfl

theorem made_row (ih : ∀ u ∈ us, (u.made ++ u.functions.flatMap madeBelow).Perm ((u.children.flatMap
    functions).map closed)) :
    (us.flatMap made ++ (us.flatMap functions).flatMap madeBelow).Perm
      ((us.flatMap fun u => u.children.flatMap functions).map closed) := by
  rw [flatMap_assoc, map_flatMap]
  exact (flatMap_append_perm ..).trans (Perm.flatMap_left _ ih)

theorem made_perm (hu : u.Inner) (hcomplete : u.Complete) :
    (u.made ++ u.functions.flatMap madeBelow).Perm ((u.children.flatMap functions).map closed) := by
  induction u with
  | node i k o us ih =>
    have hus := made_row fun u hm => ih u hm (hu.1.inner u hm) (hcomplete.child u hm)
    -- only modules and closures have functions for parts
    have hbelow (hk : k.holdsFunctions = false) :
        (us.flatMap fun u => u.children.flatMap functions) = us.flatMap functions :=
      flatMap_congr fun u hm => (functions_eq_below (hu.1.not_function hk u hm)).symm
    cases k with
    | module name ids =>
      obtain ⟨-, role, haccepts⟩ := hu
      cases role <;> cases haccepts
    | function name params b lifted captures =>
      rw [hbelow rfl] at hus
      rw [made_eq_nil rfl, nil_append, functions_of_function _ _ rfl,
        flatMap_append, flatMap_singleton]
      exact perm_append_comm.trans hus
    | closure f captured =>
      obtain ⟨fn, rfl, -, hfn⟩ := hu.1.one rfl
      obtain ⟨j, kf, of, vs⟩ := fn
      cases kf <;> cases hfn
      rename_i name params b lifted captures
      have hlength : captures.length = captured.length := of_decide_eq_true hcomplete.bound
      have hown : (ownOps (.node i (.closure f captured) o
          [.node j (.function name params b lifted captures) of vs])).filterMap Op.makes? =
          [closed (.node j (.function name params b lifted captures) of vs)] := by
        simp [ownOps, Op.makes?, closed, kind, Kind.signature, hlength]
      rw [flatMap_singleton, flatMap_singleton, flatMap_singleton,
        made_eq_nil rfl, nil_append] at hus
      rw [made_of_not_function _ _ rfl, hown, functions_of_not_function _ _ rfl, children,
        flatMap_singleton, flatMap_singleton, made_eq_nil rfl, nil_append]
      nth_rewrite 2 [functions_of_function _ _ rfl]
      rw [map_append]
      exact (hus.cons _).trans (perm_append_singleton ..).symm
    | _ =>
      rw [hbelow rfl] at hus
      rw [made_of_not_function _ _ rfl, functions_of_not_function _ _ rfl, makes_ownOps rfl, append_nil]
      exact hus

end Unfolding

theorem Generate.Codes.makes_eq (h : Codes f c) : c.code.filterMap Op.makes? = f.madeBelow := by
  have hmade : f.madeBelow = (c.code.filter Op.mentions).filterMap Op.makes? := by
    rw [h.mentions_eq, filterMap_flatMap]
    rfl
  rw [hmade, filterMap_filter]
  congr 1
  funext op
  cases op <;> rfl

/-! ### Calls -/

def Op.CallsIn (table : Std.HashMap String Nat) : Op → Prop
  | call name argc => table[name]? = some argc
  | callBuiltin name _ => name ∈ builtins ∧ table[name]? = none
  | _ => True

theorem Unfolding.invocation_or_callsIn {u : Unfolding} {op : Op} (h : op ∈ u.ownOps) :
    (∃ name arguments target, u.kind = .invocation name arguments (some target) ∧
      op = Generate.callOp name arguments.length target) ∨ ∀ table, op.CallsIn table := by
  unfold ownOps at h
  split at h
  · obtain rfl := mem_singleton.mp h
    exact .inr fun _ => trivial
  · obtain rfl := mem_singleton.mp h
    exact .inr fun _ => trivial
  · obtain rfl := mem_singleton.mp h
    exact .inl ⟨_, _, _, rfl, rfl⟩
  · obtain rfl := mem_singleton.mp h
    exact .inr fun _ => trivial
  · cases h

theorem Mark.invocation_of_settle {a : Option Mark} {k : Kind} {name : String} {arguments : List ElementId}
    {target : Option CallTarget} (h : Mark.settle a k = .invocation name arguments target) :
    ∃ target0, k = .invocation name arguments target0 := by
  cases a with
  | none => exact ⟨target, h⟩
  | some a => cases a <;> cases k <;> cases h <;> exact ⟨_, rfl⟩

namespace Resolution

variable {r : Resolution} {i : ElementId} {o : Origin} {u : Unfolding} {us : List Unfolding}

theorem Clean.called {x : String} {given : Nat} {c : CallTarget} (h : (r.call i o x given).Clean)
    (hc : r.called? x = some c) : (Generate.callOp x given c).CallsIn r.functions := by
  unfold Resolution.call at h
  unfold called? at hc
  cases hs : r.lookup x with
  | some s =>
    rw [hs] at hc
    cases hc
    exact trivial
  | none =>
    rw [hs] at h hc
    dsimp only at h hc
    rw [Std.HashMap.contains_eq_isSome_getElem?] at hc
    cases hf : r.functions[x]? with
    | some expected =>
      rw [hf] at h hc
      cases hc
      dsimp only at h
      split_ifs at h with heq
      · exact hf.trans (congrArg some heq)
      · exact absurd h (not_clean_complain rfl)
    | none =>
      rw [hf] at h hc
      dsimp only at h hc
      rw [Option.isSome_none, if_neg Bool.false_ne_true] at hc
      split_ifs at hc with hb
      cases hc
      exact ⟨by simpa using hb, hf⟩

theorem functions_walker_enter (hu : u.Inner) (r : Resolution) :
    (walker.enter r u).functions = r.functions := by
  obtain ⟨i, k, o, us⟩ := u
  cases k with
  | module name ids =>
    obtain ⟨-, role, haccepts⟩ := hu
    cases role <;> cases haccepts
  | function name params b lifted captures => exact (later_enter r o name captures params).functions
  | block ids => exact (later_modifyTop ..).functions
  | closure f captured => exact (later_capture r i o _).functions
  | _ => rfl

theorem each_functions (hu : u.Inner) {table : Std.HashMap String Nat} (hr : r.functions = table) :
    walker.Each (fun r _ => r.functions = table) r u := by
  induction u generalizing r with
  | node i k o us ih =>
    refine .node hr fun before u after heq => ?_
    have hm : u ∈ us := heq ▸ mem_append_right _ (.head _)
    refine ih u hm (hu.1.inner u hm) ?_
    have hbefore : ∀ v ∈ before, v.Inner := fun v hv => hu.1.inner v (heq ▸ mem_append_left _ hv)
    have hfold := (later_visitAll hbefore (walker.enter r (.node i k o us))).functions
    rw [visitAll_eq_foldl, functions_walker_enter hu, hr] at hfold
    exact hfold

theorem calls_ownOps (hu : u.Fits) (hclean : (visit r u).Clean) :
    ∀ op ∈ (walker.settle r u).ownOps, op.CallsIn r.functions := by
  intro op hop
  rcases Unfolding.invocation_or_callsIn hop with ⟨x, arguments, target, hkind, rfl⟩ | hcalls
  · obtain ⟨i, k, o, us⟩ := u
    rw [Walker.settle, Unfolding.kind, walker_below] at hkind
    obtain ⟨target0, rfl⟩ := Mark.invocation_of_settle hkind
    rw [visit] at hclean
    obtain ⟨c, hc⟩ := Option.isSome_iff_exists.mp hclean.call
    have hcalled := hclean.called hc
    rw [(later_visitAll hu.inner r).functions] at hcalled
    simp only [walker, Unfolding.children, hc] at hkind
    cases hkind
    exact hcalled
  · exact hcalls _

theorem calls_of_within (hus : ∀ u ∈ us, u.Inner) (hclean : (visitAll r us).Clean) {g v : Unfolding}
    (hg : g ∈ walker.settleAll r us) (hv : v.Within g) : ∀ op ∈ v.ownOps, op.CallsIn r.functions := by
  have heach : walker.EachAll (fun s u => (visit s u).Clean ∧ s.functions = r.functions) r us := by
    rintro before u after rfl
    have hu := hus u (mem_append_right _ (.head _))
    have hbefore := later_visitAll (fun v hv => hus v (mem_append_left _ hv)) r
    have hafter := fun s => later_visitAll (fun v hv =>
      hus v (mem_append_right _ (.tail _ hv))) s
    rw [visitAll_append_cons] at hclean
    rw [visitAll_eq_foldl before] at hbefore hclean
    exact (each_clean hu.1 ((hafter _).clean hclean)).and (each_functions hu hbefore.functions)
  obtain ⟨u, hu, s, rfl, hs⟩ := heach.exists_of_mem hg
  obtain ⟨t, w, rfl, hw, hcleanw, hfunctions⟩ := hs.exists_of_within (hus u hu).1 hv
  rw [← hfunctions]
  exact calls_ownOps hw hcleanw

/-! ### The table of functions -/

theorem clean_of_enterFunctions (h : (r.enterFunctions us).Clean) : r.Clean := by
  induction us generalizing r with
  | nil => exact h
  | cons u us ih =>
    obtain ⟨i, k, o, vs⟩ := u
    cases k with
    | function name params b lifted captures =>
      rw [enterFunctions] at h
      have hclean := ih h
      split_ifs at hclean
      · exact (later_complain ..).clean hclean
      · exact hclean
    | _ => exact ih h

theorem enterFunctions_cons {b : ElementId} {name : String} {params captures : List String} {lifted : Bool}
    {vs : List Unfolding}
    (hclean : (r.enterFunctions (.node i (.function name params b lifted captures) o vs :: us)).Clean) :
    r.functions[name]? = none ∧
      r.enterFunctions (.node i (.function name params b lifted captures) o vs :: us) =
        { r with functions := r.functions.insert name params.length }.enterFunctions us := by
  rw [enterFunctions] at hclean ⊢
  cases hknown : r.functions.contains name with
  | true =>
    rw [hknown, if_pos rfl] at hclean
    exact absurd (clean_of_enterFunctions hclean) (not_clean_complain rfl)
  | false =>
    refine ⟨?_, rfl⟩
    rw [Std.HashMap.contains_eq_isSome_getElem?, Option.isSome_eq_false_iff] at hknown
    exact Option.isNone_iff_eq_none.mp hknown

theorem table_enterFunctions (hus : ∀ u ∈ us, Role.function.accepts u.kind = true)
    (hclean : (r.enterFunctions us).Clean) :
    (us.map (·.kind.signature.name)).Nodup ∧ (∀ u ∈ us, r.functions[u.kind.signature.name]? = none) ∧
      ∀ x n, (r.enterFunctions us).functions[x]? = some n ↔
        r.functions[x]? = some n ∨ ∃ u ∈ us, u.kind.signature.name = x ∧ u.kind.signature.arity = n := by
  induction us generalizing r with
  | nil => simp [enterFunctions]
  | cons u us ih =>
    obtain ⟨i, k, o, vs⟩ := u
    have hk := hus _ (.head _)
    cases k <;> cases hk
    rename_i name params b lifted captures
    obtain ⟨hnew, heq⟩ := enterFunctions_cons hclean
    rw [heq] at hclean ⊢
    obtain ⟨hnodup, hfresh, htable⟩ := ih (fun u hu => hus u (.tail _ hu)) hclean
    simp only [Std.HashMap.getElem?_insert, beq_iff_eq] at hfresh htable
    refine ⟨nodup_cons.mpr ⟨?_, hnodup⟩, ?_, fun x n => ?_⟩
    · rw [mem_map]
      rintro ⟨u, hu, heq⟩
      have hnone := hfresh u hu
      rw [if_pos (show name = u.kind.signature.name from heq.symm)] at hnone
      cases hnone
    · intro u hu
      rcases mem_cons.mp hu with rfl | hu
      · exact hnew
      · have hnone := hfresh u hu
        split_ifs at hnone
        exact hnone
    · rw [htable]
      split_ifs with hx
      · subst hx
        simp [hnew, Unfolding.kind, Kind.signature]
      · simp [Unfolding.kind, Kind.signature, hx]

end Resolution

end Clausal
