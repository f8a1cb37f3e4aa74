import Clausal.Proofs.Bytecode.Scripts
import Clausal.Proofs.Tree.Marking

/-! # The functions of a program

Code generation walks a whole tree and collects functions on the way.  `Unfolding.functions` lists the
functions of an unfolding in the order in which they come out, inner ones first, and `Codes` relates a
function to its code: the code of its body, followed by a return of null. -/

namespace Clausal

open List Unfolding

namespace Unfolding

def functions : Unfolding → List Unfolding :=
  collect fun u below => below ++ if Role.function.accepts u.kind then [u] else []

variable {i : ElementId} {k : Kind} {u : Unfolding}

theorem functions_of_function (o : Origin) (us : List Unfolding) (hk : Role.function.accepts k = true) :
    functions (.node i k o us) = us.flatMap functions ++ [.node i k o us] := by
  rw [functions, collect_node, Unfolding.kind, if_pos hk]

theorem functions_of_not_function (o : Origin) (us : List Unfolding) (hk : Role.function.accepts k = false) :
    functions (.node i k o us) = us.flatMap functions := by
  rw [functions, collect_node, Unfolding.kind, if_neg (by simp [hk]), append_nil]

theorem functions_eq_append (hu : Role.function.accepts u.kind = true) :
    u.functions = u.children.flatMap functions ++ [u] := by
  cases u
  exact functions_of_function _ _ hu

theorem functions_eq_below (hu : Role.function.accepts u.kind = false) :
    u.functions = u.children.flatMap functions := by
  cases u
  exact functions_of_not_function _ _ hu

theorem functions_perm (u : Unfolding) :
    (u.functions.map id).Perm ((u.preorder.filter fun p => Role.function.accepts p.2).map Prod.fst) := by
  induction u with
  | node i k o us ih =>
    have hbelow : ((us.flatMap functions).map id).Perm
        (((us.flatMap preorder).filter fun p => Role.function.accepts p.2).map Prod.fst) := by
      rw [map_flatMap, filter_flatMap, map_flatMap]
      exact Perm.flatMap_left us ih
    rw [preorder_node, filter_cons]
    cases hk : Role.function.accepts k with
    | true =>
      rw [functions_of_function _ _ hk, map_append, if_pos rfl, map_cons]
      exact (perm_append_singleton _ _).trans (hbelow.cons i)
    | false =>
      rw [functions_of_not_function _ _ hk, if_neg Bool.false_ne_true]
      exact hbelow

theorem within_of_mem_functions {f : Unfolding} (hf : f ∈ u.functions) : f.Within u := by
  induction u with
  | node i k o us ih =>
    have hus : f ∈ us.flatMap functions → f.Within (.node i k o us) := by
      intro hf
      obtain ⟨u, hu, hf⟩ := mem_flatMap.mp hf
      exact .child hu (ih u hu hf)
    cases hk : Role.function.accepts k with
    | true =>
      rw [functions_of_function _ _ hk, mem_append, mem_singleton] at hf
      rcases hf with hf | rfl
      · exact hus hf
      · exact .here
    | false =>
      rw [functions_of_not_function _ _ hk] at hf
      exact hus hf

end Unfolding

def Kind.holdsFunctions : Kind → Bool
  | module .. | closure .. => true
  | _ => false

theorem Unfolding.Fits.not_function {i : ElementId} {k : Kind} {o : Origin} {us : List Unfolding}
    (h : Fits (.node i k o us)) (hk : k.holdsFunctions = false) :
    ∀ u ∈ us, Role.function.accepts u.kind = false := by
  intro u hu
  obtain ⟨s, hs, -, haccepts⟩ := exists_of_mem_right h.slots hu
  obtain ⟨role, child⟩ := s
  cases role with
  | function =>
    cases k with
    | whenClause c a arm => cases arm <;> simp [Kind.slots, Arm.actionRole] at hs
    | module | closure => cases hk
    | _ => simp [Kind.slots] at hs
  | _ =>
    generalize u.kind = k' at haccepts
    cases k' <;> first | rfl | cases haccepts

theorem Tree.Shows.function {t : Tree} {u f : Unfolding} (h : t.Shows u) (hf : f ∈ u.functions) :
    t.Shows f :=
  h.within (Unfolding.within_of_mem_functions hf)

namespace Generate

/-- The code of a function: that of its body, and a return of null. -/
inductive Codes : Unfolding → FunctionCode → Prop
  | function {i b name params captures lifted o body e} :
      body.Fits → Role.block.accepts body.kind = true → emit 0 body = .ok e →
      Codes (.node i (.function name params b lifted captures) o [body])
        (.ofCode name params.length captures.length (e.code ++ [.const .null, .ret]))

variable {u : Unfolding} {cs : List FunctionCode} {us : List Unfolding}

theorem Codes.accepts {c : FunctionCode} (h : Codes u c) : Role.function.accepts u.kind = true := by
  cases h
  rfl

/-- What comes out with the code of some elements is the code of the functions in them. -/
theorem Emitted.codes {row : Row} {base : Nat} {e : Emission} (h : Emitted row base us e) :
    Forall₂ Codes (us.flatMap Unfolding.functions) e.functions := by
  induction h with
  | nil | done => exact .nil
  | cons _ _ ha hb => simpa using rel_append ha hb
  | @statement _ u _ a first _ _ _ hfirst _ ha hb =>
    have heq : first.functions = a.functions := by
      rw [hfirst]
      split_ifs <;> simp
    simpa [heq] using rel_append ha hb
  | fallback _ _ ha => exact ha
  | function hbody hblock he _ ih =>
    rw [flatMap_singleton, Unfolding.functions_of_function _ _ rfl]
    exact rel_append ih (.cons (.function hbody hblock he) .nil)
  | block _ ih | caseOf _ ih | matchOf _ ih =>
    rwa [flatMap_singleton, Unfolding.functions_of_not_function _ _ rfl]
  | clause _ _ _ _ _ _ hc ha hr =>
    rw [flatMap_cons, Unfolding.functions_of_not_function _ _ rfl]
    simpa using rel_append hc (rel_append ha hr)
  | conditional _ _ _ _ _ _ _ hc ha hr =>
    rw [flatMap_singleton, Unfolding.functions_of_not_function _ _ rfl]
    simpa using rel_append hc (rel_append ha hr)
  | loop _ _ _ _ _ ha hb | shortcut _ _ _ _ _ ha hb =>
    rw [flatMap_singleton, Unfolding.functions_of_not_function _ _ rfl]
    simpa using rel_append ha hb
  | closure _ _ ih =>
    rw [flatMap_singleton, Unfolding.functions_of_not_function _ _ rfl]
    exact ih
  | @closing _ _ k _ _ _ _ hk _ _ ih =>
    rw [flatMap_singleton, Unfolding.functions_of_not_function _ _ (by cases k <;> first | rfl | cases hk)]
    simpa using ih

theorem codes_of_function (hu : u.Fits) (hf : Role.function.accepts u.kind = true) (h : outside u = .ok cs) :
    Forall₂ Codes u.functions cs := by
  obtain ⟨i, k, o, us⟩ := u
  cases k <;> simp only [kind, Role.accepts, Bool.false_eq_true] at hf
  simp only [outside_function hu, bind_eq_ok_iff] at h
  obtain ⟨e, he, ⟨⟩⟩ := h
  simpa using (emitted hu he).codes

theorem codes_of_module {i : ElementId} {name : String} {ids : List ElementId} {o : Origin}
    (hu : Unfolding.Fits (.node i (.module name ids) o us))
    (h : outside (.node i (.module name ids) o us) = .ok cs) :
    Forall₂ Codes (Unfolding.node i (.module name ids) o us).functions cs := by
  simp only [outside] at h
  rw [Unfolding.functions_of_not_function _ _ rfl]
  have hall := hu.all (r := .function) rfl
  clear hu
  induction us generalizing cs with
  | nil =>
    cases h
    exact .nil
  | cons u us ih =>
    simp only [outsideAll, bind_eq_ok_iff] at h
    obtain ⟨first, hfirst, rest, hrest, ⟨⟩⟩ := h
    obtain ⟨hu, hf⟩ := hall u (.head _)
    exact rel_append (codes_of_function hu hf hfirst) (ih hrest fun u hu => hall u (.tail _ hu))

/-- Functions come out that are code for some of these, in order, or there is a failure, which `c` rules out. -/
def Yields (c : Prop) (fs : List Unfolding) (x : Except GenerateError (List FunctionCode)) : Prop :=
  match x with
  | .ok cs => ∃ gs : List Unfolding, gs.Sublist fs ∧ Forall₂ Codes gs cs
  | .error _ => ¬ c

section
variable {c c' : Prop} {fs fs' : List Unfolding} {x : Except GenerateError (List FunctionCode)}

theorem Yields.nil : Yields c fs (pure []) := ⟨[], nil_sublist _, .nil⟩

theorem Yields.mono (h : Yields c fs x) (hc : c' → c) (hfs : fs.Sublist fs') : Yields c' fs' x := by
  cases x with
  | error => exact fun hc' => h (hc hc')
  | ok cs => exact h.imp fun gs hgs => ⟨hgs.1.trans hfs, hgs.2⟩

theorem Yields.bind {f : List FunctionCode → Except GenerateError (List FunctionCode)} (h : Yields c fs x)
    (hnext : ∀ cs, Yields c fs (pure cs) → Yields c fs' (f cs)) : Yields c fs' (x >>= f) := by
  cases x with
  | error => exact h
  | ok cs => exact hnext cs h

theorem Yields.append {cs' : List FunctionCode} (h : Yields c fs (pure cs)) (h' : Yields c fs' (pure cs')) :
    Yields c (fs ++ fs') (pure (cs ++ cs')) := by
  obtain ⟨gs, hsub, hcodes⟩ := h
  obtain ⟨gs', hsub', hcodes'⟩ := h'
  exact ⟨gs ++ gs', hsub.append hsub', rel_append hcodes hcodes'⟩

theorem Yields.resolved {α : Type} {o : Origin} {cause : Unresolved} {b : Option α}
    {f : α → Except GenerateError (List FunctionCode)} (hb : c → b.isSome = true) (h : ∀ a, Yields c fs (f a)) :
    Yields c fs (resolved o cause b >>= f) := by
  cases b with
  | none => exact fun hc => Bool.false_ne_true (hb hc)
  | some a => exact h a

theorem yields_all (h : ∀ u ∈ us, Yields c u.functions (outside u)) :
    Yields c (us.flatMap Unfolding.functions) (outsideAll us) := by
  induction us with
  | nil => exact .nil
  | cons u us ih =>
    obtain ⟨hu, hus⟩ := forall_mem_cons.mp h
    rw [flatMap_cons]
    simp only [outsideAll]
    exact hu.bind fun cs hcs => (ih hus).bind fun cs' hcs' => hcs.append hcs'

end

theorem yields_outside (hfits : u.Fits) : Yields u.Complete u.functions (outside u) := by
  induction u with
  | node i k o us ih =>
    have hus : ∀ u ∈ us, Yields (Complete (.node i k o us)) u.functions (outside u) := fun u hu =>
      (ih u hu (hfits.child u hu)).mono (fun h => h.child u hu) (.refl _)
    have hall := yields_all hus
    by_cases hf : Role.function.accepts k = true
    · cases k <;> cases hf
      rw [outside_function hfits]
      cases he : emit 0 _ with
      | error =>
        intro hcomplete
        obtain ⟨e, he'⟩ := emits hfits hcomplete 0
        rw [he] at he'
        cases he'
      | ok e => exact ⟨_, .refl _, by simpa using (emitted hfits he).codes⟩
    · rw [Unfolding.functions_of_not_function _ _ (by simpa using hf)]
      cases k with
      | function => exact absurd rfl hf
      | caseOf | matchOf | loop =>
        simp only [outside]
        exact .nil
      | conditional c a e =>
        obtain ⟨condition, action, rest, rfl, -⟩ := hfits.conditional
        rw [outside, flatMap_cons]
        exact (hus condition (by simp)).mono id (sublist_append_left _ _)
      | assignment | invocation =>
        simp only [outside]
        exact hall.bind fun cs hcs => .resolved (fun h => h.bound) fun _ => hcs
      | reference name b =>
        simp only [outside]
        exact .resolved (fun h => h.bound) fun _ => .nil
      | binary operator l r =>
        obtain ⟨left, right, rfl, -⟩ := hfits.two rfl
        simp only [outside, flatMap_cons, flatMap_nil, append_nil]
        refine (hus left (by simp)).bind fun cs hcs => ?_
        split_ifs
        · exact (hus right (by simp)).bind fun cs' hcs' => hcs.append hcs'
        · exact hcs.mono id (sublist_append_left _ _)
      | closure x captured =>
        rcases closureOp_cases hfits with ⟨_, _, _, _, _, _, _, _, rfl, hop⟩ | ⟨cause, hop, hc⟩
        · simp only [outside, hop]
          exact hall
        · simp only [outside, hop]
          exact hc
      | module | block | whenClause | returns | constant | unary =>
        simp only [outside]
        exact hall

theorem codes_of_outside (hfits : u.Fits) (h : outside u = .ok cs) :
    ∃ fs : List Unfolding, fs.Sublist u.functions ∧ Forall₂ Codes fs cs := by
  have hyields := yields_outside hfits
  rwa [h] at hyields

theorem exists_outside (hfits : u.Fits) (hcomplete : u.Complete) : ∃ cs, outside u = .ok cs := by
  have hyields := yields_outside hfits
  cases h : outside u with
  | error cause =>
    rw [h] at hyields
    exact absurd hcomplete hyields
  | ok cs => exact ⟨cs, rfl⟩

end Generate

end Clausal
