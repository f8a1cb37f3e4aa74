import Clausal.Proofs.Bytecode.Links
import Clausal.Proofs.Compile.FrameLayout
import Clausal.Proofs.Compile.KeptTitles

/-! # Programs are linked

Code refers to functions by name, so a program only makes sense if every name that is used in it is the name
of one function, and of the right one. -/

namespace Clausal

open Unfolding List

def Op.makes (name : String) (op : Op) : Bool := op.makes?.any (·.1 == name)

/-- What an operation refers to is in a program, just once, and it comes from the right kind of element. -/
def Op.LinkedIn (u : Unfolding) (p : Program) : Op → Prop
  | call name argc => ∃ f c, (f, c) ∈ u.functions.zip p.functions ∧
      p.functions.filter (·.name == name) = [c] ∧ f ∈ u.children ∧ c.captures = 0 ∧ c.arity = argc
  | makeClosure name captures => ∃ f c, (f, c) ∈ u.functions.zip p.functions ∧
      p.functions.filter (·.name == name) = [c] ∧ f.kind.isLifted = true ∧ c.captures = captures.length
  | callBuiltin name _ => name ∈ builtins ∧ ∀ c ∈ p.functions, c.name ≠ name
  | _ => True

/-- The program of a module, in which all names are those of the functions that they should name. -/
structure Linked (u : Unfolding) (p : Program) : Prop where
  codes : Forall₂ Generate.Codes u.functions p.functions
  names : (p.functions.map (·.name)).Nodup
  ops : ∀ c ∈ p.functions, ∀ op ∈ c.code, op.LinkedIn u p
  closures : ∀ f c, (f, c) ∈ u.functions.zip p.functions → f.kind.isLifted = true →
    (p.functions.flatMap (·.code)).countP (·.makes c.name) = 1

/-! ### From modules to programs -/

def Unfolding.innerFunctions (u : Unfolding) : List Unfolding :=
  u.children.flatMap fun g => g.children.flatMap functions

/-- A module of functions, with names and calls as a program needs them. -/
structure Linkable (u : Unfolding) : Prop where
  plain : Role.function.accepts u.kind = false
  parts : ∀ g ∈ u.children, Role.function.accepts g.kind = true
  names : (u.functions.map (·.kind.signature.name)).Nodup
  top : ∀ g ∈ u.children, g.kind.isLifted = false ∧ g.kind.signature.captures = 0
  inner : ∀ f ∈ u.innerFunctions, f.kind.isLifted = true
  calls : ∀ f ∈ u.functions, ∀ name argc, .call name argc ∈ f.children.flatMap mentions →
    ∃ g ∈ u.children, g.kind.signature.name = name ∧ g.kind.signature.arity = argc
  builtin : ∀ f ∈ u.functions, ∀ name argc, .callBuiltin name argc ∈ f.children.flatMap mentions →
    name ∈ builtins ∧ ∀ g ∈ u.functions, g.kind.signature.name ≠ name
  made : (u.functions.flatMap madeBelow).Perm (u.innerFunctions.map closed)

section
variable {α β : Type} {R : α → β → Prop} {xs : List α} {ys : List β}

theorem exists_mem_zip_left (h : Forall₂ R xs ys) {x : α} (hx : x ∈ xs) :
    ∃ y, (x, y) ∈ xs.zip ys ∧ R x y := by
  induction h with
  | nil => cases hx
  | @cons a b xs ys hab _ ih =>
    rw [zip_cons_cons]
    rcases mem_cons.mp hx with rfl | hx
    · exact ⟨b, .head _, hab⟩
    · obtain ⟨y, hmem, hy⟩ := ih hx
      exact ⟨y, .tail _ hmem, hy⟩

theorem exists_mem_zip_right (h : Forall₂ R xs ys) {y : β} (hy : y ∈ ys) :
    ∃ x, (x, y) ∈ xs.zip ys ∧ R x y := by
  induction h with
  | nil => cases hy
  | @cons a b xs ys hab _ ih =>
    rw [zip_cons_cons]
    rcases mem_cons.mp hy with rfl | hy
    · exact ⟨a, .head _, hab⟩
    · obtain ⟨x, hmem, hx⟩ := ih hy
      exact ⟨x, .tail _ hmem, hx⟩

end

theorem FunctionCode.filter_name {cs : List FunctionCode} (h : (cs.map (·.name)).Nodup)
    {c : FunctionCode} (hc : c ∈ cs) : cs.filter (·.name == c.name) = [c] := by
  obtain ⟨before, after, rfl⟩ := append_of_mem hc
  rw [map_append, map_cons, nodup_append] at h
  have hbefore : before.filter (·.name == c.name) = [] := by
    rw [filter_eq_nil_iff]
    intro d hd hname
    exact h.2.2 _ (mem_map_of_mem hd) _ (.head _) (by simpa using hname)
  have hafter : after.filter (·.name == c.name) = [] := by
    rw [filter_eq_nil_iff]
    intro d hd hname
    have heq : d.name = c.name := by simpa using hname
    exact (nodup_cons.mp h.2.1).1 (heq ▸ mem_map_of_mem hd)
  rw [filter_append, filter_cons_of_pos (by simp), hbefore, hafter, nil_append]

namespace Linkable

variable {u f : Unfolding} {p : Program}

theorem innerFunctions_sublist (h : Linkable u) : u.innerFunctions.Sublist u.functions := by
  rw [functions_eq_below h.plain]
  refine Sublist.flatMap_right _ fun g hg => ?_
  rw [functions_eq_append (h.parts g hg)]
  exact sublist_append_left ..

theorem mem_innerFunctions (h : Linkable u) (hf : f ∈ u.functions) (hl : f.kind.isLifted = true) :
    f ∈ u.innerFunctions := by
  rw [functions_eq_below h.plain] at hf
  obtain ⟨g, hg, hf⟩ := mem_flatMap.mp hf
  rw [functions_eq_append (h.parts g hg), mem_append, mem_singleton] at hf
  rcases hf with hf | rfl
  · exact mem_flatMap.mpr ⟨g, hg, hf⟩
  · rw [(h.top f hg).1] at hl
    cases hl

variable (hcodes : Forall₂ Generate.Codes u.functions p.functions)
include hcodes

omit hcodes in
theorem mem_functions (h : Linkable u) {g : Unfolding} (hg : g ∈ u.children) : g ∈ u.functions := by
  rw [functions_eq_below h.plain]
  refine mem_flatMap.mpr ⟨g, hg, ?_⟩
  rw [functions_eq_append (h.parts g hg)]
  exact mem_append_right _ (.head _)

theorem map_name : p.functions.map (·.name) = u.functions.map (·.kind.signature.name) := by
  rw [← forall₂_eq_eq_eq, forall₂_map_left_iff, forall₂_map_right_iff]
  exact hcodes.flip.imp fun c f hc => congrArg Signature.name hc.signature_eq

theorem filterMap_makes :
    (p.functions.flatMap (·.code)).filterMap Op.makes? = u.functions.flatMap madeBelow := by
  rw [filterMap_flatMap, flatMap_def, flatMap_def]
  congr 1
  rw [← forall₂_eq_eq_eq, forall₂_map_left_iff, forall₂_map_right_iff]
  exact hcodes.flip.imp fun c f hc => hc.makes_eq

theorem entry (h : Linkable u) (hf : f ∈ u.functions) : ∃ c, (f, c) ∈ u.functions.zip p.functions ∧
      p.functions.filter (·.name == f.kind.signature.name) = [c] ∧ c.signature = f.kind.signature := by
  obtain ⟨c, hmem, hc⟩ := exists_mem_zip_left hcodes hf
  have hname : f.kind.signature.name = c.name := congrArg Signature.name hc.signature_eq.symm
  refine ⟨c, hmem, ?_, hc.signature_eq⟩
  rw [hname]
  refine FunctionCode.filter_name ?_ (of_mem_zip hmem).2
  rw [map_name hcodes]
  exact h.names

theorem linkedIn (h : Linkable u) : ∀ c ∈ p.functions, ∀ op ∈ c.code, op.LinkedIn u p := by
  intro c hc op hop
  obtain ⟨f, hmem, hcf⟩ := exists_mem_zip_right hcodes hc
  have hf := (of_mem_zip hmem).1
  have hmention : op.mentions = true → op ∈ f.children.flatMap mentions := fun hmentions =>
    hcf.mentions_eq ▸ mem_filter.mpr ⟨hop, hmentions⟩
  cases op with
  | call name argc =>
    obtain ⟨g, hg, rfl, rfl⟩ := h.calls f hf _ _ (hmention rfl)
    obtain ⟨d, hd, honly, hsignature⟩ := h.entry hcodes (h.mem_functions hg)
    refine ⟨g, d, hd, honly, hg, ?_, congrArg Signature.arity hsignature⟩
    exact (congrArg Signature.captures hsignature).trans (h.top g hg).2
  | callBuiltin name argc =>
    obtain ⟨hbuiltin, hnone⟩ := h.builtin f hf _ _ (hmention rfl)
    refine ⟨hbuiltin, fun d hd heq => ?_⟩
    obtain ⟨g, hmem, hg⟩ := exists_mem_zip_right hcodes hd
    exact hnone g (of_mem_zip hmem).1 ((congrArg Signature.name hg.signature_eq).symm.trans heq)
  | makeClosure name captures =>
    have hmade : (name, captures.length) ∈ u.functions.flatMap madeBelow := by
      rw [← filterMap_makes hcodes]
      exact mem_filterMap.mpr ⟨_, mem_flatMap.mpr ⟨c, hc, hop⟩, rfl⟩
    obtain ⟨g, hg, heq⟩ := mem_map.mp (h.made.mem_iff.mp hmade)
    obtain ⟨rfl, hcaptures⟩ := Prod.mk.inj heq
    obtain ⟨d, hd, honly, hsignature⟩ := h.entry hcodes (h.innerFunctions_sublist.subset hg)
    refine ⟨g, d, hd, honly, h.inner g hg, ?_⟩
    exact (congrArg Signature.captures hsignature).trans hcaptures
  | _ => exact trivial

theorem countP_makes (h : Linkable u) {c : FunctionCode} (hmem : (f, c) ∈ u.functions.zip p.functions)
    (hl : f.kind.isLifted = true) : (p.functions.flatMap (·.code)).countP (·.makes c.name) = 1 := by
  have hinner := h.mem_innerFunctions (of_mem_zip hmem).1 hl
  have hname : c.name = f.kind.signature.name :=
    congrArg Signature.name ((forall₂_iff_zip.mp hcodes).2 hmem).signature_eq
  have hnodup : (u.innerFunctions.map (·.kind.signature.name)).Nodup :=
    h.names.sublist (h.innerFunctions_sublist.map _)
  have hcount : (p.functions.flatMap (·.code)).countP (·.makes c.name) =
      (u.innerFunctions.map closed).countP (·.1 == c.name) := by
    rw [← h.made.countP_eq, ← filterMap_makes hcodes, countP_filterMap]
    congr 1
    funext op
    unfold Op.makes
    cases op.makes? <;> rfl
  rw [hcount, countP_map, hname]
  have hone := count_eq_one_of_mem hnodup (mem_map_of_mem hinner)
  rwa [count, countP_map] at hone

theorem linked (h : Linkable u) : Linked u p where
  codes := hcodes
  names := map_name hcodes ▸ h.names
  ops := h.linkedIn hcodes
  closures := fun _ _ => h.countP_makes hcodes

end Linkable

/-! ### Resolved modules -/

theorem Kind.heading_name (k : Kind) : k.heading.name = k.signature.name := by
  cases k <;> rfl

theorem Kind.captures_of_heading {k : Kind} {x : String} (h : k.heading = ⟨x, false, []⟩) :
    k.isLifted = false ∧ k.signature.captures = 0 := by
  cases k with
  | function name params b lifted captures =>
    cases lifted <;> cases h
    exact ⟨rfl, rfl⟩
  | _ => exact ⟨rfl, rfl⟩

theorem dollar_not_mem_builtins : ∀ x ∈ builtins, '$' ∉ x.toList := by decide

namespace Resolution

variable {r : Resolution}

theorem kind_settle_of_function {u : Unfolding} (hu : Role.function.accepts u.kind = true) :
    (walker.settle r u).kind = u.kind := by
  obtain ⟨i, k, o, us⟩ := u
  cases k <;> cases hu
  rfl

variable {us : List Unfolding}

theorem map_signature_settleAll (hus : ∀ u ∈ us, Role.function.accepts u.kind = true) :
    (walker.settleAll r us).map (·.kind.signature) = us.map (·.kind.signature) := by
  induction us generalizing r with
  | nil => rfl
  | cons u us ih =>
    rw [Walker.settleAll, map_cons, map_cons, kind_settle_of_function (hus u (.head _)),
      ih fun v hv => hus v (.tail _ hv)]

variable {o : Origin}

theorem Clean.of_checkMain (h : (r.checkMain o).Clean) : r.Clean := by
  unfold checkMain at h
  split_ifs at h
  · exact h
  · exact (later_complain ..).clean h

section
variable {us : List Unfolding} {o : Origin}

def start (us : List Unfolding) (o : Origin) : Resolution :=
  (({} : Resolution).enterFunctions us).checkMain o

theorem settle_module (i : ElementId) (m : String) (ids : List ElementId) :
    walker.settle {} (.node i (.module m ids) o us) =
      .node i (.module m ids) o (walker.settleAll (start us o) us) := rfl

variable (hus : ∀ u ∈ us, u.Inner ∧ Role.function.accepts u.kind = true)
  (hclean : (visitAll (start us o) us).Clean)
include hus hclean

theorem table_start :
    ((walker.settleAll (start us o) us).map (·.kind.signature.name)).Nodup ∧
      ∀ x n, (start us o).functions[x]? = some n ↔ ∃ g ∈ walker.settleAll (start us o) us,
        g.kind.signature.name = x ∧ g.kind.signature.arity = n := by
  have hsignatures := map_signature_settleAll (r := start us o) fun u hu => (hus u hu).2
  have hstart : (start us o).Clean := (later_visitAll (fun u hu => (hus u hu).1) _).clean hclean
  obtain ⟨hnodup, -, htable⟩ := table_enterFunctions (fun u hu => (hus u hu).2) hstart.of_checkMain
  refine ⟨?_, fun x n => ?_⟩
  · have hnames := congrArg (List.map Signature.name) hsignatures
    rw [map_map, map_map] at hnames
    exact hnames ▸ hnodup
  · have hmem := congrArg (fun l => ∃ s ∈ l, s.name = x ∧ s.arity = n) hsignatures
    simp only [mem_map, exists_exists_and_eq_and] at hmem
    have hfunctions : (start us o).functions = (({} : Resolution).enterFunctions us).functions :=
      functions_checkMain ..
    rw [hfunctions, htable, hmem]
    simp

theorem calls_start {f : Unfolding} (hf : f ∈ (walker.settleAll (start us o) us).flatMap Unfolding.functions) :
    ∀ op ∈ f.children.flatMap mentions, op.CallsIn (start us o).functions := by
  intro op hop
  obtain ⟨g, hg, hf⟩ := mem_flatMap.mp hf
  obtain ⟨w, hw, hop⟩ := mem_flatMap.mp hop
  obtain ⟨v, hv, hop⟩ := exists_within_of_mem_mentions hop
  have hwf : w.Within f := by
    cases f
    exact .child hw .here
  exact calls_of_within (fun u hu => (hus u hu).1) hclean hg
    (hv.trans (hwf.trans (within_of_mem_functions hf))) op hop

end

theorem linkable {i : ElementId} {m : String} {ids : List ElementId}
    (hfits : Fits (.node i (.module m ids) o us)) (hclean : (visit {} (.node i (.module m ids) o us)).Clean)
    (htitled : Titled (walker.settle {} (.node i (.module m ids) o us)).titles) :
    Linkable (walker.settle {} (.node i (.module m ids) o us)) := by
  have hcomplete := complete_settle hfits hclean
  have hfits' := walker.fits_settle hfits {}
  have hus : ∀ u ∈ us, u.Inner ∧ Role.function.accepts u.kind = true := fun u hu =>
    ⟨hfits.inner u hu, (hfits.all rfl u hu).2⟩
  rw [visit] at hclean
  obtain ⟨hnodup, htable⟩ := table_start hus hclean
  have hcalls := fun f => calls_start hus hclean (f := f)
  rw [settle_module] at hcomplete hfits' htitled ⊢
  generalize hgs : walker.settleAll (start us o) us = gs at *
  have hparts : ∀ g ∈ gs, Role.function.accepts g.kind = true := fun g hg => (hfits'.all rfl g hg).2
  have htitled : Titled (gs.map headings) := htitled
  have hfunctions : Unfolding.functions (.node i (.module m ids) o gs) = gs.flatMap Unfolding.functions :=
    functions_of_not_function _ _ rfl
  refine ⟨rfl, hparts, ?_, fun g hg => ?_, fun f hf => ?_, fun f hf name argc hop => ?_,
    fun f hf name argc hop => ?_, ?_⟩
  · have hall := htitled.nodup hparts
    simp only [Kind.heading_name] at hall
    rw [hfunctions]
    exact hall hnodup
  · obtain ⟨⟨x, hx, -⟩, -⟩ := htitled.part hg (hparts g hg)
    exact Kind.captures_of_heading hx
  · obtain ⟨g, hg, hf⟩ := mem_flatMap.mp hf
    exact ((htitled.part hg (hparts g hg)).2 f hf).1
  · rw [hfunctions] at hf
    exact (htable name argc).mp (hcalls f hf _ hop)
  · rw [hfunctions] at hf ⊢
    obtain ⟨hbuiltin, hnone⟩ := hcalls f hf _ hop
    refine ⟨hbuiltin, fun g hg hname => ?_⟩
    obtain ⟨g', hg', hg⟩ := mem_flatMap.mp hg
    rw [functions_eq_append (hparts g' hg'), mem_append, mem_singleton] at hg
    rcases hg with hg | rfl
    · have hdollar := ((htitled.part hg' (hparts g' hg')).2 g hg).2
      rw [Kind.heading_name, hname] at hdollar
      exact dollar_not_mem_builtins name hbuiltin hdollar
    · rw [(htable name _).mpr ⟨g, hg', hname, rfl⟩] at hnone
      cases hnone
  · have hrow := made_row fun g hg => made_perm (hfits'.inner g hg) (hcomplete.child g hg)
    rw [flatMap_eq_nil_iff.mpr fun g hg => made_eq_nil (hparts g hg), nil_append] at hrow
    rw [hfunctions]
    exact hrow

end Resolution

def Tree.functionIds (t : Tree) : List ElementId :=
  t.reachable.filter fun i => (t.kind? i).any Role.function.accepts

variable {t : Tree}

theorem Tree.functionIds_perm (h : t.Owned) {u : Unfolding} (hu : t.unfoldRoot = some u) :
    (u.functions.map Unfolding.id).Perm t.functionIds := by
  have hshows := (h.unfoldRoot_eq_some_iff.mp hu).1
  have hkinds : ∀ p ∈ u.preorder, (t.kind? p.1).any Role.function.accepts = Role.function.accepts p.2 := by
    intro p hp
    obtain ⟨o, us, hwithin⟩ := exists_within_of_mem hp
    have hkind := Tree.kind?_of_face? (hshows.within hwithin).face?
    rw [Unfolding.id, kind] at hkind
    rw [hkind, Option.any_some]
  rw [Tree.functionIds, h.reachable_eq hu, ids, filter_map, Function.comp_def, filter_congr hkinds]
  exact functions_perm u

theorem Compile.titled_of_program {file : SourceFile} {o : Options} {journal : Array Event}
    {found : List Diagnostic} {w : Workbench} {v : Unfolding} (hfront : front file o #[] = .ok t journal)
    (hrun : Pass.runInOrder (Pass.before o) ⟨t, journal⟩ = .ok found w) (hv : w.tree.unfoldRoot = some v) :
    Titled (Resolution.walker.settle {} v).titles := by
  obtain ⟨hfresh, hmodular⟩ := front_fresh hfront
  obtain ⟨_, _, _, _, _, hu⟩ := hmodular.unfoldRoot hfresh.owned
  have htitles := Pass.titles_runInOrder hfresh.owned hmodular hrun hu hv
  rw [Resolution.keepsHeadings.titles, htitles]
  exact titled_of_front hfront hu

/-- Programs are linked: the functions of a program are those of the compiled tree, inner ones first, with
names of their own.  A call names a function of the module, which captures nothing and takes as many
arguments, or a builtin if no function has this name.  Any other function is made into a closure by just
one operation in the program, with a slot for each name that it captures. -/
theorem program_linked {file : SourceFile} {o : Options} {c : Compilation} {p : Program}
    (h : compile file o = .ok c) (hp : c.program = some p) :
    ∃ u, c.tree.unfoldRoot = some u ∧ (u.functions.map Unfolding.id).Perm c.tree.functionIds ∧
      Linked u p := by
  obtain ⟨t, journal, found, w, v, hfront, hrun, howned, hv, hfits, hclean, howned', hroot, hcodes⟩ :=
    Compile.exists_resolved h hp
  have htitled := Compile.titled_of_program hfront hrun hv
  obtain ⟨_, hmodular⟩ := Compile.front_fresh hfront
  obtain ⟨i, m, ids, org, us, hmodule⟩ :=
    (Pass.steady_runInOrder steady_modular hrun hmodular).unfoldRoot howned
  obtain rfl := Option.some.inj (hv.symm.trans hmodule)
  exact ⟨_, hroot, Tree.functionIds_perm howned' hroot,
    (Resolution.linkable hfits hclean htitled).linked hcodes⟩

theorem linking_linked :
    ∃ c p u, compile linking { expandMatches := false, expandCases := false } = .ok c ∧
      c.program = some p ∧ p.functions.map (·.name) = ["id", "main$closure$0", "main"] ∧
      c.tree.unfoldRoot = some u ∧ (u.functions.map Unfolding.id).Perm c.tree.functionIds ∧ Linked u p := by
  obtain ⟨c, p, hc, hp, hlocals⟩ := linking_compiled
  obtain ⟨u, hu, hids, hlinked⟩ := program_linked hc hp
  have hnames := congrArg (List.map Prod.fst) hlocals
  rw [List.map_map] at hnames
  exact ⟨c, p, u, hc, hp, hnames, hu, hids, hlinked⟩

end Clausal
