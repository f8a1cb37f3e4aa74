import Clausal.Proofs.Bytecode.Functions
import Clausal.Proofs.Grammar.Derivations
import Clausal.Proofs.Lowering.ClosureNames
import Clausal.Proofs.Lowering.Fresh

/-! # The names of functions

A function of a module has the name that the source gives it, in which there is no dollar sign.  Every other
function is lifted from a closure, and its name is made up, with a dollar sign in it and unlike all others. -/

namespace Clausal

open List

open Ast (Node)

/-- What lowering decides about a function: its name, whether it is lifted from a closure, and if not,
what it captures. -/
structure Heading where
  name : String
  lifted : Bool
  captures : List String

def Kind.heading : Kind → Heading
  | .function name _ _ lifted captures => ⟨name, lifted, if lifted then [] else captures⟩
  | _ => ⟨"", false, []⟩

theorem Kind.heading_lifted (k : Kind) : k.heading.lifted = k.isLifted := by
  cases k <;> rfl

def Kind.liftedName? : Kind → Option String
  | .function name _ _ true _ => some name
  | _ => none

variable {k : Kind}

namespace Unfolding

/-- The headings of the functions in an unfolding, inner ones first. -/
def headings (u : Unfolding) : List Heading := u.functions.map (·.kind.heading)

/-- The names of the functions in an unfolding that are lifted from closures. -/
def lifted (u : Unfolding) : List String := (u.headings.filter (·.lifted)).map (·.name)

/-- The headings of the functions in the parts of an unfolding, part by part. -/
def titles (u : Unfolding) : List (List Heading) := u.children.map headings

variable {i : ElementId} {k : Kind}

theorem headings_of_function (o : Origin) (us : List Unfolding) (hk : Role.function.accepts k = true) :
    headings (.node i k o us) = (us.map headings).flatten ++ [k.heading] := by
  rw [headings, functions_of_function _ _ hk, map_append, map_flatMap]
  rfl

theorem headings_of_not_function (o : Origin) (us : List Unfolding) (hk : Role.function.accepts k = false) :
    headings (.node i k o us) = (us.map headings).flatten := by
  rw [headings, functions_of_not_function _ _ hk, map_flatMap]
  rfl

theorem flatMap_lifted (us : List Unfolding) :
    us.flatMap lifted = ((us.map headings).flatten.filter (·.lifted)).map (·.name) := by
  rw [← flatMap_def, filter_flatMap, map_flatMap]
  rfl

theorem lifted_node (i : ElementId) (k : Kind) (o : Origin) (us : List Unfolding) :
    lifted (.node i k o us) = us.flatMap lifted ++ k.liftedName?.toList := by
  rw [flatMap_lifted]
  cases hk : Role.function.accepts k with
  | true =>
    rw [lifted, headings_of_function _ _ hk, filter_append, map_append]
    cases k <;> cases hk
    rename_i l _
    cases l <;> rfl
  | false =>
    rw [lifted, headings_of_not_function _ _ hk]
    cases k <;> first | exact (append_nil _).symm | cases hk

theorem name_mem_lifted {u f : Unfolding} (hf : f ∈ u.functions) (hl : f.kind.isLifted = true) :
    f.kind.heading.name ∈ u.lifted :=
  mem_map_of_mem (mem_filter.mpr ⟨mem_map_of_mem hf, (Kind.heading_lifted _).trans hl⟩)

end Unfolding

/-- The functions of a module come after those in them, their names have no dollar sign and they capture
nothing.  The others are lifted from closures, and have names with a dollar sign, each its own. -/
structure Titled (hss : List (List Heading)) : Prop where
  top : ∀ hs ∈ hss, ∃ inner x, hs = inner ++ [⟨x, false, []⟩] ∧ '$' ∉ x.toList ∧
    ∀ h ∈ inner, h.lifted = true ∧ '$' ∈ h.name.toList
  apart : ((hss.flatten.filter (·.lifted)).map (·.name)).Nodup

namespace Titled

theorem dollar_mem {hss : List (List Heading)} (h : Titled hss) {hs : List Heading} (hhs : hs ∈ hss)
    {heading : Heading} (hmem : heading ∈ hs) (hl : heading.lifted = true) :
    '$' ∈ heading.name.toList := by
  obtain ⟨inner, x, rfl, -, hinner⟩ := h.top hs hhs
  rcases mem_append.mp hmem with hmem | hmem
  · exact (hinner _ hmem).2
  · obtain rfl := mem_singleton.mp hmem
    cases hl

variable {us : List Unfolding} {g : Unfolding}

theorem part (h : Titled (us.map Unfolding.headings)) (hg : g ∈ us) (hk : Role.function.accepts g.kind = true) :
    (∃ x, g.kind.heading = ⟨x, false, []⟩ ∧ '$' ∉ x.toList) ∧
      ∀ f ∈ g.children.flatMap Unfolding.functions, f.kind.isLifted = true ∧
        '$' ∈ f.kind.heading.name.toList := by
  obtain ⟨inner, x, heq, hx, hinner⟩ := h.top _ (mem_map_of_mem hg)
  rw [Unfolding.headings, Unfolding.functions_eq_append hk, map_append] at heq
  obtain ⟨rfl, hlast⟩ := append_inj' heq rfl
  refine ⟨⟨x, (List.cons.inj hlast).1, hx⟩, fun f hf => ?_⟩
  rw [← Kind.heading_lifted]
  exact hinner _ (mem_map_of_mem hf)

theorem filter_headings (h : Titled (us.map Unfolding.headings)) (hg : g ∈ us)
    (hk : Role.function.accepts g.kind = true) : g.headings.filter (!·.lifted) = [g.kind.heading] := by
  obtain ⟨⟨x, hx, -⟩, hinner⟩ := h.part hg hk
  have hbelow : ((g.children.flatMap Unfolding.functions).map (·.kind.heading)).filter (!·.lifted) = [] := by
    rw [filter_eq_nil_iff]
    intro heading hmem
    obtain ⟨f, hf, rfl⟩ := mem_map.mp hmem
    rw [Kind.heading_lifted, (hinner f hf).1]
    exact Bool.false_ne_true
  rw [Unfolding.headings, Unfolding.functions_eq_append hk, map_append, filter_append, hbelow,
    map_singleton, hx]
  rfl

theorem nodup (h : Titled (us.map Unfolding.headings))
    (hus : ∀ g ∈ us, Role.function.accepts g.kind = true)
    (hnames : (us.map (·.kind.heading.name)).Nodup) :
    ((us.flatMap Unfolding.functions).map (·.kind.heading.name)).Nodup := by
  have hunlifted : (us.flatMap Unfolding.headings).filter (!·.lifted) = us.map (·.kind.heading) := by
    rw [filter_flatMap, flatMap_congr fun g hg => h.filter_headings hg (hus g hg),
      ← map_eq_flatMap]
  have hall : (us.flatMap Unfolding.functions).map (·.kind.heading.name) =
      (us.flatMap Unfolding.headings).map Heading.name := by
    simp only [map_flatMap, Unfolding.headings, map_map, Function.comp_def]
  have hperm := (filter_append_perm (·.lifted) (us.flatMap Unfolding.headings)).map Heading.name
  rw [hall, ← hperm.nodup_iff, map_append, hunlifted, map_map]
  refine nodup_append.mpr ⟨h.apart, hnames, ?_⟩
  intro x hx y hy hxy
  obtain ⟨heading, hmem, rfl⟩ := mem_map.mp hx
  obtain ⟨hmem, hl⟩ := mem_filter.mp hmem
  obtain ⟨g, hg, hmem⟩ := mem_flatMap.mp hmem
  obtain ⟨g', hg', rfl⟩ := mem_map.mp hy
  obtain ⟨⟨z, hz, hdollar⟩, -⟩ := h.part hg' (hus g' hg')
  have hname : heading.name = z := hxy.trans (congrArg Heading.name hz)
  exact hdollar (hname ▸ h.dollar_mem (mem_map_of_mem hg) hmem hl)

end Titled

theorem Unfolding.Plain.lifted_or {u f : Unfolding} (h : u.Plain) (hu : u.Inner) (hf : f ∈ u.functions) :
    f.kind.isLifted = true ∨ f = u ∧ Role.function.accepts u.kind = true := by
  induction u with
  | node i k o us ih =>
    have hbelow : f ∈ us.flatMap functions → f.kind.isLifted = true := by
      intro hf
      obtain ⟨v, hv, hf⟩ := mem_flatMap.mp hf
      rcases ih v hv (h.child hv) (hu.1.inner v hv) hf with hlifted | ⟨rfl, hv'⟩
      · exact hlifted
      · cases k with
        | closure => exact h.lifted hv
        | module =>
          obtain ⟨-, role, haccepts⟩ := hu
          cases role <;> cases haccepts
        | _ =>
          rw [hu.1.not_function rfl f hv] at hv'
          cases hv'
    cases hk : Role.function.accepts k with
    | true =>
      rw [functions_of_function _ _ hk, mem_append, mem_singleton] at hf
      exact hf.imp hbelow fun hf => ⟨hf, hk⟩
    | false =>
      rw [functions_of_not_function _ _ hk] at hf
      exact .inl (hbelow hf)

theorem Unfolding.Plain.lifted_below {i : ElementId} {o : Origin} {us : List Unfolding}
    (h : Plain (.node i k o us)) (hfits : Fits (.node i k o us)) (hk : k.holdsFunctions = false) :
    ∀ f ∈ us.flatMap functions, f.kind.isLifted = true := by
  intro f hf
  obtain ⟨v, hv, hf⟩ := mem_flatMap.mp hf
  rcases (h.child hv).lifted_or (hfits.inner v hv) hf with hlifted | ⟨-, hv'⟩
  · exact hlifted
  · rw [hfits.not_function hk v hv] at hv'
    cases hv'

/-! ### Lowering -/

namespace Lower

open Unfolding

section
variable {n body : Node} {u b : Unfolding} {ns : List Node} {us : List Unfolding} {m m' : Names}

/-- What a node becomes has the names that are given out for the closures in it. -/
def IsNaming (n : Node) : Prop := ∀ m u m', Lowered m n u m' → m.Gives m' u.lifted

theorem Row.gives (h : Row Lowered m ns us m') (hns : ∀ n ∈ ns, IsNaming n) : m.Gives m' (us.flatMap lifted) := by
  induction h with
  | nil => exact .refl _
  | cons hn _ ih =>
    obtain ⟨hnaming, hns⟩ := forall_mem_cons.mp hns
    exact (hnaming _ _ _ hn).append (ih hns)

theorem gives_node {i : ElementId} {k : Kind} {o : Origin} (hk : k.liftedName? = none)
    (h : m.Gives m' (us.flatMap lifted)) : m.Gives m' (lifted (.node i k o us)) := by
  rwa [lifted_node, hk, Option.toList_none, append_nil]

theorem Body.gives (h : Body Lowered body m b m') (hbody : IsNaming body) : m.Gives m' b.lifted := by
  cases h with
  | block hlowered => exact hbody _ _ _ hlowered
  | value _ hlowered =>
    refine gives_node rfl ?_
    rw [flatMap_singleton]
    exact gives_node rfl (Row.gives (.cons hlowered .nil) (forall_mem_singleton.mpr hbody))

theorem StatementRow.gives (h : StatementRow Lowered m ns us m') (hns : ∀ n ∈ ns, IsNaming n)
    (hparts : ∀ n ∈ ns, ∀ part ∈ n.parts, IsNaming part) : m.Gives m' (us.flatMap lifted) := by
  induction h with
  | nil => exact .refl _
  | one _ hlowered _ ih =>
    rw [forall_mem_cons] at hns hparts
    exact (hns.1 _ _ _ hlowered).append (ih hns.2 hparts.2)
  | @two m m1 _ i j c _ x d o value _ _ v us _ _ hlowered _ ih =>
    rw [forall_mem_cons] at hns hparts
    have hv : m.Gives m1 (lifted (.node j (.assignment x none v.id none true) o [v])) :=
      gives_node rfl (Row.gives (.cons hlowered .nil) (forall_mem_singleton.mpr (hparts.1 value (.head _))))
    exact hv.append (ih hns.2 hparts.2)

theorem ClauseRow.gives {ps : List (Unfolding × Unfolding)} {fallback : Option Unfolding}
    (h : ClauseRow Lowered m ns ps fallback m') (hparts : ∀ n ∈ ns, ∀ part ∈ n.parts, IsNaming part) :
    m.Gives m' (ps.flatMap (fun p => p.1.lifted ++ p.2.lifted) ++ fallback.toList.flatMap lifted) := by
  induction h with
  | nil => exact .refl _
  | clause hcondition haction _ ih =>
    rw [forall_mem_cons] at hparts
    have hc := hparts.1 _ (.head _) _ _ _ hcondition
    have ha := hparts.1 _ (.tail _ (.head _)) _ _ _ haction
    rw [flatMap_cons, append_assoc]
    exact (hc.append ha).append (ih hparts.2)
  | fallback haction _ ih =>
    rw [forall_mem_cons] at hparts
    have ha := (hparts.1 _ (.head _) _ _ _ haction).append (ih hparts.2)
    -- the fallback comes last, wherever it stands
    refine ha.perm (perm_append_comm.trans ?_)
    simp

theorem isNaming (n : Node) : IsNaming n := by
  induction n using Ast.Node.induct₂ with
  | mk form origin parts ih ih' =>
    have hparts : ∀ {ns us m m'}, (∀ n ∈ ns, n ∈ parts) → Row Lowered m ns us m' → m.Gives m' (us.flatMap lifted) :=
      fun hns hrow => hrow.gives fun n hn => ih n (hns n hn)
    intro m u m' h
    cases h with
    | function hbody =>
      refine gives_node rfl ?_
      rw [flatMap_singleton]
      exact (hbody.gives (ih _ (.head _))).within
    | block hrow => exact gives_node rfl (hrow.gives ih ih')
    | declaration _ hv | assign hv | returns hv | unary _ hv =>
      exact gives_node rfl (hparts (by simp) (.cons hv .nil))
    | returnsNothing => exact gives_node rfl (.refl _)
    | conditional hc ha => exact gives_node rfl (hparts (fun _ => id) (.cons hc (.cons ha .nil)))
    | conditionalElse hc ha he => exact gives_node rfl (hparts (by simp) (.cons hc (.cons ha (.cons he .nil))))
    | loop hc hb => exact gives_node rfl (hparts (by simp) (.cons hc (.cons hb .nil)))
    | @alternatives _ _ _ _ _ arm _ ps us f _ hrow hus =>
      refine gives_node (by cases arm <;> rfl) ?_
      have hclauses : us.flatMap lifted = ps.flatMap fun p => p.1.lifted ++ p.2.lifted := by
        refine flatMap_eq_of_forall₂ (hus.flip.imp fun u p hu => ?_)
        rw [hu, clauseOf, lifted_node]
        simp [Kind.liftedName?]
      rw [flatMap_append, hclauses]
      exact hrow.gives ih'
    | binary _ hl hr => exact gives_node rfl (hparts (by simp) (.cons hl (.cons hr .nil)))
    | call hrow => exact gives_node rfl (hparts (fun _ => id) hrow)
    | @closure _ _ _ _ _ _ _ _ b hbody =>
      refine gives_node rfl ?_
      rw [flatMap_singleton, lifted_node, flatMap_singleton]
      -- the name is given out before the names for closures in the body
      exact ((Names.Gives.next m).append (hbody.gives (ih _ (.head _))).within).perm perm_append_comm
    | leaf hleaf => exact gives_node (by cases form <;> cases hleaf <;> rfl) (.refl _)

end

theorem dollar_not_mem {x : String} (h : ∀ c ∈ x.toList, Grammar.isNameChar c = true) : '$' ∉ x.toList := by
  intro hmem
  have hchar := h _ hmem
  revert hchar
  decide

theorem titled_of_unit {t : Tree} {u : Ast.CompilationUnit} {b b' : Builder} {root : Unfolding}
    (hrun : unit u b = .ok t b') (hu : ∀ n ∈ u.functions, n.IsNamed) (hroot : t.unfoldRoot = some root) :
    Titled root.titles := by
  obtain ⟨hfresh, -⟩ := unit_fresh hrun
  obtain ⟨i, us, m, hdrawn, hrow, -⟩ := unit_drawn hrun
  cases hroot.symm.trans hdrawn
  obtain ⟨hshows, -⟩ := hfresh.owned.unfoldRoot_eq_some_iff.mp hroot
  have hplain := (hfresh.unfolding hshows).plain
  have hfits := hshows.fits hfresh.owned
  have hgives := hrow.gives fun n _ => isNaming n
  refine ⟨fun hs hmem => ?_, flatMap_lifted us ▸ hgives.nodup⟩
  obtain ⟨g, hg, rfl⟩ := mem_map.mp hmem
  obtain ⟨n, hn, _, _, hlowered⟩ := exists_of_mem_right hrow.isLowered hg
  obtain ⟨x, params, hform, hx⟩ := hu n hn
  obtain ⟨x', _, body, hform', hkind⟩ := hlowered.form_of_function (hfits.all rfl g hg).2
  cases hform.symm.trans hform'
  obtain ⟨j, gk, go, gs⟩ := g
  obtain rfl : gk = _ := hkind
  refine ⟨_, x, headings_of_function _ _ rfl, dollar_not_mem hx, fun h hh => ?_⟩
  obtain ⟨_, hhs, hh⟩ := mem_flatten.mp hh
  obtain ⟨v, hv, rfl⟩ := mem_map.mp hhs
  obtain ⟨f, hf, rfl⟩ := mem_map.mp hh
  have hl := (hplain.child hg).lifted_below (hfits.child _ hg) rfl f (mem_flatMap.mpr ⟨v, hv, hf⟩)
  refine ⟨(Kind.heading_lifted _).trans hl, ?_⟩
  have hmem : f.kind.heading.name ∈ us.flatMap lifted := by
    refine mem_flatMap.mpr ⟨_, hg, ?_⟩
    rw [lifted_node]
    exact mem_append_left _ (mem_flatMap.mpr ⟨v, hv, name_mem_lifted hf hl⟩)
  obtain ⟨_, _, -, hname⟩ := (hgives.fresh _ hmem).2
  rw [hname]
  exact Names.dollar_mem_closureName ..

end Lower

end Clausal
