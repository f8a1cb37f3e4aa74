import Clausal.Proofs.Compile.InitializerScope
import Clausal.Proofs.Compile.KeptTitles
import Clausal.Proofs.Compile.MatchStatics
import Clausal.Proofs.Lowering.LetOrigins
import Clausal.Proofs.Scoping.Constants

/-! # Constants stay constant

A `let` statement of a source file becomes the declaration of a constant, and no other statement writes into its
slot, whatever is expanded (`constants_written_once`): each statement is lowered to one declaration
(`keys_of_unit`), the expansions keep the declarations and what stands behind them (`Pass.sameLets_runInOrder`),
and in a module without errors a constant is written by its declaration and its initializers only. -/

namespace Clausal

open List

open Ast (Node)
open Scoping Unfolding

/-- The `let` statements of a unit, in order, each with the function or closure that it belongs to. -/
def Ast.CompilationUnit.lets (unit : Ast.CompilationUnit) : List (Node × Node) :=
  unit.functions.flatMap fun f => f.letsIn f

def Kind.captures : Kind → List String
  | .function _ _ _ _ captures => captures
  | _ => []

/-! ### Modules -/

theorem letSitesIn_of_function {u : Unfolding} (hu : Role.function.accepts u.kind = true) (f g : Unfolding) :
    letSitesIn f u = letSitesIn g u := by
  obtain ⟨i, k, o, us⟩ := u
  have hk : Role.function.accepts k = true := hu
  rw [letSitesIn, letSitesIn, if_pos hk, if_pos hk]

variable {i : ElementId} {m : String} {ids : List ElementId} {o : Origin} {us : List Unfolding}

theorem letSitesIn_module (h : Fits (.node i (.module m ids) o us)) (f : Unfolding) :
    letSitesIn f (.node i (.module m ids) o us) = us.flatMap fun u => letSitesIn u u := by
  rw [letSitesIn_of_not_function rfl, letSitesAll_eq_flatMap (constant?_of_fits h nofun)]
  exact flatMap_congr fun u hu => letSitesIn_of_function (h.all rfl u hu).2 f u

theorem keys_of_unit {unit : Ast.CompilationUnit} (hfits : Fits (.node i (.module m ids) o us))
    (hus : Forall₂ Lower.IsLowered unit.functions us)
    (hfills : ∀ n ∈ unit.functions, Ast.Fills .function n) :
    (letSites (.node i (.module m ids) o us)).map LetSite.key = unit.lets.map Node.letKey := by
  rw [letSites, letSitesIn_module hfits, Ast.CompilationUnit.lets, map_flatMap, map_flatMap]
  clear hfits
  generalize unit.functions = ns at hus hfills
  induction hus with
  | nil => rfl
  | @cons n u ns us hu _ ih =>
    obtain ⟨hn, hns⟩ := forall_mem_cons.mp hfills
    rw [flatMap_cons, flatMap_cons, ih hns]
    congr 1
    exact Lower.tells_of_lowered (Ast.trim_of_fills hn) hu u n (Lower.origin_of_lowered hu)

/-! ### Passes -/

namespace Pass

theorem sameLets_runInOrder {ps : List Pass} (hps : ∀ p ∈ ps, p = matchExpansion ∨ p = caseExpansion)
    {w w' : Workbench} {u u' : Unfolding} {found : List Diagnostic} (h : w.tree.Owned)
    (hu : w.tree.unfoldRoot = some u) (hpoised : Poised none u) (hrun : runInOrder ps w = .ok found w')
    (hu' : w'.tree.unfoldRoot = some u') : Poised none u' ∧ SameLets u u' := by
  induction ps generalizing w u found with
  | nil =>
    cases hrun
    cases hu.symm.trans hu'
    exact ⟨hpoised, .refl _⟩
  | cons p ps ih =>
    obtain ⟨found1, w1, rest, hrun1, hrest, rfl⟩ := runInOrder_cons_eq_ok hrun
    obtain ⟨hp, hrests⟩ := forall_mem_cons.mp hps
    have hfits := (h.unfoldRoot_eq_some_iff.mp hu).1.fits h
    rcases hp with rfl | rfl
    · obtain ⟨_, hrun2, howned, u1, hu1, hexp, -⟩ := runNoted_matchExpansion h hu
      cases hrun1.symm.trans hrun2
      obtain ⟨hpoised', hsame⟩ := ih hrests howned hu1
        (MatchExpansion.poised_of_expanded hexp none hpoised) hrest
      exact ⟨hpoised', (MatchExpansion.sameLets_of_expanded hexp hfits).trans hsame⟩
    · obtain ⟨_, hrun2, howned, u1, hu1, hexp, -⟩ := runNoted_caseExpansion h hu
      cases hrun1.symm.trans hrun2
      obtain ⟨hpoised', hsame⟩ := ih hrests howned hu1 (CaseExpansion.poised_of_expanded hexp hpoised) hrest
      exact ⟨hpoised', (CaseExpansion.sameLets_of_expanded hexp hfits).trans hsame⟩

end Pass

namespace Compile

variable {file : SourceFile} {o : Options}

theorem exists_unit_of_front {journal journal' : Array Event} {t : Tree}
    (h : front file o journal = .ok t journal') :
    ∃ unit b b', Ast.parse file = .ok unit ∧ Lower.unit unit b = .ok t b' := by
  simp only [front, bind_apply] at h
  split at h
  · split at h
    · rename_i unit journal1 hparse
      unfold lower at h
      split at h
      · rename_i t' b hunit
        cases h
        exact ⟨unit, _, b, ast_of_parse hparse, hunit⟩
      · cases h
    · cases h
  · cases h

theorem exists_flawless {c : Compilation} (h : compile file o = .ok c) (hresolve : o.resolveLocals = true)
    (hclean : c.hasErrors = false) :
    ∃ unit i m ids org us, Ast.parse file = .ok unit ∧
      c.tree.unfoldRoot = some (.node i (.module m ids) org us) ∧ Flawless (.node i (.module m ids) org us) ∧
      (letSites (.node i (.module m ids) org us)).map LetSite.key = unit.lets.map Node.letKey := by
  obtain ⟨t, journal, -, -, -, hfront, -⟩ := stages_of_compile h
  have hcapture := captureClosures_of_validate (validate_of_front hfront) hresolve
  obtain ⟨t, journal, w, u, hfront, hexpand, hu, hfresh, -, ⟨i, m, ids, org, us, rfl⟩, hroot, hdiagnostics⟩ :=
    exists_resolve h hcapture hresolve
  obtain ⟨unit, b, b', hparse, hunit⟩ := exists_unit_of_front hfront
  obtain ⟨hfresh0, -⟩ := front_fresh hfront
  obtain ⟨i0, us0, hu0, hlowered⟩ := Lower.exists_unfoldRoot_of_unit hunit
  have hshows0 := (hfresh0.owned.unfoldRoot_eq_some_iff.mp hu0).1
  have hfits0 := hshows0.fits hfresh0.owned
  -- from lowering through the expansions
  obtain ⟨hpoised, hsame⟩ :=
    Pass.sameLets_runInOrder (fun p hp => by simpa using mem_of_mem_filter hp) hfresh0.owned hu0
      (poised_of_shows hfresh0 hshows0 nofun) hexpand hu
  have hclean' : ∀ d ∈ c.diagnostics, d.isError = false := by
    rw [Compilation.hasErrors, any_eq_false] at hclean
    exact fun d hd => Bool.eq_false_iff.mpr (hclean d hd)
  have hflawless := hfresh.flawless hpoised (hdiagnostics ▸ hclean')
  -- and through the marks of capture and resolution
  have hlets : SameLets _ (node i (.module m ids) org us).resolve.1 :=
    hsame.trans ((sameLets_marked _ _).trans (sameLets_marked _ _))
  obtain ⟨us', heq⟩ := resolve_module i m ids org us
  rw [heq] at hroot hflawless hlets
  refine ⟨unit, i, m, ids, org, us', hparse, hroot, hflawless, ?_⟩
  rw [← keys_of_unit hfits0 hlowered (Ast.fills_of_parse hparse), letSites, letSites,
    letSitesIn_module hflawless.fits, ← letSitesIn_module hflawless.fits (.node i0 _ _ us0)]
  exact hlets.keys _ _ rfl

end Compile

/-! ### Constants -/

/-- The constant of a `let` statement.  Its declaration is the only element of its function that writes into its
slot; if its value is a match then the arms of the statement behind it, which are all initializers of the constant,
do so as well. -/
structure KeptConstant (root : Unfolding) (p : Node × Node) (site : LetSite) : Prop where
  function : site.function ∈ root.functions
  origin : site.function.origin = p.1.origin
  constant : ∃ x i value b us, p.2.form = .letDecl x ∧
    site.declaration = .node i (.assignment x (some .constant) value (some b) false) p.2.origin us ∧
    (p.2.takesMatch = false → site.function.writers b.slot = [site.declaration]) ∧
    (p.2.takesMatch = true → ∃ s, site.next = some s ∧
      (site.function.writers b.slot).Perm (site.declaration :: s.arms) ∧
      ∀ a ∈ s.arms, ∃ value, a.kind = .assignment x none value (some b) true)

theorem keptConstant_of_key {root : Unfolding} (h : Flawless root) {p : Node × Node} {site : LetSite}
    (hsite : Sited root site) (hkey : site.key = Node.letKey p) : KeptConstant root p site := by
  have hfunction : site.function ∈ root.functions := by
    obtain ⟨-, -, -, -, -, -, -, -, hfunction, -⟩ := hsite
    exact hfunction
  have hsome : site.declaration.kind.constant?.isSome = true := by
    obtain ⟨-, -, -, -, -, -, -, -, -, -, -, -, -, hsome⟩ := hsite
    exact hsome
  obtain ⟨x, hx⟩ := Option.isSome_iff_exists.mp hsome
  obtain ⟨value, b, us, hd, hplain, harms⟩ := h.writers_of_sited hsite hx
  have hform : p.2.form = .letDecl x := by
    have hname : site.declaration.kind.constant? = p.2.form.constant? := congrArg LetKey.name hkey
    rw [hx] at hname
    generalize p.2.form = form at hname
    cases form <;> cases hname
    rfl
  have horigin : site.declaration.origin = p.2.origin := congrArg LetKey.origin hkey
  have hstarts : site.next.any (·.starts x) = p.2.takesMatch := by
    have hstarts := congrArg LetKey.starts hkey
    simpa only [LetSite.key, Node.letKey, hx, Option.any_some] using hstarts
  have hfills : site.next.any (·.fills x) = p.2.takesMatch := by
    have hfills := congrArg LetKey.fills hkey
    simpa only [LetSite.key, Node.letKey, hx, Option.any_some] using hfills
  rw [horigin] at hd
  refine ⟨hfunction, congrArg LetKey.function hkey, x, _, value, b, us, hform, hd, fun hmatch => ?_, fun hmatch => ?_⟩
  · exact hplain (hstarts.trans hmatch)
  · obtain ⟨s, hs, hsfills⟩ := (Option.any_eq_true _ _).mp (hfills.trans hmatch)
    exact ⟨s, hs, harms s hs hsfills⟩

/-- Constants stay constant.  Take a file that is compiled with names resolved, with or without the expansions, and
has no errors.  Its `let` statements are the declarations of constants in the tree, one by one and in order, and
the only elements of a function that write into the slot of a constant are its declaration and, if its value is a
match, the initializers behind it.  No function writes into a slot of its captures, and the code of a function
stores into a slot once for each of its elements that writes into it. -/
theorem constants_written_once {file : SourceFile} {o : Options} {c : Compilation} (h : compile file o = .ok c)
    (hresolve : o.resolveLocals = true) (hclean : c.hasErrors = false) :
    ∃ unit root, Ast.parse file = .ok unit ∧ c.tree.unfoldRoot = some root ∧
      List.Forall₂ (KeptConstant root) unit.lets root.letSites ∧
      (∀ f ∈ root.functions, ∀ s : UInt16, s.toNat < f.kind.captures.length → f.writers s = []) ∧
      ∀ p, c.program = some p → List.Forall₂ (fun f code => ∀ s : UInt16,
        code.code.countP (Op.storesTo s) = (f.writers s).length) root.functions p.functions := by
  obtain ⟨unit, i, m, ids, org, us, hparse, hroot, hflawless, hkeys⟩ := Compile.exists_flawless h hresolve hclean
  refine ⟨unit, _, hparse, hroot, ?_, fun f hf s hs => ?_, fun p hp => ?_⟩
  · have hrow : List.Forall₂ (fun p site => LetSite.key site = Node.letKey p) unit.lets
        (letSites (.node i (.module m ids) org us)) := by
      have hrefl : List.Forall₂ Eq (unit.lets.map Node.letKey)
          ((letSites (.node i (.module m ids) org us)).map LetSite.key) := by
        rw [hkeys]
        exact List.forall₂_refl _
      exact (List.forall₂_map_right_iff.mp (List.forall₂_map_left_iff.mp hrefl)).imp fun _ _ heq => heq.symm
    have hsites := (List.forall₂_and_left _ _).mpr ⟨fun _ hm => sited_of_mem_letSites hflawless.fits hm, hrow.flip⟩
    exact hsites.flip.imp fun p site hboth => keptConstant_of_key hflawless hboth.1 hboth.2
  · obtain ⟨l, env, hhomed⟩ := exists_homed hflawless.fits hf
    refine hflawless.writers_of_lt hhomed ?_
    obtain ⟨_, _, _, _, _, _, _, _, _, rfl, rfl, -⟩ := hhomed
    exact hs
  · obtain ⟨-, -, -, -, v, -, -, -, -, -, -, -, hroot', hcodes⟩ := Compile.exists_resolved h hp
    rw [← Option.some.inj (hroot.symm.trans hroot')] at hcodes
    exact hcodes.imp fun f code hcode s => hcode.countP_storesTo s

theorem knot_lets :
    (match Ast.parse knot with
      | .ok unit => decide (unit.lets.map (·.2.takesMatch) = [true])
      | .error _ => false) = true := by
  decide +kernel

theorem knot_written_once :
    ∃ c unit root, compile knot {} = .ok c ∧ c.hasErrors = false ∧ Ast.parse knot = .ok unit ∧
      unit.lets.map (·.2.takesMatch) = [true] ∧ c.tree.unfoldRoot = some root ∧
      List.Forall₂ (KeptConstant root) unit.lets root.letSites := by
  have htest := knot_expanded
  split at htest
  · rename_i t journal hfront
    split at htest
    · rename_i w hexpand
      obtain ⟨u, hu, hknot⟩ := (Option.any_eq_true _ _).mp htest
      obtain ⟨c, hc, -, hdiagnostics⟩ := Compile.exists_compile rfl rfl hfront hexpand hu
      have hclean : c.hasErrors = false := by
        rw [Compilation.hasErrors, hdiagnostics, (resolve_knot hknot).2]
        rfl
      obtain ⟨unit, root, hparse, hroot, hkept, -⟩ := constants_written_once hc rfl hclean
      have hlets := knot_lets
      rw [hparse] at hlets
      exact ⟨c, unit, root, hc, hclean, hparse, of_decide_eq_true hlets, hroot, hkept⟩
    · cases htest
  · cases htest

end Clausal
