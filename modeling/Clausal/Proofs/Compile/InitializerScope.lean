import Clausal.Proofs.Compile.Generation
import Clausal.Proofs.Scoping.Announcements

/-! # What an initializer sees

When closures are captured and names resolved, the expansions leave a fresh module, in which initializers come
after declarations (`Pass.fresh_runInOrder`), and the compiled tree is what capture and resolution make of it
(`Compile.exists_resolve`). -/

namespace Clausal

open Scoping

namespace Pass

/-- The passes that rewrite statements, as far as they are enabled. -/
def expansions (o : Options) : List Pass := [matchExpansion, caseExpansion].filter (·.enabled o)

theorem enabled_eq_expansions {o : Options} (hcapture : o.captureClosures = true)
    (hresolve : o.resolveLocals = true) :
    all.filter (·.enabled o) = expansions o ++ [closureCapture, localResolution] := by
  have hsplit : all = [matchExpansion, caseExpansion] ++ [closureCapture, localResolution] := rfl
  rw [hsplit, List.filter_append, expansions]
  congr 1
  simp [enabled, hcapture, hresolve]

variable {w w' : Workbench} {u : Unfolding} {found : List Diagnostic}

theorem fresh_runInOrder {ps : List Pass} (hps : ∀ p ∈ ps, p = matchExpansion ∨ p = caseExpansion)
    (h : w.tree.Owned) (hu : w.tree.unfoldRoot = some u) (hplain : u.Plain) (hannounced : Announced [] u)
    (hrun : runInOrder ps w = .ok found w') :
    found = [] ∧ w'.tree.Owned ∧ ∃ u', w'.tree.unfoldRoot = some u' ∧ u'.Plain ∧ Announced [] u' := by
  induction ps generalizing w u found with
  | nil =>
    cases hrun
    exact ⟨rfl, h, u, hu, hplain, hannounced⟩
  | cons p ps ih =>
    obtain ⟨found1, w1, rest, hrun1, hrest, rfl⟩ := runInOrder_cons_eq_ok hrun
    obtain ⟨hp, hrests⟩ := List.forall_mem_cons.mp hps
    rcases hp with rfl | rfl
    · obtain ⟨_, hrun2, howned, u1, hu1, hexp, -⟩ := runNoted_matchExpansion h hu
      cases hrun1.symm.trans hrun2
      exact ih hrests howned hu1 (MatchExpansion.plain_of_expanded hexp hplain)
        (MatchExpansion.announced_of_expanded hexp [] hannounced) hrest
    · obtain ⟨_, hrun2, howned, u1, hu1, hexp, -⟩ := runNoted_caseExpansion h hu
      cases hrun1.symm.trans hrun2
      exact ih hrests howned hu1 (CaseExpansion.plain_of_expanded hexp hplain)
        (CaseExpansion.announced_of_expanded hexp hannounced) hrest

theorem resolve_of_runInOrder (h : w.tree.Owned) (hu : w.tree.unfoldRoot = some u)
    (hrun : runInOrder [closureCapture, localResolution] w = .ok found w') :
    w'.tree.unfoldRoot = some u.resolve.1 ∧ found = u.resolve.2 := by
  obtain ⟨_, w1, _, hcapture, hrest, rfl⟩ := runInOrder_cons_eq_ok hrun
  obtain ⟨_, w2, _, hresolve, hnil, rfl⟩ := runInOrder_cons_eq_ok hrest
  cases hnil
  obtain ⟨_, hcapture', howned, hu1⟩ := runNoted_eq (.inl rfl) h hu
  cases hcapture.symm.trans hcapture'
  obtain ⟨_, hresolve', -, hu2⟩ := runNoted_eq (.inr rfl) howned hu1
  cases hresolve.symm.trans hresolve'
  exact ⟨hu2, List.append_nil _⟩

end Pass

namespace Compile

variable {file : SourceFile} {o : Options}

/-- A tree that was compiled with closures captured and names resolved is what these two passes make of a
fresh module, in which initializers come after declarations. -/
theorem exists_resolve {c : Compilation} (h : compile file o = .ok c) (hcapture : o.captureClosures = true)
    (hresolve : o.resolveLocals = true) :
    ∃ t journal w u, front file o #[] = .ok t journal ∧
      Pass.runInOrder (Pass.expansions o) ⟨t, journal⟩ = .ok [] w ∧ w.tree.unfoldRoot = some u ∧
      u.Fresh ∧ Announced [] u ∧ (∃ i m ids org us, u = .node i (.module m ids) org us) ∧
      c.tree.unfoldRoot = some u.resolve.1 ∧ c.diagnostics = u.resolve.2 := by
  obtain ⟨t, journal, found, w', journal', hfront, hpasses, hfinish⟩ := stages_of_compile h
  obtain ⟨hfresh, hmodular⟩ := front_fresh hfront
  obtain ⟨htree, hdiagnostics⟩ := kept_of_finish hfinish
  rw [runPasses, Pass.enabled_eq_expansions hcapture hresolve] at hpasses
  obtain ⟨found1, w, rest, hexpand, hlast, rfl⟩ := Pass.runInOrder_append_eq_ok hpasses
  -- before the passes
  obtain ⟨i, m, ids, org, us, hroot⟩ := hmodular.unfoldRoot hfresh.owned
  have hshows := (hfresh.owned.unfoldRoot_eq_some_iff.mp hroot).1
  have hannounced : Announced [] (.node i (.module m ids) org us) :=
    announced_of_shows hfresh hshows (by rintro _ ⟨⟩)
  -- after the expansions
  obtain ⟨rfl, howned, u, hu, hplain, hannounced'⟩ :=
    Pass.fresh_runInOrder (fun p hp => by simpa using List.mem_of_mem_filter hp) hfresh.owned hroot
      (hfresh.unfolding hshows).plain hannounced hexpand
  have hshows' := (howned.unfoldRoot_eq_some_iff.mp hu).1
  obtain ⟨i', m', ids', org', us', hu'⟩ :=
    (Pass.steady_runInOrder steady_modular hexpand hmodular).unfoldRoot howned
  cases hu.symm.trans hu'
  -- after all passes
  obtain ⟨hlast', rfl⟩ := Pass.resolve_of_runInOrder howned hu hlast
  refine ⟨t, journal, w, _, hfront, hexpand, hu, ⟨hshows'.fits howned, hshows'.nodup_ids howned, hplain⟩,
    hannounced', ⟨_, _, _, _, _, rfl⟩, ?_, ?_⟩
  · rw [htree, hlast']
  · rw [hdiagnostics, List.nil_append]

theorem exists_compile (hcapture : o.captureClosures = true) (hresolve : o.resolveLocals = true) {t : Tree}
    {journal : Array Event} {w : Workbench} {u : Unfolding} (hfront : front file o #[] = .ok t journal)
    (hexpand : Pass.runInOrder (Pass.expansions o) ⟨t, journal⟩ = .ok [] w) (hu : w.tree.unfoldRoot = some u) :
    ∃ c, compile file o = .ok c ∧ c.tree.unfoldRoot = some u.resolve.1 ∧ c.diagnostics = u.resolve.2 := by
  cases hc : compile file o with
  | error e =>
    obtain ⟨_, herror⟩ := front_of_error hc
    cases hfront.symm.trans herror
  | ok c =>
    obtain ⟨_, _, _, _, hfront', hexpand', hu', -, -, -, hroot, hdiagnostics⟩ :=
      exists_resolve hc hcapture hresolve
    cases hfront.symm.trans hfront'
    cases hexpand.symm.trans hexpand'
    cases hu.symm.trans hu'
    exact ⟨c, rfl, hroot, hdiagnostics⟩

end Compile

namespace Unfolding

theorem resolve_module (i : ElementId) (m : String) (ids : List ElementId) (o : Origin)
    (us : List Unfolding) :
    ∃ us', (Unfolding.node i (.module m ids) o us).resolve.1 = .node i (.module m ids) o us' := by
  have hmodule : ∀ as, rekind i as (.module m ids) = .module m ids := fun as =>
    rekind_eq_self i as fun a => by cases a <;> rfl
  rw [resolve, marked_node, marked_node, hmodule, hmodule]
  exact ⟨_, rfl⟩

variable {u v : Unfolding} {env : List Layer} {x : String}

theorem Fresh.fits_resolve (hu : u.Fresh) : u.resolve.1.Fits := (hu.fits.marked _).marked _

theorem Fresh.nodup_resolve (hu : u.Fresh) : u.resolve.1.ids.Nodup := by
  rw [resolve, ids_marked, ids_marked]
  exact hu.nodup

theorem Fresh.useResolved (hu : u.Fresh) (hroom : Roomy u.resolve.2) {e w : Unfolding}
    (he : At u.resolve.1 env e) (hfits : e.Fits) (hinline : isInline e.kind = true) (hw : w.Within e)
    (hk : isPlaced w.kind = true) :
    ∃ inner, At u.resolve.1 (inner ++ env) w ∧ ((∀ m ∈ inner, m.find? x = none) →
      UseResolved (functionNames u.resolve.1) u.resolve.2 inner env x w) := by
  obtain ⟨inner, hat, hstatement⟩ := exists_at_inline hfits hinline he hw hk
  refine ⟨inner, hat, fun hinner => ?_⟩
  obtain ⟨l, rest, heq, -, -, hresolved⟩ := hu.resolved_of_at hroom hat
  rw [resolve, functionNames_marked, functionNames_marked]
  exact hresolved.use heq hinner hstatement

end Unfolding

/-- Initializers are scoped.  In a tree that was compiled with closures captured and names resolved,
everything has a place.  A declaration is not known at its place, but where a name is initialized by a
statement of its own, the name means a variable of the same function.  If no frame ran out of slots, a use
of the name in the value of a declaration or an assignment, outside of closures in the value that declare it,
has been resolved to what the name means at the place of the statement, or is reported. -/
theorem initializers_scoped {file : SourceFile} {o : Options} {c : Compilation}
    (h : compile file o = .ok c) (hcapture : o.captureClosures = true) (hresolve : o.resolveLocals = true) :
    ∃ root, c.tree.unfoldRoot = some root ∧
      (∀ v, v.Within root → isPlaced v.kind = true → ∃ env, At root env v) ∧
      ∀ env i x d value b initializer org us,
        At root env (.node i (.assignment x d value b initializer) org us) →
        (∀ l ∈ env, ∀ constant, l.find? x ≠ some (.local i constant)) ∧
        (initializer = true → ∃ l env' j constant, env = l :: env' ∧ l.find? x = some (.local j constant)) ∧
        (Roomy c.diagnostics → ∀ e ∈ us, ∀ w, w.Within e → isPlaced w.kind = true →
          ∃ inner, At root (inner ++ env) w ∧ ((∀ m ∈ inner, m.find? x = none) →
            UseResolved (functionNames root) c.diagnostics inner env x w)) := by
  obtain ⟨-, -, -, u, -, -, -, hu, hannounced, ⟨j, m, ids, org, us, hmodule⟩, hroot, hdiagnostics⟩ :=
    Compile.exists_resolve h hcapture hresolve
  have hfits := hu.fits_resolve
  refine ⟨_, hroot, fun v hv hk => ?_, ?_⟩
  · subst hmodule
    obtain ⟨us', heq⟩ := Unfolding.resolve_module j m ids org us
    rw [heq] at hfits hv ⊢
    obtain ⟨l, env, hat⟩ := exists_at_of_within_module hfits hv hk
    exact ⟨l :: env, hat⟩
  · intro env i x d value b initializer org us hat
    refine ⟨fun l hl constant => hat.find?_ne_self hu.nodup_resolve hl x constant, ?_, ?_⟩
    · rintro rfl
      obtain ⟨l, env', rfl, -⟩ := ((hannounced.marked _).marked _).of_at hat
      obtain ⟨j, constant, hfind⟩ := ((hannounced.marked _).marked _).find?_of_at hu.nodup_resolve hat rfl
      exact ⟨l, env', j, constant, rfl, hfind⟩
    · intro hroom e he w hw hk
      rw [hdiagnostics] at hroom ⊢
      obtain ⟨e, rfl, hefits, hexpression⟩ := (hat.fits hfits).one rfl
      obtain rfl := List.mem_singleton.mp he
      exact hu.useResolved hroom (hat.part rfl he) hefits (isInline_of_isExpression hexpression) hw hk

/-! ### Instances -/

/-- A parameter, and a variable of the same name whose value is a closure with the parameter. -/
def shadowing : SourceFile :=
  ⟨"shadowing", "shadowing", "module m function main=|x|{let x=|a|{return x} return x}"⟩

theorem shadowing_expanded :
    (match Compile.front shadowing {} #[] with
      | .ok t journal =>
        match Pass.runInOrder (Pass.expansions {}) ⟨t, journal⟩ with
        | .ok [] w => w.tree.unfoldRoot.any fun u => (u.marked (Capture.visit {} u).marks).brings ≤ frameLimit
        | _ => false
      | .error _ _ => false) = true := by
  decide +kernel

theorem shadowing_scoped :
    ∃ c root, compile shadowing {} = .ok c ∧ Roomy c.diagnostics ∧ c.tree.unfoldRoot = some root ∧
      ∀ env i x d value b initializer org us,
        At root env (.node i (.assignment x d value b initializer) org us) →
        (∀ l ∈ env, ∀ constant, l.find? x ≠ some (.local i constant)) ∧
        ∀ e ∈ us, ∀ w, w.Within e → isPlaced w.kind = true →
          ∃ inner, At root (inner ++ env) w ∧ ((∀ m ∈ inner, m.find? x = none) →
            UseResolved (functionNames root) c.diagnostics inner env x w) := by
  have htest := shadowing_expanded
  split at htest
  · rename_i t journal hfront
    split at htest
    · rename_i w hexpand
      obtain ⟨u, hu, hbrings⟩ := (Option.any_eq_true _ _).mp htest
      obtain ⟨c, hc, -, hdiagnostics⟩ := Compile.exists_compile rfl rfl hfront hexpand hu
      have hroom : Roomy c.diagnostics := by
        rw [hdiagnostics]
        exact Resolution.roomy_of_brings (of_decide_eq_true hbrings)
      obtain ⟨root, hroot, -, hscoped⟩ := initializers_scoped hc rfl rfl
      refine ⟨c, root, hc, hroom, hroot, fun env i x d value b initializer org us hat => ?_⟩
      obtain ⟨hself, -, huses⟩ := hscoped env i x d value b initializer org us hat
      exact ⟨hself, huses hroom⟩
    · cases htest
  · cases htest

def knot : SourceFile :=
  ⟨"knot", "knot", "module demo function main=||{let x=match{when true then x otherwise 0} return x}"⟩

/-- What the expansions make of `knot`, wherever its parts came from. -/
def isKnot : Unfolding → Bool
  | .node 12 (.module "demo" [11]) _ [.node 11 (.function "main" [] 10 false []) _ [
      .node 10 (.block [1, 25, 9]) _ [
        .node 1 (.assignment "x" (some .constant) 0 none false) _ [.node 0 (.constant .null) _ []],
        .node 25 (.conditional 2 16 (some 20)) _ [.node 2 (.constant (.bool true)) _ [],
          .node 16 (.block [15]) _ [.node 15 (.assignment "x" none 3 none true) _ [
            .node 3 (.reference "x" none) _ []]],
          .node 20 (.block [19]) _ [.node 19 (.assignment "x" none 4 none true) _ [
            .node 4 (.constant _) _ []]]],
        .node 9 (.returns (some 8)) _ [.node 8 (.reference "x" none) _ []]]]] => true
  | _ => false

theorem knot_expanded :
    (match Compile.front knot {} #[] with
      | .ok t journal =>
        match Pass.runInOrder (Pass.expansions {}) ⟨t, journal⟩ with
        | .ok [] w => w.tree.unfoldRoot.any isKnot
        | _ => false
      | .error _ _ => false) = true := by
  decide +kernel

/-- What an element that declares a name or refers to it is bound to. -/
def Kind.slotOf? (x : String) : Kind → Option Binding
  | .assignment y (some _) _ binding _ => if y = x then binding else none
  | .reference y binding => if y = x then binding else none
  | _ => none

/-- The declarations of a name and the references to it, in order, with what they are bound to. -/
def Unfolding.slotsOf (x : String) (u : Unfolding) : List (ElementId × Binding) :=
  u.preorder.filterMap fun p => (p.2.slotOf? x).map (p.1, ·)

theorem resolve_knot {u : Unfolding} (h : isKnot u = true) :
    u.resolve.1.slotsOf "x" = [(1, ⟨0, .local⟩), (3, ⟨0, .local⟩), (8, ⟨0, .local⟩)] ∧ u.resolve.2 = [] := by
  unfold isKnot at h
  split at h
  · constructor <;> cbv
  · cases h

/-- In a match that initializes a variable, its name means the variable: the reference to it there is bound
to the slot of the declaration, and nothing is reported. -/
theorem knot_tied :
    ∃ c root, compile knot {} = .ok c ∧ c.diagnostics = [] ∧ c.tree.unfoldRoot = some root ∧
      root.slotsOf "x" = [(1, ⟨0, .local⟩), (3, ⟨0, .local⟩), (8, ⟨0, .local⟩)] := by
  have htest := knot_expanded
  split at htest
  · rename_i t journal hfront
    split at htest
    · rename_i w hexpand
      obtain ⟨u, hu, hknot⟩ := (Option.any_eq_true _ _).mp htest
      obtain ⟨c, hc, hroot, hdiagnostics⟩ := Compile.exists_compile rfl rfl hfront hexpand hu
      obtain ⟨hslots, hnone⟩ := resolve_knot hknot
      exact ⟨c, _, hc, hdiagnostics.trans hnone, hroot, hslots⟩
    · cases htest
  · cases htest

end Clausal
