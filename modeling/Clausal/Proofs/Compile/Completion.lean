import Clausal.Proofs.Compile.Stages

/-! # Passes finish their work

`Tree.Without P t` says that nothing under the root of a tree that somebody holds is of a form `P`. -/

namespace Clausal

open Unfolding

/-! ### Forms of statements in a tree -/

namespace Tree

def Without (P : Unfolding → Prop) (t : Tree) : Prop := ∀ u, t.unfoldRoot = some u → u.FreeBelow P

/-- No statement under the root that somebody holds assigns or returns the value of a match. -/
def MatchesExpanded (t : Tree) : Prop :=
  ∀ i ∈ t.reachable, ∀ owner, t.parent i = some owner → ∀ value,
    (t.kind? i = some (.returns (some value)) ∨
      ∃ name binding initializer, t.kind? i = some (.assignment name none value binding initializer)) →
    ∀ clauses otherwise, t.kind? value ≠ some (.matchOf clauses otherwise)

def CasesExpanded (t : Tree) : Prop :=
  ∀ i ∈ t.reachable, ∀ owner, t.parent i = some owner →
    ∀ clauses otherwise, t.kind? i ≠ some (.caseOf clauses otherwise)

variable {t : Tree}

theorem Without.not_of_mem {P : Unfolding → Prop} (h : t.Owned) (hwithout : t.Without P) {i owner : ElementId}
    (hi : i ∈ t.reachable) (hp : t.parent i = some owner) {k : Kind} (hk : t.kind? i = some k) :
    ∃ o us, t.Shows (.node i k o us) ∧ ¬ P (.node i k o us) := by
  obtain ⟨u, hu⟩ : ∃ u, t.unfoldRoot = some u := by
    cases hroot : t.root with
    | none =>
      rw [reachable, hroot] at hi
      unfold reachableFrom at hi
      cases hi
    | some r => exact h.exists_unfoldRoot hroot
  obtain ⟨hs, hroot⟩ := h.unfoldRoot_eq_some_iff.mp hu
  rw [h.reachable_eq hu] at hi
  obtain ⟨⟨j, k'⟩, hmem, rfl⟩ := List.mem_map.mp hi
  obtain ⟨o, us, hwithin⟩ := exists_within_of_mem hmem
  have hshows := hs.within hwithin
  obtain rfl : k' = k := Option.some.inj ((kind?_of_face? hshows.face?).symm.trans hk)
  refine ⟨o, us, hshows, ?_⟩
  cases hwithin with
  | here => cases hp.symm.trans (h.root_free _ hroot).2
  | child hv hwithin => exact hwithout _ hu _ hv _ hwithin

theorem Without.matchesExpanded (h : t.Owned) (hwithout : t.Without Pours) : t.MatchesExpanded := by
  intro i hi owner hp value hk clauses otherwise hvalue
  obtain ⟨k, hk, sink, hsink, hchildren⟩ : ∃ k, t.kind? i = some k ∧
      ∃ sink, Sink.ofKind? k = some sink ∧ k.children = [value] := by
    rcases hk with hk | ⟨name, binding, initializer, hk⟩
    · exact ⟨_, hk, _, rfl, rfl⟩
    · exact ⟨_, hk, _, rfl, rfl⟩
  obtain ⟨o, us, hs, hnot⟩ := hwithout.not_of_mem h hi hp hk
  obtain ⟨v, rfl, rfl⟩ := List.map_eq_singleton_iff.mp (hs.children.trans hchildren)
  obtain ⟨j, kv, ov, vs⟩ := v
  have hface := (hs.child _ (.head _)).face?
  cases (kind?_of_face? hface).symm.trans hvalue
  exact hnot (.intro hsink)

theorem Without.casesExpanded (h : t.Owned) (hwithout : t.Without Switches) : t.CasesExpanded := by
  intro i hi owner hp clauses otherwise hk
  obtain ⟨o, us, -, hnot⟩ := hwithout.not_of_mem h hi hp hk
  exact hnot .intro

end Tree

/-! ### Passes one after the other -/

namespace Pass

variable {p : Pass} {ps : List Pass} {w w' : Workbench} {found : List Diagnostic} {u u' : Unfolding}

def Turns (p : Pass) (u u' : Unfolding) : Prop :=
  match p with
  | matchExpansion => MatchExpansion.Expanded MatchExpansion.Drains u u' ∧ u'.FreeBelow Pours
  | caseExpansion => CaseExpansion.Expanded u u' ∧ u'.FreeBelow Switches
  | closureCapture => u' = u.marked (closureCapture.findings u).2
  | localResolution => u' = u.marked (localResolution.findings u).2

theorem exists_turns (h : w.tree.Owned) (hrun : p.runNoted w = .ok found w')
    (hu' : w'.tree.unfoldRoot = some u') : ∃ u, w.tree.unfoldRoot = some u ∧ p.Turns u u' := by
  cases hu : w.tree.unfoldRoot with
  | none =>
    have hu0 : ({ w with journal := w.journal.push (.passStarted p.name) } :
      Workbench).tree.unfoldRoot = none := hu
    rw [runNoted_apply, p.run_of_unfoldRoot_eq_none hu0] at hrun
    cases hrun
    cases hu.symm.trans hu'
  | some u =>
    refine ⟨u, rfl, ?_⟩
    cases p with
    | matchExpansion =>
      obtain ⟨w1, hrun1, -, u1, hu1, hturns⟩ := runNoted_matchExpansion h hu
      cases hrun.symm.trans hrun1
      cases hu'.symm.trans hu1
      exact hturns
    | caseExpansion =>
      obtain ⟨w1, hrun1, -, u1, hu1, hturns⟩ := runNoted_caseExpansion h hu
      cases hrun.symm.trans hrun1
      cases hu'.symm.trans hu1
      exact hturns
    | closureCapture =>
      obtain ⟨w1, hrun1, -, hu1⟩ := runNoted_eq (.inl rfl) h hu
      cases hrun.symm.trans hrun1
      exact Option.some.inj (hu'.symm.trans hu1)
    | localResolution =>
      obtain ⟨w1, hrun1, -, hu1⟩ := runNoted_eq (.inr rfl) h hu
      cases hrun.symm.trans hrun1
      exact Option.some.inj (hu'.symm.trans hu1)

theorem Turns.freeBelow_pours (h : p.Turns u u') (hu : p = matchExpansion ∨ u.FreeBelow Pours) :
    u'.FreeBelow Pours := by
  cases p with
  | matchExpansion => exact h.2
  | caseExpansion => exact (h.1.free_pours (hu.resolve_left nofun)).1
  | closureCapture | localResolution =>
    obtain rfl : u' = _ := h
    exact (hu.resolve_left nofun).marked _ fun _ => pours_marked _

theorem Turns.freeBelow_switches (h : p.Turns u u') (hp : p ≠ matchExpansion)
    (hu : p = caseExpansion ∨ u.FreeBelow Switches) : u'.FreeBelow Switches := by
  cases p with
  | matchExpansion => exact absurd rfl hp
  | caseExpansion => exact h.2
  | closureCapture | localResolution =>
    obtain rfl : u' = _ := h
    exact (hu.resolve_left nofun).marked _ fun _ => switches_marked _

theorem without_runInOrder {P : Unfolding → Prop} {q : Pass}
    (hstep : ∀ p ∈ ps, ∀ u u', Turns p u u' → p = q ∨ u.FreeBelow P → u'.FreeBelow P)
    (h : w.tree.Owned) (hq : q ∈ ps ∨ w.tree.Without P) (hrun : runInOrder ps w = .ok found w') :
    w'.tree.Without P := by
  induction ps generalizing w found with
  | nil =>
    cases hrun
    exact hq.resolve_left (by simp)
  | cons p ps ih =>
    obtain ⟨found1, w1, rest, hrun1, hrest, -⟩ := runInOrder_cons_eq_ok hrun
    have howned := p.keeps_runNoted Edit.steady_owned w h
    rw [Edit.after, hrun1] at howned
    refine ih (fun p hp => hstep p (.tail _ hp)) howned ?_ hrest
    by_cases hmem : q ∈ ps
    · exact .inl hmem
    · refine .inr fun u1 hu1 => ?_
      obtain ⟨u, hu, hturns⟩ := exists_turns h hrun1 hu1
      refine hstep p (.head _) u u1 hturns ?_
      rcases hq with hq | hwithout
      · exact .inl ((List.mem_cons.mp hq).resolve_right hmem).symm
      · exact .inr (hwithout u hu)

end Pass

variable {found : List Diagnostic} {w w' : Workbench}

theorem Pass.without_pours {ps : List Pass} (hps : .matchExpansion ∈ ps) (h : w.tree.Owned)
    (hrun : runInOrder ps w = .ok found w') : w'.tree.Without Pours :=
  without_runInOrder (fun _ _ _ _ => Turns.freeBelow_pours) h (.inl hps) hrun

theorem runPasses_without {o : Options} (h : w.tree.Owned) (hrun : runPasses o w = .ok found w') :
    (o.expandMatches = true → w'.tree.Without Pours) ∧ (o.expandCases = true → w'.tree.Without Switches) := by
  constructor
  · intro hmatches
    refine Pass.without_pours ?_ h hrun
    simp [Pass.all, Pass.enabled, hmatches]
  · intro hcases
    rw [runPasses_eq] at hrun
    obtain ⟨found1, w1, rest, hrun1, hrest, -⟩ := Pass.runInOrder_append_eq_ok hrun
    have howned := Pass.steady_runInOrder Edit.steady_owned hrun1 h
    refine Pass.without_runInOrder (q := .caseExpansion) ?_ howned (.inl ?_) hrest
    · intro p hp u u' hturns
      refine hturns.freeBelow_switches ?_
      rintro rfl
      simp at hp
    · simp [Pass.enabled, hcases]

/-- Passes succeed on every owned tree, one alone, in any order or as the options select them, and leave
it owned with the same root.  With match expansion selected no held statement is left that assigns or
returns a match, and with case expansion selected no held case is left. -/
theorem passes_complete {w : Workbench} (h : w.tree.Owned) :
    (∀ o : Options, ∃ found w', runPasses o w = .ok found w' ∧ w'.tree.Owned ∧
      w'.tree.root = w.tree.root ∧ (o.expandMatches = true → w'.tree.MatchesExpanded) ∧
      (o.expandCases = true → w'.tree.CasesExpanded)) ∧
    (∀ p : Pass, ∃ found w', p.run w = .ok found w' ∧ w'.tree.Owned ∧ w'.tree.root = w.tree.root) ∧
    ∀ ps : List Pass, ∃ found w', Pass.runInOrder ps w = .ok found w' ∧ w'.tree.Owned ∧
      w'.tree.root = w.tree.root := by
  refine ⟨fun o => ?_, fun p => ?_, fun ps => ?_⟩
  · obtain ⟨found, w', hrun, howned⟩ := Pass.exists_runInOrder (Pass.all.filter (·.enabled o)) h
    obtain ⟨hpours, hswitches⟩ := runPasses_without h hrun
    exact ⟨found, w', hrun, howned, Pass.steady_runInOrder (steady_root _) hrun rfl,
      fun hmatches => (hpours hmatches).matchesExpanded howned,
      fun hcases => (hswitches hcases).casesExpanded howned⟩
  · obtain ⟨found, w', hrun⟩ := p.exists_run h
    have howned := p.keeps_run Edit.steady_owned w h
    have hroot := p.keeps_run (steady_root w.tree.root) w rfl
    rw [Edit.after, hrun] at howned hroot
    exact ⟨found, w', hrun, howned, hroot⟩
  · obtain ⟨found, w', hrun, howned⟩ := Pass.exists_runInOrder ps h
    exact ⟨found, w', hrun, howned, Pass.steady_runInOrder (steady_root _) hrun rfl⟩

def Tree.returning : Tree :=
  reached "demo" [.alloc (.constant (.bool true)) .synthetic, .alloc (.constant (.int 1)) .synthetic,
    .alloc (.whenClause 0 1 .value) .synthetic, .alloc (.constant .null) .synthetic,
    .alloc (.matchOf [2] 3) .synthetic, .alloc (.returns (some 4)) .synthetic,
    .alloc (.block [5]) .synthetic, .setRoot 6]

theorem Tree.returning_owned : returning.Owned := foldl_perform_owned (empty_owned _) _

theorem returning_passes_complete : ¬ Tree.returning.MatchesExpanded ∧
    ∃ found w', runPasses {} ⟨Tree.returning, #[]⟩ = .ok found w' ∧ w'.tree.root = some 6 ∧
      w'.tree.MatchesExpanded ∧ w'.tree.CasesExpanded := by
  refine ⟨fun h => h 5 (by decide) 6 rfl 4 (.inl rfl) [2] 3 rfl, ?_⟩
  obtain ⟨found, w', hrun, -, hroot, hmatches, hcases⟩ :=
    (passes_complete (w := ⟨Tree.returning, #[]⟩) Tree.returning_owned).1 {}
  exact ⟨found, w', hrun, hroot, hmatches rfl, hcases rfl⟩

end Clausal
