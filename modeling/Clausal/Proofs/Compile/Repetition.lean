import Clausal.Proofs.Compile.Completion

/-! # A second run of the passes

Running the passes on what they leave changes nothing and finds the same.  Where nothing is left to expand the
expansions leave a tree alone (`MatchExpansion.idles_expandIn`, `CaseExpansion.idles_expandIn`). -/

namespace Clausal

open Unfolding List Edit

/-! ### Nothing to expand -/

def Edit.Idles (step : Edit Nat) (t : Tree) : Prop :=
  ∀ w : Workbench, w.tree = t → ∃ n w', step w = .ok n w' ∧ w'.tree = t

variable {t : Tree}

theorem Edit.Idles.add {x y : Edit Nat} (hx : Idles x t) (hy : Idles y t) :
    Idles (do return (← x) + (← y)) t := by
  intro w hw
  obtain ⟨m, w₁, hrun, hw1⟩ := hx w hw
  obtain ⟨n, w₂, hrun', hw2⟩ := hy w₁ hw1
  exact ⟨m + n, w₂, by simp only [bind_apply, hrun, hrun', pure_apply], hw2⟩

theorem Edit.Idles.all {step : Unfolding → Edit Nat} {steps : List Unfolding → Edit Nat}
    (hnil : steps [] = pure 0) (hcons : ∀ u us, steps (u :: us) = do return (← step u) + (← steps us))
    {us : List Unfolding} (h : ∀ u ∈ us, Idles (step u) t) : Idles (steps us) t := by
  induction us with
  | nil =>
    rw [hnil]
    exact fun w hw => ⟨0, w, rfl, hw⟩
  | cons u us ih =>
    rw [hcons]
    exact (h u (.head _)).add (ih fun v hv => h v (.tail _ hv))

namespace MatchExpansion

variable {t : Tree}

theorem idles_expandAll {us : List Unfolding} (h : ∀ u ∈ us, Edit.Idles (expandIn u) t) :
    Edit.Idles (expandAll us) t :=
  .all (by rw [expandAll]) (fun _ _ => by rw [expandAll]) h

theorem idles_expandIn {u : Unfolding} (hbelow : u.FreeBelow Pours) (htop : u.Pours → t.parent u.id = none) :
    Edit.Idles (expandIn u) t := by
  induction u using induct₂ with
  | node i k o us ih ih' =>
    have hparts : ∀ u ∈ us, Edit.Idles (expandIn u) t := fun u hu =>
      ih u hu (hbelow u hu).below fun hp => absurd hp (free_iff.mp (hbelow u hu)).1
    by_cases hone : ∃ v, us = [v]
    · obtain ⟨v, rfl⟩ := hone
      have hv := hbelow v (.head _)
      have hinner : Edit.Idles (expandAll v.children) t := idles_expandAll fun x hx =>
        ih' v (.head _) x hx (hv.below x hx).below fun hp =>
          absurd hp (free_iff.mp (hv.below x hx)).1
      cases hk : Sink.ofKind? k with
      | none =>
        simp only [expandIn, hk]
        exact hparts v (.head _)
      | some sink =>
        simp only [expandIn, hk]
        obtain ⟨j, kv, ov, vs⟩ := v
        by_cases hmatch : ∃ ids x, kv = .matchOf ids x
        · obtain ⟨ids, x, rfl⟩ := hmatch
          have hroot : t.parent i = none := htop (.intro hk)
          intro w hw
          obtain ⟨n, w', hrun, hw'⟩ := hinner { w with journal := w.journal.push (.matchDetached j i) } hw
          refine ⟨n, w', ?_, hw'⟩
          rw [← hw] at hroot
          simp only [expandValue, bind_apply, tree_apply, hroot, note_apply]
          exact hrun
        · rw [expandValue]
          · exact hinner
          · exact fun ids x heq => hmatch ⟨ids, x, heq⟩
    · rw [expandIn]
      · exact idles_expandAll hparts
      · exact fun v heq => hone ⟨v, heq⟩

end MatchExpansion

namespace CaseExpansion

variable {t : Tree}

theorem idles_expandIn {u : Unfolding} (hbelow : u.FreeBelow Switches)
    (htop : u.Switches → t.parent u.id = none) : Edit.Idles (expandIn u) t := by
  induction u with
  | node i k o us ih =>
    have hparts : Edit.Idles (expandAll us) t := .all (by rw [expandAll]) (fun _ _ => by rw [expandAll]) fun u hu =>
      ih u hu (hbelow u hu).below fun hp => absurd hp (free_iff.mp (hbelow u hu)).1
    by_cases hcase : ∃ ids x, k = .caseOf ids x
    · obtain ⟨ids, x, rfl⟩ := hcase
      have hroot : t.parent i = none := htop .intro
      rw [expandIn]
      refine hparts.add fun w hw => ⟨0, w, ?_, hw⟩
      rw [← hw] at hroot
      simp only [expand, bind_apply, tree_apply, hroot, Edit.pure_apply]
    · rw [expandIn_of_ne_caseOf fun ids x heq => hcase ⟨ids, x, heq⟩]
      exact hparts

end CaseExpansion

/-! ### Marked trees -/

section marked
variable (as : List (ElementId × Mark))

theorem Capture.visit_marked (u : Unfolding) (c : Capture) : visit c (u.marked as) = visit c u := by
  induction u generalizing c with
  | node i k o us ih =>
    have hall : ∀ c, visitAll c (us.map (·.marked as)) = visitAll c us :=
      CaseExpansion.visitAll_capture_congr (forall₂_map_right_iff.mpr (forall₂_same.mpr ih))
    rw [marked_node, rekind_def]
    cases k with
    | assignment _ d _ _ _ => cases d <;> simp only [visit, hall]
    | _ => simp only [visit, hall]

namespace Resolution

theorem enterFunctions_marked (us : List Unfolding) (r : Resolution) :
    r.enterFunctions (us.map (·.marked as)) = r.enterFunctions us := by
  induction us generalizing r with
  | nil => rfl
  | cons u us ih =>
    obtain ⟨i, k, o, vs⟩ := u
    rw [map_cons, marked_node, rekind_def]
    cases k <;> simp only [enterFunctions, ih]

variable {as} (has : ∀ p ∈ as, p.2.captures? = none)
include has

theorem capturesOf_marked (us : List Unfolding) : capturesOf (us.map (·.marked as)) = capturesOf us := by
  cases us with
  | nil => rfl
  | cons u us =>
    obtain ⟨i, k, o, vs⟩ := u
    rw [map_cons, marked_node, rekind_def]
    cases k <;> simp only [capturesOf, Mark.latest_of_silent has]

theorem visit_marked (u : Unfolding) (r : Resolution) : visit r (u.marked as) = visit r u := by
  induction u generalizing r with
  | node i k o us ih =>
    have hall : ∀ r, visitAll r (us.map (·.marked as)) = visitAll r us :=
      CaseExpansion.visitAll_resolution_congr (forall₂_map_right_iff.mpr (forall₂_same.mpr ih))
    rw [marked_node, rekind_def]
    cases k with
    | assignment _ d _ _ _ => cases d <;> simp only [visit, hall]
    | _ =>
      simp only [visit, hall, enterFunctions_marked, capturesOf_marked has, Mark.latest_of_silent has]

end Resolution

end marked

/-! ### Marks that are there already -/

namespace Tree

def Bears (t : Tree) (as : List (ElementId × Mark)) : Prop :=
  ∀ i k, t.kind? i = some k → rekind i as k = k

variable {t t' : Tree} {as bs : List (ElementId × Mark)}

theorem bears_of_recordAll (h : t.recordAll as = .ok t') : t'.Bears as := by
  intro i k hk
  obtain ⟨k0, -, rfl⟩ := exists_of_recordAll h hk
  exact rekind_rekind i as k0

theorem Bears.recordAll (h : t.Bears as) (has : ∀ p ∈ as, p.2.captures?.isSome = true)
    (hbs : ∀ p ∈ bs, p.2.captures? = none) (ht' : t.recordAll bs = .ok t') : t'.Bears as := by
  intro i k hk
  obtain ⟨k0, hk0, rfl⟩ := exists_of_recordAll ht' hk
  rw [rekind_comm i as has hbs, h i k0 hk0]

end Tree

namespace Pass

theorem captures?_closureCapture (u : Unfolding) :
    ∀ q ∈ (closureCapture.findings u).2, q.2.captures?.isSome = true := by
  intro q hq
  obtain ⟨_, -, rfl⟩ := mem_map.mp hq
  rfl

theorem captures?_localResolution (u : Unfolding) :
    ∀ q ∈ (localResolution.findings u).2, q.2.captures? = none := by
  intro q hq
  simp only [findings, Resolution.marks, mem_append, mem_map] at hq
  rcases hq with (⟨_, -, rfl⟩ | ⟨_, -, rfl⟩) | ⟨_, -, rfl⟩ <;> rfl

theorem findings_closureCapture_marked (as : List (ElementId × Mark)) (u : Unfolding) :
    closureCapture.findings (u.marked as) = closureCapture.findings u := by
  simp only [findings, Capture.visit_marked]

theorem findings_localResolution_marked (u : Unfolding) :
    localResolution.findings (u.marked (localResolution.findings u).2) = localResolution.findings u := by
  have hvisit := fun r => Resolution.visit_marked (captures?_localResolution u) u r
  simp only [findings] at hvisit ⊢
  rw [hvisit]

/-! ### Stable trees -/

variable {p : Pass} {ps : List Pass} {t : Tree} {w w' : Workbench} {found : List Diagnostic} {u : Unfolding}
  {o : Options}

def Stable (p : Pass) (t : Tree) (found : List Diagnostic) : Prop :=
  ∀ w : Workbench, w.tree = t → ∃ w', p.runNoted w = .ok found w' ∧ w'.tree = t

theorem stable_of_run (h : ∀ w : Workbench, w.tree = t → ∃ w', p.run w = .ok found w' ∧ w'.tree = t) :
    p.Stable t found := by
  rintro w rfl
  exact exists_runNoted (P := fun t => t = w.tree) h

theorem stable_of_unfoldRoot_eq_none (p : Pass) (hu : t.unfoldRoot = none) : p.Stable t [] := by
  refine stable_of_run fun w hw => ⟨w, p.run_of_unfoldRoot_eq_none ?_, hw⟩
  rw [hw, hu]

theorem stable_matchExpansion (h : t.Owned) (hu : t.unfoldRoot = some u) (hwithout : t.Without Pours) :
    matchExpansion.Stable t [] := by
  refine stable_of_run fun w hw => ?_
  obtain ⟨-, hroot⟩ := h.unfoldRoot_eq_some_iff.mp hu
  obtain ⟨n, w', hrun, hw'⟩ := MatchExpansion.idles_expandIn (hwithout u hu)
    (fun _ => (h.root_free _ hroot).2) w hw
  rw [← hw] at hu
  refine ⟨w', ?_, hw'⟩
  simp only [run, MatchExpansion.run, bind_apply, unfoldRoot_apply, hu, hrun, Edit.pure_apply]

theorem stable_caseExpansion (h : t.Owned) (hu : t.unfoldRoot = some u) (hwithout : t.Without Switches) :
    caseExpansion.Stable t [] := by
  refine stable_of_run fun w hw => ?_
  obtain ⟨-, hroot⟩ := h.unfoldRoot_eq_some_iff.mp hu
  obtain ⟨n, w', hrun, hw'⟩ := CaseExpansion.idles_expandIn (hwithout u hu)
    (fun _ => (h.root_free _ hroot).2) w hw
  rw [← hw] at hu
  refine ⟨w', ?_, hw'⟩
  simp only [run, CaseExpansion.run, bind_apply, unfoldRoot_apply, hu, hrun, Edit.pure_apply]

theorem stable_of_bears (hp : p.Annotates) (h : t.Owned) (hu : t.unfoldRoot = some u)
    (hbears : t.Bears (p.findings u).2) : p.Stable t (p.findings u).1 := by
  rintro w rfl
  obtain ⟨t', ht', -⟩ := h.recordAll_unfoldRoot hu (p.findings_takes u)
  obtain rfl := Tree.recordAll_eq_self ht' hbears
  exact runNoted_of_recordAll hp hu ht'

theorem runInOrder_filter_one (hrun : runInOrder ([p].filter (·.enabled o)) w = .ok found w') :
    p.enabled o = true ∧ p.runNoted w = .ok found w' ∨ p.enabled o = false ∧ found = [] ∧ w' = w := by
  cases hp : p.enabled o with
  | false =>
    rw [filter_cons_of_neg (by simp [hp]), filter_nil] at hrun
    cases hrun
    exact .inr ⟨rfl, rfl, rfl⟩
  | true =>
    rw [filter_cons_of_pos hp, filter_nil] at hrun
    obtain ⟨found₁, w₁, rest, hrun₁, hrest, rfl⟩ := runInOrder_cons_eq_ok hrun
    cases hrest
    rw [append_nil]
    exact .inl ⟨rfl, hrun₁⟩

theorem runNoted_annotates (hp : p.Annotates) (h : w.tree.Owned) (hu : w.tree.unfoldRoot = some u)
    (hrun : p.runNoted w = .ok found w') : found = (p.findings u).1 ∧ w'.tree.Owned ∧
      w'.tree.unfoldRoot = some (u.marked (p.findings u).2) ∧
      w.tree.recordAll (p.findings u).2 = .ok w'.tree := by
  obtain ⟨t, ht, howned, hroot⟩ := h.recordAll_unfoldRoot hu (p.findings_takes u)
  obtain ⟨w₁, hrun₁, rfl⟩ := runNoted_of_recordAll hp hu ht
  cases hrun.symm.trans hrun₁
  exact ⟨rfl, howned, hroot, ht⟩

theorem stable_closureCapture (h : w.tree.Owned) (hu : w.tree.unfoldRoot = some u)
    (hrun : closureCapture.runNoted w = .ok found w') : closureCapture.Stable w'.tree [] := by
  obtain ⟨-, howned, hu', hrecord⟩ := runNoted_annotates (.inl rfl) h hu hrun
  refine stable_of_bears (.inl rfl) howned hu' ?_
  rw [findings_closureCapture_marked]
  exact Tree.bears_of_recordAll hrecord

theorem stable_localResolution (h : w.tree.Owned) (hu : w.tree.unfoldRoot = some u)
    (hrun : localResolution.runNoted w = .ok found w') : localResolution.Stable w'.tree found := by
  obtain ⟨rfl, howned, hu', hrecord⟩ := runNoted_annotates (.inr rfl) h hu hrun
  rw [← findings_localResolution_marked]
  refine stable_of_bears (.inr rfl) howned hu' ?_
  rw [findings_localResolution_marked]
  exact Tree.bears_of_recordAll hrecord

theorem Stable.localResolution {found' : List Diagnostic} (hstable : closureCapture.Stable w.tree found)
    (h : w.tree.Owned) (hu : w.tree.unfoldRoot = some u)
    (hrun : localResolution.runNoted w = .ok found' w') : closureCapture.Stable w'.tree [] := by
  obtain ⟨w₁, hrun₁, hw1⟩ := hstable w rfl
  obtain ⟨-, -, -, hrecord1⟩ := runNoted_annotates (.inl rfl) h hu hrun₁
  rw [hw1] at hrecord1
  obtain ⟨-, howned, hu', hrecord⟩ := runNoted_annotates (.inr rfl) h hu hrun
  refine stable_of_bears (.inl rfl) howned hu' ?_
  rw [findings_closureCapture_marked]
  exact (Tree.bears_of_recordAll hrecord1).recordAll (captures?_closureCapture u)
    (captures?_localResolution u) hrecord

theorem stable_annotated {w₁ w₂ : Workbench} {found₁ found₂ : List Diagnostic}
    (h : w.tree.Owned) (hu : w.tree.unfoldRoot = some u)
    (hcapture : runInOrder ([closureCapture].filter (·.enabled o)) w = .ok found₁ w₁)
    (hresolve : runInOrder ([localResolution].filter (·.enabled o)) w₁ = .ok found₂ w₂) :
    found₁ = [] ∧ (closureCapture.enabled o = true → closureCapture.Stable w₂.tree []) ∧
      (localResolution.enabled o = true → localResolution.Stable w₂.tree found₂) ∧
      (localResolution.enabled o = false → found₂ = []) := by
  obtain ⟨rfl, howned1, ⟨u1, hu1⟩, hstable1⟩ : found₁ = [] ∧ w₁.tree.Owned ∧
      (∃ u1, w₁.tree.unfoldRoot = some u1) ∧
      (closureCapture.enabled o = true → closureCapture.Stable w₁.tree []) := by
    rcases runInOrder_filter_one hcapture with ⟨hon, hrun⟩ | ⟨hoff, rfl, rfl⟩
    · obtain ⟨rfl, howned, hu', -⟩ := runNoted_annotates (.inl rfl) h hu hrun
      exact ⟨rfl, howned, ⟨_, hu'⟩, fun _ => stable_closureCapture h hu hrun⟩
    · exact ⟨rfl, h, ⟨u, hu⟩, fun hon => by cases hon.symm.trans hoff⟩
  rcases runInOrder_filter_one hresolve with ⟨hon, hrun⟩ | ⟨hoff, rfl, rfl⟩
  · exact ⟨rfl, fun hc => (hstable1 hc).localResolution howned1 hu1 hrun,
      fun _ => stable_localResolution howned1 hu1 hrun, fun hoff => by cases hon.symm.trans hoff⟩
  · exact ⟨rfl, hstable1, fun hon => (by cases hon.symm.trans hoff), fun _ => rfl⟩

def Settled (ps : List Pass) (t : Tree) (found : List Diagnostic) : Prop :=
  ∀ w : Workbench, w.tree = t → ∃ w', runInOrder ps w = .ok found w' ∧ w'.tree = t

variable {rest : List Diagnostic}

theorem Stable.cons (h : p.Stable t found) (h' : Settled ps t rest) :
    Settled (p :: ps) t (found ++ rest) := by
  intro w hw
  obtain ⟨w₁, hrun, hw1⟩ := h w hw
  obtain ⟨w₂, hrest, hw2⟩ := h' w₁ hw1
  exact ⟨w₂, by simp only [runInOrder, bind_apply, hrun, hrest, Edit.pure_apply], hw2⟩

theorem Settled.cons_filter (h : Settled (ps.filter (·.enabled o)) t rest)
    (hon : p.enabled o = true → p.Stable t found) (hoff : p.enabled o = false → found = []) :
    Settled ((p :: ps).filter (·.enabled o)) t (found ++ rest) := by
  cases hp : p.enabled o with
  | false =>
    rw [filter_cons_of_neg (by simp [hp]), hoff hp]
    exact h
  | true =>
    rw [filter_cons_of_pos hp]
    exact (hon hp).cons h

theorem settled_of_unfoldRoot_eq_none (ps : List Pass) (hu : t.unfoldRoot = none) : Settled ps t [] := by
  induction ps with
  | nil => exact fun w hw => ⟨w, rfl, hw⟩
  | cons p ps ih => exact (p.stable_of_unfoldRoot_eq_none hu).cons ih

theorem found_eq_nil (hp : p = matchExpansion ∨ p = caseExpansion)
    (hrun : runInOrder ([p].filter (·.enabled o)) w = .ok found w') : found = [] := by
  rcases runInOrder_filter_one hrun with ⟨-, hrun⟩ | ⟨-, rfl, -⟩
  · rw [runNoted] at hrun
    obtain ⟨-, w₁, -, hrun⟩ := bind_ok_iff.mp hrun
    obtain ⟨found₁, w₂, hpass, hrun⟩ := bind_ok_iff.mp hrun
    obtain ⟨-, w₃, -, hrun⟩ := bind_ok_iff.mp hrun
    cases hrun
    rcases hp with rfl | rfl
    · obtain ⟨n, w4, -, hnil⟩ := bind_ok_iff.mp hpass
      cases hnil
      rfl
    · obtain ⟨n, w4, -, hnil⟩ := bind_ok_iff.mp hpass
      cases hnil
      rfl
  · rfl

theorem runInOrder_filter_cons (hrun : runInOrder ((p :: ps).filter (·.enabled o)) w = .ok found w') :
    ∃ found₁ w₁ rest, runInOrder ([p].filter (·.enabled o)) w = .ok found₁ w₁ ∧
      runInOrder (ps.filter (·.enabled o)) w₁ = .ok rest w' ∧ found = found₁ ++ rest := by
  rw [← singleton_append, filter_append] at hrun
  exact runInOrder_append_eq_ok hrun

end Pass

/-- The passes leave a tree on which a second run changes nothing and finds the same. -/
theorem runPasses_idempotent {w : Workbench} (h : w.tree.Owned) (o : Options) :
    ∃ found w', runPasses o w = .ok found w' ∧ ∀ w₁ : Workbench, w₁.tree = w'.tree →
      ∃ w₂, runPasses o w₁ = .ok found w₂ ∧ w₂.tree = w'.tree := by
  cases hroot : w.tree.root with
  | none =>
    have hu : w.tree.unfoldRoot = none := by rw [Tree.unfoldRoot, hroot, Option.bind_none]
    have hsettled := Pass.settled_of_unfoldRoot_eq_none (Pass.all.filter (·.enabled o)) hu
    obtain ⟨w', hrun, hw'⟩ := hsettled w rfl
    refine ⟨[], w', hrun, ?_⟩
    rw [hw']
    exact hsettled
  | some r =>
    obtain ⟨found, w', hrun, howned⟩ := Pass.exists_runInOrder (Pass.all.filter (·.enabled o)) h
    refine ⟨found, w', hrun, ?_⟩
    obtain ⟨hpours, hswitches⟩ := runPasses_without h hrun
    obtain ⟨u, hu⟩ := howned.exists_unfoldRoot ((Pass.steady_runInOrder (steady_root _) hrun rfl).trans hroot)
    -- the four passes, one after the other
    obtain ⟨found₁, w₁, rest₁, hrun₁, hrest₁, rfl⟩ := Pass.runInOrder_filter_cons hrun
    obtain ⟨found₂, w₂, rest₂, hrun₂, hrest₂, rfl⟩ := Pass.runInOrder_filter_cons hrest₁
    obtain ⟨found₃, w₃, rest₃, hrun₃, hrest₃, rfl⟩ := Pass.runInOrder_filter_cons hrest₂
    obtain rfl := Pass.found_eq_nil (.inl rfl) hrun₁
    obtain rfl := Pass.found_eq_nil (.inr rfl) hrun₂
    have hroot₂ := Pass.steady_runInOrder (steady_root _) hrun₂
      (Pass.steady_runInOrder (steady_root _) hrun₁ hroot)
    have howned₂ := Pass.steady_runInOrder Edit.steady_owned hrun₂
      (Pass.steady_runInOrder Edit.steady_owned hrun₁ h)
    obtain ⟨u₂, hu₂⟩ := howned₂.exists_unfoldRoot hroot₂
    obtain ⟨rfl, hcapture, hresolve, hnone⟩ := Pass.stable_annotated howned₂ hu₂ hrun₃ hrest₃
    -- none of them has anything left to do
    have hsettled : Pass.Settled (Pass.all.filter (·.enabled o)) w'.tree
        ([] ++ ([] ++ ([] ++ (rest₃ ++ [])))) := by
      refine .cons_filter (.cons_filter (.cons_filter (.cons_filter ?_ hresolve hnone) hcapture
        fun _ => rfl) (fun hc => Pass.stable_caseExpansion howned hu (hswitches hc)) fun _ => rfl)
        (fun hm => Pass.stable_matchExpansion howned hu (hpours hm)) fun _ => rfl
      exact fun w hw => ⟨w, rfl, hw⟩
    rw [List.append_nil] at hsettled
    exact hsettled

theorem returning_idempotent : ∃ found w', runPasses {} ⟨Tree.returning, #[]⟩ = .ok found w' ∧
    ∀ w₁ : Workbench, w₁.tree = w'.tree → ∃ w₂, runPasses {} w₁ = .ok found w₂ ∧ w₂.tree = w'.tree :=
  runPasses_idempotent Tree.returning_owned {}

end Clausal
