import Clausal.Proofs.Scoping.Windows

/-! # Settled unfoldings

A pass that annotates walks over an unfolding, logs marks on the way and puts them on the tree in the end.
What an element gets can be told during the walk, from the state before the element and the state after its
children: a `Walker` says how. -/

namespace Clausal

open List Unfolding

/-- The kind of an element after its mark, if it has one that it takes. -/
def Mark.settle (a : Option Mark) (k : Kind) : Kind := (a.bind (·.change k)).getD k

theorem Mark.slots_settle (a : Option Mark) (k : Kind) : (Mark.settle a k).slots = k.slots := by
  cases a with
  | none => rfl
  | some a => cases a <;> cases k <;> rfl

theorem Mark.accepts_settle (a : Option Mark) (role : Role) (k : Kind) :
    role.accepts (Mark.settle a k) = role.accepts k := by
  cases a with
  | none => rfl
  | some a => cases a <;> cases k <;> cases role <;> rfl

/-- A walk over unfoldings that logs marks. -/
structure Walker (σ : Type) where
  visit : σ → Unfolding → σ
  log : σ → List (ElementId × Mark)
  /-- The state in which the walk comes to the children of an element. -/
  enter : σ → Unfolding → σ
  /-- The mark of an element, from the state before it and the state after its children. -/
  own : σ → σ → Unfolding → Option Mark

namespace Walker

variable {σ : Type} (W : Walker σ)

def below (s : σ) (u : Unfolding) : σ := u.children.foldl W.visit (W.enter s u)

mutual

def settle (s : σ) : Unfolding → Unfolding
  | .node i k o us =>
    .node i (Mark.settle (W.own s (W.below s (.node i k o us)) (.node i k o us)) k) o
      (settleAll (W.enter s (.node i k o us)) us)

def settleAll (s : σ) : List Unfolding → List Unfolding
  | [] => []
  | u :: us => settle s u :: settleAll (W.visit s u) us

end

variable {us : List Unfolding}

theorem exists_of_mem_settleAll {v : Unfolding} {s : σ} (hv : v ∈ W.settleAll s us) :
    ∃ u ∈ us, ∃ t, v = W.settle t u := by
  induction us generalizing s with
  | nil =>
    rw [settleAll] at hv
    cases hv
  | cons u us ih =>
    rw [settleAll] at hv
    rcases mem_cons.mp hv with rfl | hv
    · exact ⟨u, .head _, s, rfl⟩
    · obtain ⟨w, hw, t, rfl⟩ := ih hv
      exact ⟨w, .tail _ hw, t, rfl⟩

theorem slots_settleAll {slots : List (Role × ElementId)}
    (h : Forall₂ (fun p u => p.2 = u.id ∧ p.1.accepts u.kind = true) slots us) (s : σ) :
    Forall₂ (fun p u => p.2 = u.id ∧ p.1.accepts u.kind = true) slots (W.settleAll s us) := by
  induction h generalizing s with
  | nil =>
    rw [settleAll]
    exact .nil
  | @cons p u slots us hu _ ih =>
    obtain ⟨i, k, o, vs⟩ := u
    rw [settleAll, settle]
    refine .cons ⟨hu.1, ?_⟩ (ih _)
    exact (Mark.accepts_settle _ p.1 k).trans hu.2

theorem fits_settle {u : Unfolding} (hu : u.Fits) (s : σ) : (W.settle s u).Fits := by
  induction u generalizing s with
  | node i k o us ih =>
    rw [settle]
    refine .node ?_ ?_
    · rw [Mark.slots_settle]
      exact W.slots_settleAll hu.slots _
    · intro v hv
      obtain ⟨u, hm, t, rfl⟩ := W.exists_of_mem_settleAll hv
      exact ih u hm (hu.child u hm) t

/-- The walk logs what `own` says, and nothing else, at least where it visits parts of some shape. -/
structure Lawful (P : Unfolding → Prop) : Prop where
  logs : Logs P W.visit W.log
  child : ∀ {i k o us}, P (.node i k o us) → ∀ u ∈ us, P u
  enter : ∀ {u}, P u → ∀ s, ∀ q ∈ W.log (W.enter s u),
    q ∈ W.log s ∨ q.1 = u.id ∧ W.own s (W.below s u) u = some q.2
  leave : ∀ {u}, P u → ∀ s, ∀ q ∈ W.log (W.visit s u),
    q ∈ W.log (W.below s u) ∨ q.1 = u.id ∧ W.own s (W.below s u) u = some q.2
  kept : ∀ {u}, P u → ∀ s, ∀ q ∈ W.log (W.below s u), q ∈ W.log (W.visit s u)
  own : ∀ {u}, P u → ∀ s a, W.own s (W.below s u) u = some a → (u.id, a) ∈ W.log (W.visit s u)

end Walker

theorem Unfolding.rekind_eq_settle {i : ElementId} {as : List (ElementId × Mark)} {own : Option Mark}
    (h : ∀ a, (i, a) ∈ as ↔ own = some a) (k : Kind) : rekind i as k = Mark.settle own k := by
  have hlatest {α : Type} (read : Mark → Option α) (x : α) :
      Mark.latest read i as x = (own.bind read).getD x := by
    cases own with
    | none =>
      refine Mark.latest_eq_self ?_
      rintro ⟨j, a⟩ hq rfl
      cases (h a).mp hq
    | some a =>
      have hunique : ∀ p ∈ as, p.1 = i → p.2 = a := by
        rintro ⟨j, b⟩ hq rfl
        exact Option.some.inj ((h b).mp hq).symm
      rw [Option.bind_some]
      cases hy : read a with
      | none =>
        refine Mark.latest_eq_self fun p hp hi z hz => ?_
        rw [hunique p hp hi, hy] at hz
        cases hz
      | some y =>
        refine Mark.latest_eq_of_mem ((h a).mpr rfl) hy (fun p hp hi z hz => ?_) x
        rw [hunique p hp hi, hy] at hz
        exact (Option.some.inj hz).symm
  rw [rekind_def]
  cases k <;> simp only [hlatest] <;> cases own with
  | none => rfl
  | some a => cases a <;> rfl

namespace Walker.Lawful

variable {σ : Type} {W : Walker σ} {P : Unfolding → Prop} {final : List (ElementId × Mark)}

theorem map_marked_eq_settleAll (h : W.Lawful P) {us : List Unfolding} (hus : ∀ u ∈ us, P u)
    (ih : ∀ u ∈ us, ∀ s, Window u.ids (W.log s) (W.log (W.visit s u)) final → u.marked final = W.settle s u)
    (hnodup : (us.flatMap ids).Nodup) {s : σ}
    (hw : Window (us.flatMap ids) (W.log s) (W.log (us.foldl W.visit s)) final) :
    us.map (·.marked final) = W.settleAll s us := by
  induction us generalizing s with
  | nil => rw [settleAll, map_nil]
  | cons u us ihus =>
    have hwindow : Window u.ids (W.log s) (W.log (W.visit s u)) final := by
      rw [← nil_append (u :: us)] at hus hnodup hw
      exact h.logs.child hus hnodup hw
    have hfirst : u.marked final = W.settle s u := ih u (.head _) s hwindow
    rw [flatMap_cons, nodup_append'] at hnodup
    rw [flatMap_cons, foldl_cons] at hw
    have hrest : Window (us.flatMap ids) (W.log (W.visit s u))
        (W.log (us.foldl W.visit (W.visit s u))) final := by
      refine hw.narrow (fun i hi => mem_append_right _ hi) (fun q hq => ?_)
        (fun _ hq => .inl hq) fun _ hq => hq
      exact (h.logs.adds (hus u (.head _)) s q hq).imp_right fun hq hm =>
        hnodup.2.2 hq hm
    rw [map_cons, settleAll, hfirst, ihus (fun v hv => hus v (.tail _ hv))
      (fun v hv => ih v (.tail _ hv)) hnodup.2.1 hrest]

theorem marked_eq_settle (h : W.Lawful P) {u : Unfolding} (hu : P u) (hnodup : u.ids.Nodup) {s : σ}
    (hw : Window u.ids (W.log s) (W.log (W.visit s u)) final) : u.marked final = W.settle s u := by
  induction u generalizing s with
  | node i k o us ih =>
    rw [ids_node, nodup_cons] at hnodup
    rw [ids_node] at hw
    have hmem : i ∈ i :: us.flatMap ids := mem_cons_self ..
    have hchild := h.child hu
    have hown : ∀ a, (i, a) ∈ final ↔ W.own s (W.below s (.node i k o us)) (.node i k o us) = some a := by
      intro a
      constructor
      · intro ha
        rcases h.leave hu s _ (hw.complete _ ha hmem) with ha | ⟨-, ha⟩
        · rcases h.logs.adds_foldl hchild _ _ ha with ha | ha
          · rcases h.enter hu s _ ha with ha | ⟨-, ha⟩
            · exact absurd hmem (hw.unmarked _ ha)
            · exact ha
          · exact absurd ha hnodup.1
        · exact ha
      · intro ha
        exact hw.kept _ (h.own hu s a ha)
    have hbelow : Window (us.flatMap ids) (W.log (W.enter s (.node i k o us)))
        (W.log (us.foldl W.visit (W.enter s (.node i k o us)))) final := by
      have hnot {q : ElementId × Mark} (hq : q.1 = i) : q.1 ∉ us.flatMap ids := hq ▸ hnodup.1
      refine hw.narrow (fun j hj => .tail _ hj)
        (fun q hq => (h.enter hu s q hq).imp_right fun hq => hnot hq.1)
        (fun q hq => (h.leave hu s q hq).imp_right fun hq => hnot hq.1)
        fun q hq => h.kept hu s q hq
    have hus := h.map_marked_eq_settleAll hchild
      (fun u hm s hw => ih u hm (hchild u hm) ((nodup_flatMap.mp hnodup.2).1 u hm) hw)
      hnodup.2 hbelow
    rw [marked_node, settle, rekind_eq_settle hown, hus]

end Walker.Lawful

end Clausal
