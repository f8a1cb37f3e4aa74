import Clausal.Proofs.Scoping.Visits

/-! # Room in the frames

A name is refused a slot when its frame has no more.  Each function brings its captures and its parameters,
and each declaration one more name (`Kind.brings`). -/

namespace Clausal

open Scoping List

def Kind.brings : Kind → Nat
  | .function _ params _ _ captures => captures.length + params.length
  | .assignment _ (some _) _ _ _ => 1
  | _ => 0

def Unfolding.brings (u : Unfolding) : Nat := (u.preorder.map (·.2.brings)).sum

theorem Unfolding.brings_node (i : ElementId) (k : Kind) (o : Origin) (us : List Unfolding) :
    brings (.node i k o us) = k.brings + (us.map brings).sum := by
  have hbelow : ((us.flatMap preorder).map (·.2.brings)).sum = (us.map brings).sum := by
    induction us with
    | nil => rfl
    | cons u us ih =>
      rw [flatMap_cons, map_append, sum_append, ih, map_cons, sum_cons]
      rfl
  rw [brings, preorder_node, map_cons, sum_cons, hbelow]

namespace Frame

variable (kind : BindingKind) (constant : Bool)

theorem nextSlot_declare_le (name : String) (f : Frame) :
    (f.declare kind constant name).1.nextSlot ≤ f.nextSlot + 1 := by
  obtain ⟨function, scopes, n⟩ := f
  cases scopes with
  | nil => exact Nat.le_succ n
  | cons scope outer =>
    rw [declare]
    split_ifs
    · exact Nat.le_succ n
    · exact Nat.le_succ n
    · exact le_rfl

variable {f : Frame}

theorem declare_ne_full (name : String) (h : f.nextSlot < frameLimit) :
    (f.declare kind constant name).2 ≠ .error .frameFull := by
  obtain ⟨function, scopes, n⟩ := f
  cases scopes with
  | nil => simp [declare]
  | cons scope outer =>
    have hn : ¬ frameLimit ≤ n := Nat.not_le.mpr h
    rw [declare, if_neg hn]
    split_ifs <;> simp

theorem room_declareAll (names : List String) {refused : Array (String × Refusal)}
    (h : f.nextSlot + names.length ≤ frameLimit) (hrefused : ∀ p ∈ refused, p.2 ≠ .frameFull) :
    (declareAll kind constant refused names f).1.nextSlot ≤ f.nextSlot + names.length ∧
      ∀ p ∈ (declareAll kind constant refused names f).2, p.2 ≠ .frameFull := by
  induction names generalizing f refused with
  | nil => exact ⟨le_rfl, hrefused⟩
  | cons name names ih =>
    rw [length_cons] at h ⊢
    have hnext := nextSlot_declare_le kind constant name f
    have hfull := declare_ne_full kind constant name (f := f) (by omega)
    rw [declareAll]
    generalize f.declare kind constant name = d at hnext hfull
    obtain ⟨f', outcome⟩ := d
    dsimp only at hnext
    have hroom : f'.nextSlot + names.length ≤ frameLimit := by omega
    cases outcome with
    | ok b =>
      obtain ⟨hslots, hrest⟩ := ih hroom hrefused
      exact ⟨by dsimp only; omega, hrest⟩
    | error refusal =>
      have hpush : ∀ p ∈ refused.push (name, refusal), p.2 ≠ .frameFull := by
        intro p hp
        rcases Array.mem_push.mp hp with hp | rfl
        · exact hrefused p hp
        · rintro rfl
          exact hfull rfl
      obtain ⟨hslots, hrest⟩ := ih hroom hpush
      exact ⟨by dsimp only; omega, hrest⟩

theorem problem_ne_full {function : String} {repeated : String → Problem}
    (hrepeated : ∀ x f y, repeated x ≠ .frameFull f y) {p : String × Refusal} (hp : p.2 ≠ .frameFull)
    (f x : String) : problem function repeated p ≠ .frameFull f x := by
  obtain ⟨name, refusal⟩ := p
  cases refusal with
  | repeated => exact hrepeated name f x
  | frameFull => exact absurd rfl hp
  | noFrame => nofun

theorem room_enter (function : String) {captures params : List String}
    (h : captures.length + params.length ≤ frameLimit) :
    (enter function captures params).1.nextSlot ≤ captures.length + params.length ∧
      ∀ p ∈ (enter function captures params).2, ∀ f x, p ≠ .frameFull f x := by
  have hnone : ∀ p ∈ (#[] : Array (String × Refusal)), p.2 ≠ .frameFull := by simp
  obtain ⟨hslots, hrefused⟩ := room_declareAll .captured true captures
    (f := { function }) (by dsimp only; omega) hnone
  rw [enter]
  generalize declareAll .captured true #[] captures { function } = first at hslots hrefused
  obtain ⟨f, refused⟩ := first
  dsimp only at hslots hrefused ⊢
  obtain ⟨hslots', hrefused'⟩ := room_declareAll .parameter false params (f := f) (by omega) hnone
  generalize declareAll .parameter false #[] params f = second at hslots' hrefused'
  obtain ⟨f', refused'⟩ := second
  have hcapture : ∀ x f y, Problem.repeatedCapture x ≠ .frameFull f y := fun _ _ _ => nofun
  have hparam : ∀ x f y, Problem.repeatedParameter x ≠ .frameFull f y := fun _ _ _ => nofun
  refine ⟨by dsimp only at hslots' ⊢; omega, fun p hp => ?_⟩
  rcases mem_append.mp hp with hp | hp
  · obtain ⟨q, hq, rfl⟩ := mem_map.mp hp
    exact problem_ne_full hcapture (hrefused q (Array.mem_toList_iff.mp hq))
  · obtain ⟨q, hq, rfl⟩ := mem_map.mp hp
    exact problem_ne_full hparam (hrefused' q (Array.mem_toList_iff.mp hq))

end Frame

namespace Resolution

/-- No frame has taken more than `n` slots, and no name was refused for want of one. -/
structure Room (n : Nat) (r : Resolution) : Prop where
  slots : ∀ f ∈ r.frames, f.nextSlot ≤ n
  roomy : ∀ d ∈ r.diagnostics, ∀ f x, d.problem ≠ .frameFull f x

variable {n m : Nat} {r : Resolution}

theorem Room.mono (h : Room n r) (hnm : n ≤ m) : Room m r :=
  ⟨fun f hf => (h.slots f hf).trans hnm, h.roomy⟩

theorem Room.complain (h : Room n r) (o : Origin) {p : Problem} (hp : ∀ f x, p ≠ .frameFull f x) :
    Room n (r.complain o p) := by
  refine ⟨h.slots, fun d hd => ?_⟩
  rcases Array.mem_push.mp hd with hd | rfl
  · exact h.roomy d hd
  · exact hp

theorem Room.foldl_complain {α : Type} (h : Room n r) (o : Origin) (g : α → Problem) {as : List α}
    (hg : ∀ a ∈ as, ∀ f x, g a ≠ .frameFull f x) :
    Room n (as.foldl (fun r a => r.complain o (g a)) r) := by
  induction as generalizing r with
  | nil => exact h
  | cons a as ih =>
    exact ih (h.complain o (hg a (.head _))) fun b hb => hg b (.tail _ hb)

theorem Room.modifyTop (h : Room n r) {g : Frame → Frame} (hg : ∀ f, (g f).nextSlot = f.nextSlot) :
    Room n (r.modifyTop g) := by
  unfold Resolution.modifyTop
  cases hr : r.frames with
  | nil => exact h
  | cons top outer =>
    refine ⟨fun f hf => ?_, h.roomy⟩
    rcases mem_cons.mp hf with rfl | hf
    · rw [hg]
      exact h.slots top (hr ▸ .head _)
    · exact h.slots f (hr ▸ mem_cons_of_mem _ hf)

theorem Room.enterFunctions (us : List Unfolding) (h : Room n r) : Room n (r.enterFunctions us) := by
  induction us generalizing r with
  | nil => exact h
  | cons u us ih =>
    obtain ⟨i, k, o, vs⟩ := u
    cases k with
    | function name params b lifted captures =>
      have hnext : Room n { r with functions := r.functions.insert name params.length } := ⟨h.slots, h.roomy⟩
      rw [Resolution.enterFunctions]
      split_ifs
      · exact ih (hnext.complain o (by simp))
      · exact ih hnext
    | _ =>
      simp only [Resolution.enterFunctions]
      exact ih h

theorem Room.checkMain (h : Room n r) (o : Origin) : Room n (r.checkMain o) := by
  unfold Resolution.checkMain
  split_ifs
  · exact h
  · exact h.complain o fun _ _ => nofun

theorem Room.enter (h : Room n r) (o : Origin) (function : String) {captures params : List String}
    (hlimit : captures.length + params.length ≤ frameLimit) :
    Room (n + (captures.length + params.length)) (r.enter o function captures params) := by
  obtain ⟨hslots, hproblems⟩ := Frame.room_enter function hlimit
  suffices hframes : Room (n + (captures.length + params.length))
      { r with frames := (Frame.enter function captures params).1 :: r.frames } from
    hframes.foldl_complain o (fun p => p) hproblems
  refine ⟨fun f hf => ?_, h.roomy⟩
  rcases mem_cons.mp hf with heq | hf
  · rw [heq]
    exact hslots.trans (Nat.le_add_left ..)
  · exact (h.slots f hf).trans (Nat.le_add_right ..)

theorem Room.leave (h : Room n r) : Room n r.leave :=
  ⟨fun f hf => h.slots f (mem_of_mem_tail hf), h.roomy⟩

theorem Room.declareLocal (h : Room n r) (hn : n < frameLimit) (i : ElementId) (o : Origin)
    (x : String) (d : Declaration) : Room (n + 1) (r.declareLocal i o x d) := by
  unfold Resolution.declareLocal
  cases hr : r.frames with
  | nil => exact (h.mono (Nat.le_succ n)).complain o fun _ _ => nofun
  | cons top outer =>
    have htop : top.nextSlot ≤ n := h.slots top (hr ▸ .head _)
    have hnext := top.nextSlot_declare_le .local (d = .constant) x
    have hfull := Frame.declare_ne_full .local (d = .constant) x (f := top) (by omega)
    dsimp only
    generalize top.declare .local (d = .constant) x = declared at hnext hfull
    obtain ⟨top', outcome⟩ := declared
    cases outcome with
    | ok b =>
      refine ⟨fun f hf => ?_, h.roomy⟩
      rcases mem_cons.mp hf with rfl | hf
      · exact hnext.trans (Nat.succ_le_succ htop)
      · have := h.slots f (hr ▸ mem_cons_of_mem _ hf)
        omega
    | error refusal =>
      have hvariable : ∀ x f y, Problem.repeatedVariable x ≠ .frameFull f y := fun _ _ _ => nofun
      refine (h.mono (Nat.le_succ n)).complain o (Frame.problem_ne_full hvariable ?_)
      rintro rfl
      exact hfull rfl

section
variable (h : Room n r) (i : ElementId) (o : Origin)
include h

theorem Room.assign (x : String) (initializer : Bool) :
    Room n (r.assign i o x initializer) := by
  unfold Resolution.assign
  split
  · exact h.complain o fun _ _ => nofun
  · split_ifs
    · exact h.complain o fun _ _ => nofun
    · exact h.complain o fun _ _ => nofun
    · exact ⟨h.slots, h.roomy⟩

theorem Room.refer (x : String) :
    Room n (r.refer i o x) := by
  unfold Resolution.refer
  split
  · exact ⟨h.slots, h.roomy⟩
  · exact h.complain o fun _ _ => nofun

theorem Room.call (x : String) (given : Nat) :
    Room n (r.call i o x given) := by
  unfold Resolution.call
  split
  · exact ⟨h.slots, h.roomy⟩
  · split
    · split_ifs
      · exact ⟨h.slots, h.roomy⟩
      · rename_i expected _ _
        have hwrong : ∀ f y, Problem.wrongArity x expected given ≠ .frameFull f y := fun _ _ => nofun
        exact ⟨h.slots, (h.complain o hwrong).roomy⟩
    · split_ifs
      · exact ⟨h.slots, h.roomy⟩
      · exact h.complain o fun _ _ => nofun

theorem Room.capture (names : List String) :
    Room n (r.capture i o names) := by
  have hscope : ∀ x ∈ names.filter fun name => (r.lookup name).isNone, ∀ f y,
      Problem.captureOutOfScope x ≠ .frameFull f y := fun _ _ _ _ => nofun
  have hroom := h.foldl_complain o Problem.captureOutOfScope hscope
  exact ⟨hroom.slots, hroom.roomy⟩

end

theorem room_visitAll_of {us : List Unfolding}
    (hus : ∀ u ∈ us, ∀ {n : Nat} {r : Resolution}, Room n r → n + u.brings ≤ frameLimit →
      Room (n + u.brings) (visit r u))
    (h : Room n r) (hlimit : n + (us.map Unfolding.brings).sum ≤ frameLimit) :
    Room (n + (us.map Unfolding.brings).sum) (visitAll r us) := by
  induction us generalizing n r with
  | nil => exact h
  | cons u us ih =>
    rw [map_cons, sum_cons, ← Nat.add_assoc] at hlimit ⊢
    rw [visitAll]
    exact ih (fun v hv => hus v (.tail _ hv)) (hus u (.head _) h (by omega)) hlimit

theorem room_visit (u : Unfolding) (h : Room n r) (hlimit : n + u.brings ≤ frameLimit) :
    Room (n + u.brings) (visit r u) := by
  induction u generalizing n r with
  | node i k o us ih =>
    have hall : ∀ {n : Nat} {r : Resolution}, Room n r → n + (us.map Unfolding.brings).sum ≤ frameLimit →
        Room (n + (us.map Unfolding.brings).sum) (visitAll r us) :=
      room_visitAll_of fun u hu _ _ => ih u hu
    rw [Unfolding.brings_node] at hlimit ⊢
    have hplain : k.brings = 0 → ∀ {r : Resolution}, Room n r →
        Room (n + (k.brings + (us.map Unfolding.brings).sum)) (visitAll r us) := by
      intro hk r hr
      rw [hk, Nat.zero_add] at hlimit ⊢
      exact hall hr hlimit
    unfold visit
    cases k with
    | module name ids =>
      exact hplain rfl ((h.enterFunctions us).checkMain o)
    | function name params b lifted captures =>
      rw [Kind.brings, ← Nat.add_assoc] at hlimit ⊢
      exact (hall (h.enter o name (by omega)) hlimit).leave
    | block ids =>
      have hopen : Room n r.openScope := h.modifyTop fun _ => rfl
      exact Room.modifyTop (hplain rfl hopen) fun _ => rfl
    | assignment x d value b initializer =>
      cases d with
      | some d =>
        rw [Kind.brings, Nat.add_comm 1, ← Nat.add_assoc] at hlimit ⊢
        exact (hall h (by omega)).declareLocal (by omega) i o x d
      | none =>
        exact (hplain rfl h).assign i o x initializer
    | reference x b =>
      exact (h.mono (Nat.le_add_right ..)).refer i o x
    | invocation x arguments target =>
      exact (hplain rfl h).call i o x _
    | closure e bound =>
      exact hplain rfl (h.capture i o _)
    | _ =>
      exact hplain rfl h

theorem roomy_of_brings {u : Unfolding} (h : u.brings ≤ frameLimit) :
    Roomy (visit {} u).diagnostics.toList := by
  have hstart : Room 0 {} := ⟨by simp, by simp⟩
  intro d hd
  exact (room_visit u hstart (by omega)).roomy d (Array.mem_toList_iff.mp hd)

end Resolution

end Clausal
