import Clausal.Proofs.Tree.Marks
import Clausal.Proofs.Tree.Showing

/-! # Marks on unfoldings

Marks are put on the elements of a tree one after the other.  On the unfolding that the tree shows, a mark is
a change of one kind (`Unfolding.mark`), and the marked tree shows the marked unfolding (`Shows.record`). -/

namespace Clausal

open List Option

theorem Mark.isSome_change {a b : Mark} {k k' : Kind} (h : a.change k = some k') :
    (b.change k').isSome = (b.change k).isSome := by
  unfold change at h
  split at h <;> cases h <;> cases b <;> rfl

namespace Unfolding

def remark (id : ElementId) (a : Mark) (p : ElementId × Kind) : Kind :=
  if p.1 = id then (a.change p.2).getD p.2 else p.2

mutual

def mark (id : ElementId) (a : Mark) : Unfolding → Unfolding
  | .node i k o us => .node i (remark id a (i, k)) o (markAll id a us)

def markAll (id : ElementId) (a : Mark) : List Unfolding → List Unfolding
  | [] => []
  | u :: us => mark id a u :: markAll id a us

end

variable {id : ElementId} {a : Mark} {u : Unfolding}

theorem markAll_eq_map (us : List Unfolding) : markAll id a us = us.map (mark id a) := by
  induction us with
  | nil => rw [markAll, map_nil]
  | cons u us ih => rw [markAll, ih, map_cons]

theorem mark_node (i : ElementId) (k : Kind) (o : Origin) (us : List Unfolding) :
    mark id a (.node i k o us) = .node i (remark id a (i, k)) o (us.map (mark id a)) := by
  rw [mark, markAll_eq_map]

@[simp] theorem id_mark (u : Unfolding) : (u.mark id a).id = u.id := by
  cases u
  rw [mark_node, Unfolding.id, Unfolding.id]

theorem remark_slots (p : ElementId × Kind) : (remark id a p).slots = p.2.slots := by
  unfold remark
  split_ifs
  · cases hc : a.change p.2 with
    | none => rfl
    | some k => exact Mark.change_slots hc
  · rfl

theorem remark_eq_self {i : ElementId} {k : Kind} (hk : a.change k = none) :
    remark id a (i, k) = k := by
  unfold remark
  split_ifs
  · rw [hk, getD_none]
  · rfl

theorem isSome_change_remark (b : Mark) (p : ElementId × Kind) :
    (b.change (remark id a p)).isSome = (b.change p.2).isSome := by
  unfold remark
  split_ifs
  · cases hc : a.change p.2 with
    | none => rfl
    | some k => exact Mark.isSome_change hc
  · rfl

theorem preorder_node (i : ElementId) (k : Kind) (o : Origin) (us : List Unfolding) :
    preorder (.node i k o us) = (i, k) :: us.flatMap preorder := by
  unfold preorder
  rw [preorderUntil_node]
  rfl

theorem exists_within_of_mem {p : ElementId × Kind} (hp : p ∈ u.preorder) :
    ∃ o us, Within (.node p.1 p.2 o us) u := by
  induction u with
  | node i k o us ih =>
    rw [preorder_node] at hp
    rcases mem_cons.mp hp with rfl | hp
    · exact ⟨o, us, .here⟩
    · obtain ⟨u, hu, hpu⟩ := mem_flatMap.mp hp
      obtain ⟨o', vs, hwithin⟩ := ih u hu hpu
      exact ⟨o', vs, .child hu hwithin⟩

theorem preorder_mark (u : Unfolding) :
    (u.mark id a).preorder = u.preorder.map fun p => (p.1, remark id a p) := by
  induction u with
  | node i k o us ih =>
    rw [mark_node, preorder_node, preorder_node, map_cons, flatMap_map, map_flatMap]
    rw [flatMap_congr ih]

def Takes (u : Unfolding) (p : ElementId × Mark) : Prop :=
  ∃ k, (p.1, k) ∈ u.preorder ∧ (p.2.change k).isSome = true

theorem Takes.mark {p : ElementId × Mark} (h : u.Takes p) : (u.mark id a).Takes p := by
  obtain ⟨k, hk, hsome⟩ := h
  refine ⟨remark id a (p.1, k), ?_, ?_⟩
  · rw [preorder_mark]
    exact List.mem_map.mpr ⟨(p.1, k), hk, rfl⟩
  · rwa [isSome_change_remark]

def marked (u : Unfolding) (as : List (ElementId × Mark)) : Unfolding :=
  as.foldl (fun u p => u.mark p.1 p.2) u

def rekind (i : ElementId) (as : List (ElementId × Mark)) (k : Kind) : Kind :=
  as.foldl (fun k p => remark p.1 p.2 (i, k)) k

theorem marked_node (i : ElementId) (k : Kind) (o : Origin) (us : List Unfolding)
    (as : List (ElementId × Mark)) :
    marked (.node i k o us) as = .node i (rekind i as k) o (us.map (·.marked as)) := by
  induction as generalizing k us with
  | nil => simp [marked, rekind]
  | cons p as ih =>
    have hstep : marked (.node i k o us) (p :: as) =
        marked (.node i (remark p.1 p.2 (i, k)) o (us.map (mark p.1 p.2))) as := by
      rw [← mark_node]
      rfl
    rw [hstep, ih, List.map_map]
    rfl

theorem marked_append (u : Unfolding) (as bs : List (ElementId × Mark)) :
    u.marked (as ++ bs) = (u.marked as).marked bs := foldl_append ..

end Unfolding

/-! ### The latest mark -/

namespace Mark

def binding? : Mark → Option (Option Binding)
  | binding b => some (some b)
  | _ => none

def target? : Mark → Option (Option CallTarget)
  | target c => some (some c)
  | _ => none

def captures? : Mark → Option (List String)
  | captures names => some names
  | _ => none

def closureBindings? : Mark → Option (List Binding)
  | closureBindings bs => some bs
  | _ => none

variable {α : Type} (read : Mark → Option α)

/-- What the last of some marks on an element gives, where there is one. -/
def latest (i : ElementId) (as : List (ElementId × Mark)) (x : α) : α :=
  as.foldl (fun x p => if p.1 = i then (read p.2).getD x else x) x

variable {read} {i : ElementId} {as : List (ElementId × Mark)}

theorem latest_eq_self {x : α} (h : ∀ p ∈ as, p.1 = i → ∀ z, read p.2 = some z → z = x) :
    latest read i as x = x := by
  induction as with
  | nil => rfl
  | cons p as ih =>
    have hstep : (if p.1 = i then (read p.2).getD x else x) = x := by
      split_ifs with hp
      · cases hz : read p.2 with
        | none => rfl
        | some z => exact h p (.head _) hp z hz
      · rfl
    rw [latest, foldl_cons, hstep]
    exact ih fun q hq => h q (.tail _ hq)

theorem latest_of_silent (h : ∀ p ∈ as, read p.2 = none) (x : α) : latest read i as x = x :=
  latest_eq_self fun p hp _ z hz => by cases (h p hp).symm.trans hz

theorem latest_eq_or (read : Mark → Option α) (i : ElementId) (as : List (ElementId × Mark)) :
    (∀ x, latest read i as x = x) ∨ ∃ y, ∀ x, latest read i as x = y := by
  induction as with
  | nil => exact .inl fun _ => rfl
  | cons p as ih =>
    rcases ih with hid | ⟨y, hconst⟩
    · by_cases hp : p.1 = i
      · cases hz : read p.2 with
        | none =>
          refine .inl fun x => ?_
          rw [latest, foldl_cons, if_pos hp, hz]
          exact hid x
        | some z =>
          refine .inr ⟨z, fun x => ?_⟩
          rw [latest, foldl_cons, if_pos hp, hz]
          exact hid z
      · refine .inl fun x => ?_
        rw [latest, foldl_cons, if_neg hp]
        exact hid x
    · exact .inr ⟨y, fun x => hconst _⟩

theorem latest_latest (read : Mark → Option α) (i : ElementId) (as : List (ElementId × Mark)) (x : α) :
    latest read i as (latest read i as x) = latest read i as x := by
  rcases latest_eq_or read i as with hid | ⟨y, hconst⟩
  · exact hid _
  · rw [hconst, hconst]

theorem latest_eq_of_mem {a : Mark} {y : α} (ha : (i, a) ∈ as) (hy : read a = some y)
    (h : ∀ p ∈ as, p.1 = i → ∀ z, read p.2 = some z → z = y) (x : α) : latest read i as x = y := by
  induction as generalizing x with
  | nil => cases ha
  | cons p as ih =>
    have hrest : ∀ q ∈ as, q.1 = i → ∀ z, read q.2 = some z → z = y := fun q hq =>
      h q (.tail _ hq)
    rw [latest, foldl_cons]
    rcases mem_cons.mp ha with rfl | ha
    · rw [if_pos rfl, hy, getD_some]
      exact latest_eq_self hrest
    · exact ih ha hrest _

end Mark

namespace Unfolding

variable (i : ElementId) (as : List (ElementId × Mark))

theorem rekind_eq {α : Type} (make : α → Kind) {read : Mark → Option α}
    (h : ∀ a x, (Mark.change a (make x)).getD (make x) = make ((read a).getD x)) (x : α) :
    rekind i as (make x) = make (Mark.latest read i as x) := by
  induction as generalizing x with
  | nil => rfl
  | cons p as ih =>
    have hstep : remark p.1 p.2 (i, make x) = make (if p.1 = i then (read p.2).getD x else x) := by
      unfold remark
      by_cases hp : p.1 = i
      · rw [if_pos hp.symm, if_pos hp, h]
      · rw [if_neg (Ne.symm hp), if_neg hp]
    rw [rekind, foldl_cons, hstep]
    exact ih _

theorem rekind_reference (x : String) (b : Option Binding) :
    rekind i as (.reference x b) = .reference x (Mark.latest Mark.binding? i as b) :=
  rekind_eq i as (.reference x) (fun a b => by cases a <;> rfl) b

theorem rekind_assignment (x : String) (d : Option Declaration) (value : ElementId)
    (b : Option Binding) (initializer : Bool) :
    rekind i as (.assignment x d value b initializer) =
      .assignment x d value (Mark.latest Mark.binding? i as b) initializer :=
  rekind_eq i as (fun b => .assignment x d value b initializer) (fun a b => by cases a <;> rfl) b

theorem rekind_invocation (x : String) (arguments : List ElementId) (c : Option CallTarget) :
    rekind i as (.invocation x arguments c) = .invocation x arguments (Mark.latest Mark.target? i as c) :=
  rekind_eq i as (.invocation x arguments) (fun a b => by cases a <;> rfl) c

theorem rekind_function (name : String) (params : List String) (body : ElementId) (lifted : Bool)
    (captures : List String) :
    rekind i as (.function name params body lifted captures) =
      .function name params body lifted (Mark.latest Mark.captures? i as captures) :=
  rekind_eq i as (.function name params body lifted) (fun a b => by cases a <;> rfl) captures

theorem rekind_closure (f : ElementId) (captured : List Binding) :
    rekind i as (.closure f captured) = .closure f (Mark.latest Mark.closureBindings? i as captured) :=
  rekind_eq i as (.closure f) (fun a b => by cases a <;> rfl) captured

variable {k : Kind} {u : Unfolding}

theorem rekind_eq_self (h : ∀ a : Mark, a.change k = none) : rekind i as k = k := by
  induction as with
  | nil => rfl
  | cons p as ih =>
    rw [rekind, foldl_cons, remark_eq_self (h p.2)]
    exact ih

theorem rekind_def (k : Kind) :
    rekind i as k = match k with
      | .reference x b => .reference x (Mark.latest Mark.binding? i as b)
      | .assignment x d value b initializer =>
        .assignment x d value (Mark.latest Mark.binding? i as b) initializer
      | .invocation x arguments c => .invocation x arguments (Mark.latest Mark.target? i as c)
      | .function name params body lifted captures =>
        .function name params body lifted (Mark.latest Mark.captures? i as captures)
      | .closure f captured => .closure f (Mark.latest Mark.closureBindings? i as captured)
      | k => k := by
  cases k with
  | reference x b => exact rekind_reference ..
  | assignment x d value b initializer => exact rekind_assignment ..
  | invocation x arguments c => exact rekind_invocation ..
  | function name params body lifted captures => exact rekind_function ..
  | closure f captured => exact rekind_closure ..
  | _ => exact rekind_eq_self i as fun a => by cases a <;> rfl

theorem rekind_rekind (k : Kind) : rekind i as (rekind i as k) = rekind i as k := by
  rw [rekind_def i as k]
  cases k <;> simp only [rekind_def, Mark.latest_latest]

theorem rekind_comm {bs : List (ElementId × Mark)} (has : ∀ p ∈ as, p.2.captures?.isSome = true)
    (hbs : ∀ p ∈ bs, p.2.captures? = none) (k : Kind) :
    rekind i as (rekind i bs k) = rekind i bs (rekind i as k) := by
  have hsilent : ∀ p ∈ as, p.2.binding? = none ∧ p.2.target? = none ∧ p.2.closureBindings? = none := by
    rintro ⟨j, a⟩ hp
    have hsome := has _ hp
    cases a <;> first | exact ⟨rfl, rfl, rfl⟩ | cases hsome
  rw [rekind_def i bs k, rekind_def i as k]
  cases k <;> simp only [rekind_def, Mark.latest_of_silent fun p hp => (hsilent p hp).1,
    Mark.latest_of_silent fun p hp => (hsilent p hp).2.1,
    Mark.latest_of_silent fun p hp => (hsilent p hp).2.2, Mark.latest_of_silent hbs]

theorem slots_rekind (k : Kind) : (rekind i as k).slots = k.slots := by
  rw [rekind_def]
  cases k <;> rfl

theorem accepts_rekind (role : Role) (k : Kind) : role.accepts (rekind i as k) = role.accepts k := by
  rw [rekind_def]
  cases role <;> cases k <;> rfl

theorem id_marked (u : Unfolding) : (u.marked as).id = u.id := by
  obtain ⟨i, k, o, us⟩ := u
  rw [marked_node]
  rfl

theorem preorder_marked (u : Unfolding) :
    (u.marked as).preorder = u.preorder.map fun p => (p.1, rekind p.1 as p.2) := by
  induction u with
  | node i k o us ih =>
    rw [marked_node, preorder_node, preorder_node, map_cons, flatMap_map, map_flatMap]
    rw [flatMap_congr ih]

theorem ids_marked (u : Unfolding) : (u.marked as).ids = u.ids := by
  rw [ids, preorder_marked, List.map_map]
  rfl

theorem Fits.marked (h : u.Fits) : (u.marked as).Fits := by
  induction h with
  | @node i k o us hslots _ ih =>
    rw [marked_node]
    refine .node ?_ ?_
    · rw [slots_rekind, forall₂_map_right_iff]
      refine hslots.imp fun s u hsu => ?_
      obtain ⟨j, k, o, vs⟩ := u
      rwa [id_marked, marked_node, kind, accepts_rekind]
    · intro v hv
      obtain ⟨u, hu, rfl⟩ := List.mem_map.mp hv
      exact ih u hu

variable {i} {as}

variable {name : String} {params captures : List String} {lifted : Bool} {f b j : ElementId}
  {bound : List Binding} {o o' : Origin} {us : List Unfolding} {body : Unfolding} {ids : List ElementId}

theorem rekind_eq_function {body : ElementId} (h : rekind i as k = .function name params body lifted captures) :
    ∃ captures0, k = .function name params body lifted captures0 ∧
      Mark.latest Mark.captures? i as captures0 = captures := by
  rw [rekind_def] at h
  cases k <;> cases h
  exact ⟨_, rfl, rfl⟩

theorem rekind_eq_closure (h : rekind i as k = .closure f bound) :
    ∃ bound0, k = .closure f bound0 ∧ Mark.latest Mark.closureBindings? i as bound0 = bound := by
  rw [rekind_def] at h
  cases k <;> cases h
  exact ⟨_, rfl, rfl⟩

theorem exists_of_marked (h : .node i k o us = u.marked as) :
    ∃ k0 us0, u = .node i k0 o us0 ∧ rekind i as k0 = k ∧ us0.map (·.marked as) = us := by
  obtain ⟨i0, k0, o0, us0⟩ := u
  rw [marked_node] at h
  cases h
  exact ⟨k0, us0, rfl, rfl, rfl⟩

theorem function_of_marked (h : .node i (.function name params b lifted captures) o [body] = u.marked as) :
    ∃ captures0 body0, u = .node i (.function name params b lifted captures0) o [body0] ∧
      Mark.latest Mark.captures? i as captures0 = captures ∧ body = body0.marked as := by
  obtain ⟨k0, us0, rfl, hk, hus⟩ := exists_of_marked h
  obtain ⟨captures0, rfl, hcaptures⟩ := rekind_eq_function hk
  obtain ⟨body0, rfl, hbody⟩ := map_eq_singleton_iff.mp hus
  exact ⟨captures0, body0, rfl, hcaptures, hbody.symm⟩

theorem closure_of_marked (h : .node i (.closure f bound) o [.node j (.function
    name params b lifted captures) o' [body]] = u.marked as) :
    ∃ bound0 captures0 body0, u = .node i (.closure f bound0) o
        [.node j (.function name params b lifted captures0) o' [body0]] ∧
      Mark.latest Mark.closureBindings? i as bound0 = bound ∧
      Mark.latest Mark.captures? j as captures0 = captures ∧ body = body0.marked as := by
  obtain ⟨k0, us0, rfl, hk, hus⟩ := exists_of_marked h
  obtain ⟨bound0, rfl, hbound⟩ := rekind_eq_closure hk
  obtain ⟨fn, rfl, heq⟩ := map_eq_singleton_iff.mp hus
  obtain ⟨captures0, body0, rfl, hcaptures, hbody⟩ := function_of_marked heq.symm
  exact ⟨bound0, captures0, body0, rfl, hbound, hcaptures, hbody⟩

theorem block_of_marked {v : Unfolding} {before after : List Unfolding}
    (h : .node i (.block ids) o (before ++ v :: after) = u.marked as) :
    ∃ before0 v0 after0, u = .node i (.block ids) o (before0 ++ v0 :: after0) ∧
      before = before0.map (·.marked as) ∧ v = v0.marked as := by
  obtain ⟨k0, us0, rfl, hk, hus⟩ := exists_of_marked h
  have hblock : k0 = .block ids := by
    rw [rekind_def] at hk
    cases k0 <;> cases hk
    rfl
  obtain ⟨before0, rest, rfl, hbefore, hrest⟩ := map_eq_append_iff.mp hus
  obtain ⟨v0, after0, rfl, hv, -⟩ := map_eq_cons_iff.mp hrest
  exact ⟨before0, v0, after0, by rw [hblock], hbefore.symm, hv.symm⟩

theorem module_of_marked {m : String} (h : u.marked as = .node i (.module m ids) o us)
    (hmem : .node j (.function name params b lifted captures) o' [body] ∈ us) :
    ∃ before after captures0 body0, u = .node i (.module m ids) o
        (before ++ .node j (.function name params b lifted captures0) o' [body0] :: after) ∧
      Mark.latest Mark.captures? j as captures0 = captures ∧ body = body0.marked as := by
  obtain ⟨k0, us0, rfl, hk, rfl⟩ := exists_of_marked h.symm
  have hmodule : k0 = .module m ids := by
    rw [rekind_def] at hk
    cases k0 <;> cases hk
    rfl
  obtain ⟨fn, hfn, heq⟩ := List.mem_map.mp hmem
  obtain ⟨captures0, body0, rfl, hcaptures, hbody⟩ := function_of_marked heq.symm
  obtain ⟨before, after, rfl⟩ := append_of_mem hfn
  exact ⟨before, after, captures0, body0, by rw [hmodule], hcaptures, hbody⟩

end Unfolding

namespace Tree

variable {t t' : Tree} {u : Unfolding} {id : ElementId} {a : Mark} {as : List (ElementId × Mark)}

theorem Shows.kind?_of_mem (h : t.Shows u) {p : ElementId × Kind} (hp : p ∈ u.preorder) :
    t.kind? p.1 = some p.2 := by
  induction h with
  | @node i k o us hface _ _ ih =>
    rw [Unfolding.preorder_node] at hp
    rcases mem_cons.mp hp with rfl | hp
    · exact kind?_of_face? hface
    · obtain ⟨u, hu, hp⟩ := mem_flatMap.mp hp
      exact ih u hu hp

theorem Shows.record (h : t.Shows u) (ha : t.record id a = .ok t') : t'.Shows (u.mark id a) := by
  obtain ⟨k, k', hk, hchange, rfl⟩ := annotate_eq_ok_iff.mp ha
  induction h with
  | @node i k0 o us hface hchildren _ ih =>
    rw [Unfolding.mark_node]
    refine .node ?_ ?_ ?_
    · rw [face?_setKind, hface]
      unfold Unfolding.remark
      split_ifs with hi
      · subst hi
        rw [kind?_of_face? hface] at hk
        cases hk
        simp [hchange]
      · rfl
    · rw [Kind.children, Unfolding.remark_slots, ← Kind.children, ← hchildren, List.map_map]
      exact map_congr_left fun u _ => Unfolding.id_mark u
    · intro v hv
      obtain ⟨u, hu, rfl⟩ := List.mem_map.mp hv
      exact ih u hu

theorem root_record (ha : t.record id a = .ok t') : t'.root = t.root := by
  obtain ⟨k, k', hk, hchange, rfl⟩ := annotate_eq_ok_iff.mp ha
  exact root_setKind ..

theorem element?_record (h : t.record id a = .ok t') (i : ElementId) :
    t'.element? i = (t.element? i).map fun e => { e with kind := Unfolding.remark id a (i, e.kind) } := by
  obtain ⟨k, k', hk, hchange, rfl⟩ := annotate_eq_ok_iff.mp h
  rw [element?_setKind]
  split_ifs with hi
  · obtain ⟨e, he, rfl⟩ := map_eq_some_iff.mp hk
    rw [hi, he]
    simp [Unfolding.remark, hchange]
  · simp [Unfolding.remark, hi]

theorem source_record (h : t.record id a = .ok t') : t'.source = t.source := by
  obtain ⟨k, k', -, -, rfl⟩ := annotate_eq_ok_iff.mp h
  rfl

theorem recordAll_eq_ok (h : t.recordAll as = .ok t') :
    t'.source = t.source ∧ t'.root = t.root ∧ ∀ i, t'.element? i =
      (t.element? i).map fun e => { e with kind := Unfolding.rekind i as e.kind } := by
  induction as generalizing t with
  | nil =>
    cases h
    exact ⟨rfl, rfl, fun i => by simp [Unfolding.rekind]⟩
  | cons p as ih =>
    rw [recordAll_cons] at h
    obtain ⟨t1, h1, h⟩ := bind_eq_ok_iff.mp h
    obtain ⟨hsource, hroot, helement⟩ := ih h
    refine ⟨hsource.trans (source_record h1), hroot.trans (root_record h1), fun i => ?_⟩
    rw [helement, element?_record h1, Option.map_map]
    rfl

theorem recordAll_eq_self (h : t.recordAll as = .ok t')
    (hkinds : ∀ i k, t.kind? i = some k → Unfolding.rekind i as k = k) : t' = t := by
  obtain ⟨hsource, hroot, helement⟩ := recordAll_eq_ok h
  refine ext_element? hsource hroot fun i => ?_
  rw [helement]
  cases he : t.element? i with
  | none => rfl
  | some e => rw [map_some, hkinds i e.kind (kind?_of_element? he)]

theorem exists_of_recordAll (h : t.recordAll as = .ok t') {i : ElementId} {k : Kind}
    (hk : t'.kind? i = some k) : ∃ k0, t.kind? i = some k0 ∧ k = Unfolding.rekind i as k0 := by
  obtain ⟨-, -, helement⟩ := recordAll_eq_ok h
  obtain ⟨e', he', rfl⟩ := map_eq_some_iff.mp hk
  rw [helement] at he'
  obtain ⟨e, he, rfl⟩ := map_eq_some_iff.mp he'
  exact ⟨e.kind, kind?_of_element? he, rfl⟩

theorem Shows.recordAll (h : t.Shows u) (has : ∀ p ∈ as, u.Takes p) :
    ∃ t', t.recordAll as = .ok t' ∧ t'.Shows (u.marked as) ∧ t'.root = t.root := by
  induction as generalizing t u with
  | nil => exact ⟨t, rfl, h, rfl⟩
  | cons p as ih =>
    obtain ⟨k, hk, hsome⟩ := has p (.head _)
    obtain ⟨k', hchange⟩ := isSome_iff_exists.mp hsome
    have hrecord : t.record p.1 p.2 = .ok (t.setKind p.1 k') :=
      annotate_eq_ok_iff.mpr ⟨k, k', h.kind?_of_mem hk, hchange, rfl⟩
    obtain ⟨t', ht', hshows, hroot⟩ := ih (h.record hrecord) fun q hq => (has q (.tail _ hq)).mark
    refine ⟨t', ?_, hshows, hroot.trans (root_record hrecord)⟩
    rw [recordAll_cons, hrecord]
    exact ht'

end Tree

end Clausal
