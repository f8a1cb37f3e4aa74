import Clausal.Proofs.Tree.Histories
import Clausal.Proofs.Tree.Moves

/-! # Replacing is a splice

In an owned tree `replace` succeeds exactly when the replacement is `Replaceable` (`replace_eq_ok_iff`). -/

namespace Clausal

open List Option Unfolding

/-! ### Kinds without their children -/

/-- A kind without its children: they are all the same, but there are as many of them. -/
def Kind.payload : Kind → Kind
  | module name functions => module name (functions.map fun _ => 0)
  | function name params _ isClosure captures => function name params 0 isClosure captures
  | block statements => block (statements.map fun _ => 0)
  | caseOf clauses _ => caseOf (clauses.map fun _ => 0) 0
  | whenClause _ _ arm => whenClause 0 0 arm
  | conditional _ _ elseBranch => conditional 0 0 (elseBranch.map fun _ => 0)
  | loop _ _ => loop 0 0
  | assignment name declaration _ binding initializer => assignment name declaration 0 binding initializer
  | returns value => returns (value.map fun _ => 0)
  | constant value => constant value
  | reference name binding => reference name binding
  | binary operator _ _ => binary operator 0 0
  | unary operator _ => unary operator 0
  | invocation name arguments target => invocation name (arguments.map fun _ => 0) target
  | closure _ captured => closure 0 captured
  | matchOf clauses _ => matchOf (clauses.map fun _ => 0) 0

namespace Kind

variable {k k' : Kind} {i : Nat} {role : Role} {old new : ElementId}

theorem payload_setSlot (k : Kind) (i : Nat) (c : ElementId) : (k.setSlot i c).payload = k.payload := by
  unfold setSlot
  split <;> (try split_ifs) <;> simp [payload]

theorem slots_setSlot_eq_set (h : k.slots[i]? = some (role, old)) :
    (k.setSlot i new).slots = k.slots.set i (role, new) := by
  rw [slots_setSlot, modify_eq_set_getElem?, h]
  rfl

theorem eq_of_payload_eq (hslots : k.slots = k'.slots) (hpayload : k.payload = k'.payload) : k = k' := by
  have hinj (role : Role) : Function.Injective fun c : ElementId => (role, c) := Prod.mk_right_injective role
  have hrow (role : Role) {cs cs' : List ElementId} : cs.map (role, ·) = cs'.map (role, ·) ↔ cs = cs' :=
    (map_injective_iff.mpr (hinj role)).eq_iff
  have hoption {x y : Option ElementId} : x.toList = y.toList ↔ x = y := by cases x <;> cases y <;> simp
  cases k <;> cases k' <;> simp only [payload, reduceCtorEq] at hpayload <;>
    simp_all [slots]

theorem setSlot_setSlot (h : k.slots[i]? = some (role, old)) : (k.setSlot i new).setSlot i old = k := by
  obtain ⟨hlt, hget⟩ := List.getElem?_eq_some_iff.mp h
  refine eq_of_payload_eq ?_ (by rw [payload_setSlot, payload_setSlot])
  have hnew : (k.setSlot i new).slots[i]? = some (role, new) := by
    rw [slots_setSlot_eq_set h, getElem?_set_self hlt]
  rw [slots_setSlot_eq_set hnew, slots_setSlot_eq_set h, set_set, ← hget, set_getElem_self]

/-- Writing a position and reading the positions agree: only the child at that position is another one, its role
and all other positions are the same, and so is everything that is not a child. -/
theorem slots_write (k : Kind) (c : ElementId) {p : Nat} (hp : p < k.slots.length) :
    (k.setSlot p c).slots = k.slots.set p (k.slots[p].1, c) ∧
      (k.setSlot p c).slots.map Prod.fst = k.slots.map Prod.fst ∧
      (∀ q ≠ p, (k.setSlot p c).slots[q]? = k.slots[q]?) ∧
      (k.setSlot p c).slots.length = k.slots.length ∧ (k.setSlot p c).payload = k.payload := by
  have hslots : (k.setSlot p c).slots = k.slots.set p (k.slots[p].1, c) :=
    slots_setSlot_eq_set (List.getElem?_eq_getElem hp)
  rw [hslots]
  refine ⟨rfl, ?_, fun q hq => getElem?_set_ne hq.symm, length_set .., payload_setSlot ..⟩
  have hp' : p < (k.slots.map Prod.fst).length := by rwa [length_map]
  rw [map_set, ← getElem_map Prod.fst (h := hp'), set_getElem_self]

theorem conditional_slots_write :
    2 < (conditional 3 4 (some 5)).slots.length ∧
      ((conditional 3 4 (some 5)).setSlot 2 9).slots =
        (conditional 3 4 (some 5)).slots.set 2 (.elseBranch, 9) :=
  ⟨by decide, (slots_write (conditional 3 4 (some 5)) 9 (by decide)).1⟩

end Kind

namespace Tree

variable {t : Tree} {owner old new : ElementId} {i : Nat}

/-! ### Success -/

/-- What it takes for `new` to take the place of `old` under `owner`: the place accepts it, and it is `old` itself or
else free to move there. -/
structure Replaceable (t : Tree) (owner old new : ElementId) : Prop where
  owner_lt : owner < t.size
  old_lt : old < t.size
  new_lt : new < t.size
  /-- The place of `old` accepts `new`. -/
  place : ∃ k role kn, t.kind? owner = some k ∧ (role, old) ∈ k.slots ∧ t.kind? new = some kn ∧ role.accepts kn = true
  /-- Nobody holds `new`, it is not the root, and `owner` is neither `new` nor below it. -/
  free : new = old ∨ t.parent new = none ∧ t.root ≠ some new ∧ new ≠ owner ∧ ¬ t.Below owner new

theorem Exchangeable.replaceable (h : t.Owned) (hex : t.Exchangeable owner old new i) :
    t.Replaceable owner old new := by
  obtain ⟨⟨k, role, kn, hk, hslot, hkn, hacc⟩, -, hfree, hroot, howner, habove⟩ := hex
  have hmem : (role, old) ∈ k.slots := mem_of_getElem? hslot
  obtain ⟨_, hkd, -⟩ := h.fits owner k _ hk hmem
  refine ⟨lt_size_of_kind? hk, lt_size_of_kind? hkd, lt_size_of_kind? hkn, ⟨k, role, kn, hk, hmem, hkn, hacc⟩,
    .inr ⟨hfree, hroot, Ne.symm howner, ?_⟩⟩
  rwa [← h.mem_ancestors_iff]

variable {t' : Tree}

theorem replace_cases (h : t.replace owner old new = .ok t') :
    t' = t ∧ old = new ∧ (∃ k role kn, t.kind? owner = some k ∧ (role, old) ∈ k.slots ∧ t.kind? new = some kn ∧
        role.accepts kn = true) ∨
      ∃ i, t.Exchangeable owner old new i ∧ t' = t.splice owner old new i := by
  obtain ⟨place, hplace, h⟩ := bind_eq_ok_iff.mp h
  rcases checkReplacement_cases hplace with ⟨k, role, kn, i, hk, hslot, hkn, hacc, hsame, rfl⟩ | ⟨i, hex, rfl⟩
  · cases h
    exact .inl ⟨rfl, hsame, k, role, kn, hk, mem_of_getElem? hslot, hkn, hacc⟩
  · cases h
    exact .inr ⟨i, hex, rfl⟩

theorem replace_of_exchangeable (h : t.Owned) (hex : t.Exchangeable owner old new i) :
    t.replace owner old new = .ok (t.splice owner old new i) := by
  rw [Tree.replace, checkReplacement_of_exchangeable h hex]
  rfl

variable {k : Kind}

theorem replace_self (h : t.Owned) {role : Role} (hk : t.kind? owner = some k) (hmem : (role, old) ∈ k.slots) :
    t.replace owner old old = .ok t := by
  obtain ⟨i, hslot⟩ := mem_iff_getElem?.mp hmem
  obtain ⟨kd, hkd, hacc⟩ := h.fits owner k _ hk hmem
  rw [Tree.replace, checkReplacement_eq_of_place h hk hslot hkd hacc, if_pos rfl]
  rfl

theorem replace_eq_ok_iff (h : t.Owned) :
    (∃ t', t.replace owner old new = .ok t') ↔ t.Replaceable owner old new := by
  constructor
  · rintro ⟨t', hreplace⟩
    rcases replace_cases hreplace with ⟨-, rfl, k, role, kn, hk, hmem, hkn, hacc⟩ | ⟨i, hex, -⟩
    · exact ⟨lt_size_of_kind? hk, lt_size_of_kind? hkn, lt_size_of_kind? hkn, ⟨k, role, kn, hk, hmem, hkn, hacc⟩,
        .inl rfl⟩
    · exact hex.replaceable h
  · rintro ⟨-, -, -, ⟨k, role, kn, hk, hmem, hkn, hacc⟩, hfree⟩
    by_cases hne : new = old
    · rw [hne]
      exact ⟨t, replace_self h hk hmem⟩
    · obtain ⟨hnone, hroot, howner, hbelow⟩ := hfree.resolve_left hne
      obtain ⟨i, hslot⟩ := mem_iff_getElem?.mp hmem
      refine ⟨_, replace_of_exchangeable h ⟨⟨k, role, kn, hk, hslot, hkn, hacc⟩, Ne.symm hne, hnone, hroot,
        Ne.symm howner, ?_⟩⟩
      rwa [h.mem_ancestors_iff]

/-! ### The arena -/

theorem element?_splice (hk : t.kind? owner = some k) (x : ElementId) :
    (t.splice owner old new i).element? x = (t.element? x).map fun e =>
      { e with
        kind := if x = owner then k.setSlot i new else e.kind
        parent := if x = old then none else if x = new then some owner else e.parent } := by
  unfold splice
  simp only [hk, element?_setParent, element?_setKind]
  cases t.element? x with
  | none => simp
  | some e => split_ifs <;> rfl

@[simp] theorem source_splice (owner old new : ElementId) (i : Nat) :
    (t.splice owner old new i).source = t.source := by
  unfold splice
  cases t.kind? owner <;> rfl

/-! ### The way back -/

namespace Exchangeable

variable (h : t.Owned) (hex : t.Exchangeable owner old new i)
include hex

theorem new_lt_size : new < t.size := by
  obtain ⟨⟨_, _, _, -, -, hkn, -⟩, -⟩ := hex
  exact lt_size_of_kind? hkn

include h

theorem parent_old : t.parent old = some owner := by
  obtain ⟨⟨k, role, _, hk, hslot, -, -⟩, -⟩ := hex
  exact h.parent_of_kind? hk (Kind.mem_children_of_mem_slots (mem_of_getElem? hslot))

theorem owner_ne_old : owner ≠ old := by
  rintro rfl
  exact h.acyclic owner (.single (hex.parent_old h))

theorem not_below : ¬ t.Below owner new := fun hb => hex.not_above (h.mem_ancestors_iff.mpr hb)

theorem back : (t.splice owner old new i).Exchangeable owner new old i := by
  have hold := hex.parent_old h
  have hparent : ∀ x, (t.splice owner old new i).parent x =
      if x = old then none else if x = new then some owner else t.parent x :=
    parent_splice (lt_size_of_parent hold) hex.new_lt_size i
  have hbelow : ¬ (t.splice owner old new i).Below owner old := by
    intro hb
    rcases below_splice (lt_size_of_parent hold) (hex.new_lt_size) (Ne.symm hex.not_owner) (hex.not_below h) hb with
      hb | ⟨hb | hb, -⟩
    · exact h.acyclic owner (hb.tail hold)
    · exact hex.not_owner hb
    · exact hex.not_below h hb
  obtain ⟨k, role, kn, hk, hslot, hkn, hacc⟩ := hex.place
  obtain ⟨hlt, -⟩ := List.getElem?_eq_some_iff.mp hslot
  obtain ⟨kd, hkd, haccd⟩ := h.fits owner k _ hk (mem_of_getElem? hslot)
  refine ⟨⟨k.setSlot i new, role, kd, ?_, ?_, ?_, haccd⟩, Ne.symm hex.ne, ?_, ?_, hex.owner_ne_old h, ?_⟩
  · rw [kind?_splice hk, if_pos rfl]
  · rw [Kind.slots_setSlot_eq_set hslot, getElem?_set_self hlt]
  · rw [kind?_splice hk, if_neg (Ne.symm (hex.owner_ne_old h))]
    exact hkd
  · rw [hparent, if_pos rfl]
  · rw [root_splice]
    exact h.parent_root hold
  · rwa [(h.splice hex).mem_ancestors_iff]

theorem splice_splice : (t.splice owner old new i).splice owner new old i = t := by
  obtain ⟨k, role, kn, hk, hslot, hkn, hacc⟩ := hex.place
  have hk' : (t.splice owner old new i).kind? owner = some (k.setSlot i new) := by rw [kind?_splice hk, if_pos rfl]
  refine ext_element? (by simp) (by simp) fun x => ?_
  rw [element?_splice hk', element?_splice hk, Option.map_map]
  cases he : t.element? x with
  | none => rfl
  | some e =>
    have hkind : x = owner → k = e.kind := by
      rintro rfl
      exact Option.some.inj (hk.symm.trans (kind?_of_element? he))
    have hnew : x = new → none = e.parent := by
      rintro rfl
      rw [← parent_of_element? he, hex.free]
    have hold : x = old → some owner = e.parent := by
      rintro rfl
      rw [← parent_of_element? he, hex.parent_old h]
    simp only [map_some, Function.comp_apply, Kind.setSlot_setSlot hslot]
    congr 2
    · split_ifs with hx
      · exact hkind hx
      · rfl
    · split_ifs with h1 h2
      · exact hnew h1
      · exact hold h2
      · rfl

end Exchangeable

/-! ### The elements under the root -/

def subtree (t : Tree) (id : ElementId) : List ElementId := t.reachableFrom t.size [id]

variable {u : Unfolding}

theorem Shows.subtree_eq (hs : t.Shows u) (h : t.Owned) : t.subtree u.id = u.ids :=
  hs.reachableFrom_eq h le_rfl

theorem Climb.getLast?_eq {x : Option ElementId} {ps : List ElementId} (hc : Climb t x ps) {a : ElementId}
    (ha : a ∈ ps) (hfree : t.parent a = none) : ps.getLast? = some a := by
  induction hc with
  | stop => cases ha
  | @step p ps hc ih =>
    rcases mem_cons.mp ha with rfl | ha
    · rw [hfree] at hc
      cases hc
      rfl
    · rw [getLast?_cons, ih ha]
      rfl

theorem reachable_eq_nil (hroot : t.root = none) : t.reachable = [] := by
  rw [reachable, hroot]
  unfold reachableFrom
  rfl

theorem Owned.isReachable_iff (h : t.Owned) {x : ElementId} : t.isReachable x = true ↔ x ∈ t.reachable := by
  cases hroot : t.root with
  | none =>
    rw [reachable_eq_nil hroot, isReachable, hroot]
    cases (t.ancestors x).getLast? <;> simp
  | some r =>
    obtain ⟨u, hu⟩ := h.exists_unfoldRoot hroot
    obtain ⟨hs, hr⟩ := h.unfoldRoot_eq_some_iff.mp hu
    obtain rfl : u.id = r := Option.some.inj (hr.symm.trans hroot)
    have hfree := (h.root_free _ hroot).2
    have hlast : (t.ancestors x).getLast? = some u.id ↔ t.Below x u.id := by
      rw [← h.mem_ancestors_iff]
      exact ⟨fun hl => mem_of_getLast? hl, fun hm => (h.climb_ancestors x).getLast?_eq hm hfree⟩
    have hreach : t.isReachable x = true ↔ u.id = x ∨ t.Below x u.id := by
      rw [isReachable, hroot, ← hlast]
      cases (t.ancestors x).getLast? with
      | none => simp
      | some top => simp [eq_comm (a := top)]
    rw [hreach, h.reachable_eq hu]
    constructor
    · rintro (rfl | hb)
      · exact u.id_mem_ids
      · exact hs.mem_ids_of_below h hb
    · intro hx
      exact (Relation.reflTransGen_iff_eq_or_transGen.mp (hs.mem_ids h hx)).imp_left id

theorem Shows.splice_of_notMem (hu : t.Shows u) (hex : t.Exchangeable owner old new i)
    (howner : owner ∉ u.ids) : (t.splice owner old new i).Shows u := by
  obtain ⟨k, -, -, hk, -⟩ := hex.place
  obtain ⟨e, he, -⟩ := map_eq_some_iff.mp hk
  refine hu.congr fun x hx => ?_
  rw [face?_splice (face?_of_element? he), if_neg]
  rintro rfl
  exact howner hx

theorem exists_exchanged_top (h : t.Owned) (hex : t.Exchangeable owner old new i) (hu : t.Shows u)
    (hid : u.id = owner) :
    ∃ u' before after, (t.splice owner old new i).Shows u' ∧ u'.id = owner ∧
      u.ids = before ++ t.subtree old ++ after ∧ u'.ids = before ++ t.subtree new ++ after := by
  obtain ⟨j, k, o, us⟩ := u
  obtain rfl : owner = j := hid.symm
  have hface : t.face? owner = some (k, o) := hu.face?
  obtain ⟨n, hn, rfl⟩ := h.exists_shows hex.new_lt_size
  obtain ⟨k', role, -, hk', hslot, -, -⟩ := hex.place
  obtain rfl : k' = k := Option.some.inj (hk'.symm.trans (kind?_of_face? hface))
  have hchild : (us.map Unfolding.id)[i]? = some old := by
    rw [hu.children, Kind.children, getElem?_map, hslot]
    rfl
  rw [getElem?_map] at hchild
  obtain ⟨d, hd, rfl⟩ := map_eq_some_iff.mp hchild
  obtain ⟨hlt, hget⟩ := List.getElem?_eq_some_iff.mp hd
  have hus : us = us.take i ++ d :: us.drop (i + 1) := by
    rw [← hget, ← drop_eq_getElem_cons hlt, take_append_drop]
  have hbelow : ∀ v ∈ us, owner ∉ v.ids := by
    have hnodup := hu.nodup_ids h
    rw [ids_node] at hnodup
    exact fun v hv hm => (nodup_cons.mp hnodup).1 (mem_flatMap.mpr ⟨v, hv, hm⟩)
  have hnew : owner ∉ n.ids := by
    intro hm
    rcases Relation.reflTransGen_iff_eq_or_transGen.mp (hn.mem_ids h hm) with heq | hb
    · exact hex.not_owner heq.symm
    · exact hex.not_below h hb
  refine ⟨.node owner (k'.setSlot i n.id) o (us.set i n), owner :: (us.take i).flatMap ids,
    (us.drop (i + 1)).flatMap ids, .node ?_ ?_ fun v hv => ?_, rfl, ?_, ?_⟩
  · rw [face?_splice hface, if_pos rfl]
  · rw [map_set, hu.children, Kind.children_setSlot]
  · rcases mem_or_eq_of_mem_set hv with hv | rfl
    · exact (hu.child v hv).splice_of_notMem hex (hbelow v hv)
    · exact hn.splice_of_notMem hex hnew
  · rw [(hu.child d (mem_of_getElem? hd)).subtree_eq h, ids_node]
    nth_rewrite 1 [hus]
    simp
  · rw [hn.subtree_eq h, ids_node, set_eq_take_append_cons_drop, if_pos hlt]
    simp

theorem exists_exchanged (h : t.Owned) (hex : t.Exchangeable owner old new i) (hu : t.Shows u)
    (howner : owner ∈ u.ids) :
    ∃ u' before after, (t.splice owner old new i).Shows u' ∧ u'.id = u.id ∧
      u.ids = before ++ t.subtree old ++ after ∧ u'.ids = before ++ t.subtree new ++ after := by
  induction u with
  | node j k o us ih =>
    by_cases hj : j = owner
    · obtain ⟨u', before, after, hu', hid, hids⟩ := exists_exchanged_top h hex hu hj
      exact ⟨u', before, after, hu', hid.trans hj.symm, hids⟩
    -- one child shows the owner, and the others do not
    have hnodup := hu.nodup_ids h
    rw [ids_node] at hnodup howner
    obtain ⟨v, hv, hm⟩ := mem_flatMap.mp ((mem_cons.mp howner).resolve_left (Ne.symm hj))
    obtain ⟨v', before, after, hv', hid, hids, hids'⟩ := ih v hv (hu.child v hv) hm
    obtain ⟨vs, ws, rfl⟩ := append_of_mem hv
    rw [flatMap_append, flatMap_cons] at hnodup
    obtain ⟨-, hrow, hleft⟩ := nodup_append.mp hnodup.of_cons
    obtain ⟨-, -, hright⟩ := nodup_append.mp hrow
    have hothers : ∀ w ∈ vs ++ ws, owner ∉ w.ids := by
      intro w hw hmw
      rcases mem_append.mp hw with hw | hw
      · exact hleft _ (mem_flatMap.mpr ⟨w, hw, hmw⟩) _ (mem_append_left _ hm) rfl
      · exact hright _ hm _ (mem_flatMap.mpr ⟨w, hw, hmw⟩) rfl
    have hchildren := hu.children
    refine ⟨.node j k o (vs ++ v' :: ws), j :: vs.flatMap ids ++ before,
      after ++ ws.flatMap ids, .node ?_ ?_ fun w hw => ?_, rfl, ?_, ?_⟩
    · obtain ⟨ko, -, -, hko, -⟩ := hex.place
      obtain ⟨e, he, -⟩ := map_eq_some_iff.mp hko
      rw [face?_splice (face?_of_element? he), if_neg hj]
      exact hu.face?
    · rw [← hchildren]
      simp [hid]
    · rcases mem_append.mp hw with hw' | hw'
      · exact (hu.child w (by simp [hw'])).splice_of_notMem hex (hothers w (by simp [hw']))
      · rcases mem_cons.mp hw' with rfl | hw'
        · exact hv'
        · exact (hu.child w (by simp [hw'])).splice_of_notMem hex (hothers w (by simp [hw']))
    · simp [ids_node, hids]
    · simp [ids_node, hids']

/-! ### Replacing -/

/-- The second tree is the first one with `new` in the place of `old` under `owner`. -/
structure Spliced (t t' : Tree) (owner old new : ElementId) : Prop where
  source : t'.source = t.source
  root : t'.root = t.root
  /-- All elements but three are the same. -/
  others : ∀ x, x ≠ owner → x ≠ old → x ≠ new → t'.element? x = t.element? x
  released : ∃ e, t.element? old = some e ∧ t'.element? old = some { e with parent := none }
  adopted : ∃ e, t.element? new = some e ∧ t'.element? new = some { e with parent := some owner }
  /-- The place of `old` holds `new`; its role, the other places and all else in the owner are the same. -/
  place : ∃ e k' role, ∃ i : Nat, t.element? owner = some e ∧ t'.element? owner = some { e with kind := k' } ∧
    e.kind.slots[i]? = some (role, old) ∧ k'.slots = e.kind.slots.set i (role, new) ∧ k'.payload = e.kind.payload
  /-- Under the root the block of `old` is exchanged for that of `new`. -/
  reachable : t.isReachable owner = true →
    ∃ before after, t.reachable = before ++ t.subtree old ++ after ∧ t'.reachable = before ++ t.subtree new ++ after
  /-- Away from the root nothing is seen of it. -/
  detached : t.isReachable owner = false → t'.reachable = t.reachable

section
variable (h : t.Owned) (hex : t.Exchangeable owner old new i)
include h hex

theorem Exchangeable.reachable_splice
    (howner : t.isReachable owner = true) :
    ∃ before after, t.reachable = before ++ t.subtree old ++ after ∧
      (t.splice owner old new i).reachable = before ++ t.subtree new ++ after := by
  rw [h.isReachable_iff] at howner
  cases hroot : t.root with
  | none =>
    rw [reachable_eq_nil hroot] at howner
    cases howner
  | some r =>
    obtain ⟨u, hu⟩ := h.exists_unfoldRoot hroot
    obtain ⟨hs, hr⟩ := h.unfoldRoot_eq_some_iff.mp hu
    rw [h.reachable_eq hu] at howner ⊢
    obtain ⟨u', before, after, hu', hid, hids, hids'⟩ := exists_exchanged h hex hs howner
    have hunfold : (t.splice owner old new i).unfoldRoot = some u' :=
      (h.splice hex).unfoldRoot_eq_some_iff.mpr ⟨hu', by rw [root_splice, hr, hid]⟩
    exact ⟨before, after, hids, by rw [(h.splice hex).reachable_eq hunfold, hids']⟩

theorem Exchangeable.reachable_splice_of_not
    (howner : t.isReachable owner = false) : (t.splice owner old new i).reachable = t.reachable := by
  have howner : owner ∉ t.reachable := by
    rw [← h.isReachable_iff, howner]
    exact Bool.false_ne_true
  cases hroot : t.root with
  | none => rw [reachable_eq_nil hroot, reachable_eq_nil (by rw [root_splice, hroot])]
  | some r =>
    obtain ⟨u, hu⟩ := h.exists_unfoldRoot hroot
    obtain ⟨hs, hr⟩ := h.unfoldRoot_eq_some_iff.mp hu
    rw [h.reachable_eq hu] at howner ⊢
    refine (h.splice hex).reachable_eq ((h.splice hex).unfoldRoot_eq_some_iff.mpr ⟨?_, ?_⟩)
    · exact hs.splice_of_notMem hex howner
    · rw [root_splice, hr]

theorem Exchangeable.spliced :
    Spliced t (t.splice owner old new i) owner old new := by
  obtain ⟨k, role, kn, hk, hslot, hkn, hacc⟩ := hex.place
  obtain ⟨e, he, rfl⟩ := map_eq_some_iff.mp hk
  obtain ⟨d, hd⟩ := lt_size_iff.mp (lt_size_of_parent (hex.parent_old h))
  obtain ⟨n, hn, -⟩ := map_eq_some_iff.mp hkn
  have helement := @element?_splice t owner old new i _ hk
  have howner := hex.owner_ne_old h
  refine ⟨source_splice .., root_splice .., fun x h1 h2 h3 => ?_, ⟨d, hd, ?_⟩, ⟨n, hn, ?_⟩,
    ⟨e, e.kind.setSlot i new, role, i, he, ?_, hslot, Kind.slots_setSlot_eq_set hslot, Kind.payload_setSlot ..⟩,
    hex.reachable_splice h, hex.reachable_splice_of_not h⟩
  · rw [helement]
    simp [h1, h2, h3]
  · rw [helement, hd]
    simp [Ne.symm howner]
  · rw [helement, hn]
    simp [Ne.symm hex.ne, Ne.symm hex.not_owner]
  · rw [helement, he]
    simp [howner, hex.not_owner]

end

theorem exists_replace_iff {w : Workbench} :
    (∃ w', Edit.replace owner old new w = .ok () w' ∧ w'.tree = t') ↔ w.tree.replace owner old new = .ok t' := by
  obtain ⟨event, heq⟩ := Edit.replace_apply owner old new w
  rw [heq, Tree.replace]
  cases w.tree.checkReplacement owner old new with
  | error fault => exact iff_of_false nofun nofun
  | ok place =>
    cases place with
    | none =>
      constructor
      · rintro ⟨w', ⟨⟩, rfl⟩
        rfl
      · rintro ⟨⟩
        exact ⟨w, rfl, rfl⟩
    | some i =>
      constructor
      · rintro ⟨w', ⟨⟩, rfl⟩
        rfl
      · rintro ⟨⟩
        exact ⟨_, rfl, rfl⟩

/-- Replacing succeeds exactly for what is free to take the place.  It leaves the tree alone if the two elements are
the same; if not, it is a splice, in the arena and in the list of the elements under the root.  Replacing the other way
round leads back to the tree there was.  The step of work on a workbench does the same to its tree. -/
theorem replace_reversible_splice (h : t.Owned) (owner old new : ElementId) :
    ((∃ t', t.replace owner old new = .ok t') ↔ t.Replaceable owner old new) ∧
      (∀ t', t.replace owner old new = .ok t' →
        (new = old → t' = t) ∧ (new ≠ old → Spliced t t' owner old new) ∧ t'.replace owner new old = .ok t) ∧
      ∀ (w : Workbench) t', w.tree = t →
        ((∃ w', Edit.replace owner old new w = .ok () w' ∧ w'.tree = t') ↔ t.replace owner old new = .ok t') := by
  refine ⟨replace_eq_ok_iff h, fun t' hreplace => ?_, fun w t' hw => hw ▸ exists_replace_iff⟩
  rcases replace_cases hreplace with ⟨rfl, rfl, -⟩ | ⟨i, hex, rfl⟩
  · exact ⟨fun _ => rfl, fun hne => absurd rfl hne, hreplace⟩
  · refine ⟨fun heq => absurd heq.symm hex.ne, fun _ => hex.spliced h, ?_⟩
    rw [replace_of_exchangeable (h.splice hex) (hex.back h), hex.splice_splice h]

/-- A block that returns a number, and a negation that nobody holds. -/
def negation : Tree :=
  reached "negation" [.alloc (.constant (.int 1)) .synthetic, .alloc (.returns (some 0)) .synthetic,
    .alloc (.constant (.bool true)) .synthetic, .alloc (.unary .not 2) .synthetic, .alloc (.block [1]) .synthetic,
    .setRoot 4]

theorem negation_owned : negation.Owned := foldl_perform_owned (empty_owned _) _

theorem negation_spliced :
    negation.Owned ∧ negation.reachable = [4, 1, 0] ∧ negation.isReachable 1 = true ∧
      ∃ t', negation.replace 1 0 3 = .ok t' ∧ negation.Replaceable 1 0 3 ∧ Spliced negation t' 1 0 3 ∧
        t'.reachable = [4, 1, 3, 2] ∧ t'.replace 1 3 0 = .ok negation := by
  obtain ⟨hiff, hok, -⟩ := replace_reversible_splice negation_owned 1 0 3
  have hreplace : negation.replace 1 0 3 = .ok (negation.splice 1 0 3 0) := rfl
  obtain ⟨-, hspliced, hback⟩ := hok _ hreplace
  exact ⟨negation_owned, rfl, rfl, _, hreplace, hiff.mp ⟨_, hreplace⟩, hspliced (by decide), rfl, hback⟩

end Tree

end Clausal
