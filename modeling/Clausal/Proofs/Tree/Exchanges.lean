import Clausal.Proofs.Tree.Moves

/-! # Exchanging statements

A pass that rewrites statements takes one out of its block and puts another one there, made of parts of the
old one.  `Moved t t' us us' f` is what such exchanges in the unfoldings `us` leave of them and of the rest of
the tree: -/

namespace Clausal

open Clausal.Tree List Kind

/-! ### Statements and their blocks -/

namespace Kind

def isStep : Kind → Bool
  | .caseOf .. | .loop .. | .assignment .. | .returns .. => true
  | _ => false

def relabel (f : ElementId → ElementId) : Kind → Kind
  | .block ids => .block (ids.map f)
  | k => k

variable {f : ElementId → ElementId} {k k' : Kind}

theorem relabel_eq_self (h : ∀ c ∈ k.children, f c = c) : relabel f k = k := by
  cases k with
  | block ids =>
    have hids : ids.map f = ids.map id := map_congr_left fun c hc =>
      h c (by simpa [Kind.children, slots] using hc)
    rw [relabel, hids, map_id]
  | _ => rfl

def holding (ids : List ElementId) : Kind → Kind
  | .block _ => .block ids
  | k => k

theorem relabel_eq_holding (f : ElementId → ElementId) (k : Kind) :
    relabel f k = k.holding (relabel f k).children := by
  cases k with
  | block ids => simp [relabel, holding, Kind.children, slots]
  | _ => rfl

theorem relabel_id (k : Kind) : relabel id k = k := relabel_eq_self fun _ _ => rfl

theorem relabel_relabel (f g : ElementId → ElementId) (k : Kind) :
    relabel g (relabel f k) = relabel (g ∘ f) k := by
  cases k <;> simp [relabel]

theorem mem_children_relabel {c : ElementId} (hc : c ∈ k.children) (hf : f c = c) :
    c ∈ (relabel f k).children := by
  cases k with
  | block ids =>
    have hc : c ∈ ids := by simpa [Kind.children, slots] using hc
    simpa [relabel, Kind.children, slots] using ⟨c, hc, hf⟩
  | _ => exact hc

theorem children_relabel (h : (∀ ids, k ≠ .block ids) → ∀ c ∈ k.children, f c = c) :
    (relabel f k).children = k.children.map f := by
  by_cases hk : ∃ ids, k = .block ids
  · obtain ⟨ids, rfl⟩ := hk
    simp [relabel, Kind.children, slots]
  · have hfix := h fun ids heq => hk ⟨ids, heq⟩
    rw [relabel_eq_self hfix, map_congr_left hfix, map_id']

def Akin (k k' : Kind) : Prop := k' = k ∨ ∃ ids ids', k = .block ids ∧ k' = .block ids'

theorem Akin.refl (k : Kind) : k.Akin k := .inl rfl

theorem Akin.symm (h : k.Akin k') : k'.Akin k := by
  rcases h with rfl | ⟨ids, ids', rfl, rfl⟩
  · exact .refl _
  · exact .inr ⟨ids', ids, rfl, rfl⟩

theorem akin_holding (k : Kind) (ids : List ElementId) : k.Akin (k.holding ids) := by
  cases k with
  | block => exact .inr ⟨_, _, rfl, rfl⟩
  | _ => exact .refl _

theorem block_of_accepts_isStep {s : Role × ElementId} (hs : s ∈ k.slots) (hk' : k'.isStep = true)
    (ha : s.1.accepts k' = true) : ∃ ids, k = .block ids := by
  obtain ⟨role, c⟩ := s
  cases role with
  | statement => exact block_of_statement hs
  | _ => cases k' <;> simp [isStep, Role.accepts, isExpression] at hk' ha

end Kind

variable {t : Tree} {i p : ElementId} {k : Kind} {us : List Unfolding} {R : Unfolding → Unfolding → Prop}
  {T : Tally} {w : Workbench} {u : Unfolding} {step : Unfolding → Edit Nat}
  {steps : List Unfolding → Edit Nat}

theorem Tree.Owned.owner_of_isStep (h : t.Owned) (hk : t.kind? i = some k) (hstep : k.isStep = true)
    (hp : t.parent i = some p) :
    ∃ ids o, ∃ n : Nat, t.face? p = some (.block ids, o) ∧ ids[n]? = some i ∧ ids.Nodup := by
  obtain ⟨kp, hkp, hmem⟩ := h.mem_children_of_parent hp
  obtain ⟨role, hs⟩ := exists_slot_of_mem_children hmem
  obtain ⟨k', hk', ha⟩ := h.fits p kp _ hkp hs
  rw [hk] at hk'
  cases hk'
  obtain ⟨ids, rfl⟩ := Kind.block_of_accepts_isStep hs hstep ha
  have hnodup := h.nodup_children p
  rw [children_of_kind? hkp] at hnodup
  have hids : (Kind.block ids).children = ids := by simp [Kind.children, slots]
  rw [hids] at hmem hnodup
  obtain ⟨n, hn⟩ := mem_iff_getElem?.mp hmem
  obtain ⟨e, he, hkind⟩ := Option.map_eq_some_iff.mp hkp
  exact ⟨ids, e.origin, n, by rw [face?_of_element? he, hkind], hn, hnodup⟩

theorem Unfolding.id_mem_flatMap {c : ElementId} (hc : c ∈ us.map Unfolding.id) :
    c ∈ us.flatMap Unfolding.ids := by
  obtain ⟨u, hu, rfl⟩ := mem_map.mp hc
  exact mem_flatMap.mpr ⟨u, hu, u.id_mem_ids⟩

/-! ### Rewritten parts -/

/-- Statements in some unfoldings have been exchanged.  Each of the unfoldings is followed by another one,
under the id that `f` gives, and a block that holds one of them is the only thing outside that changed. -/
structure Moved (t t' : Tree) (us us' : List Unfolding) (f : ElementId → ElementId) : Prop where
  owned : t'.Owned
  root : t'.root = t.root
  size : t.size ≤ t'.size
  shows : ∀ u ∈ us', t'.Shows u
  ids : us'.map Unfolding.id = us.map fun u => f u.id
  fixed : ∀ c, c ∉ us.map Unfolding.id → f c = c
  kept : ∀ u ∈ us, u.kind.isStep = false → f u.id = u.id
  fresh : ∀ x ∈ us'.flatMap Unfolding.ids, x ∈ us.flatMap Unfolding.ids ∨ t.size ≤ x
  face? : ∀ x, x < t.size → x ∉ us.flatMap Unfolding.ids →
    t'.face? x = (t.face? x).map fun g => (g.1.relabel f, g.2)

namespace Moved

variable {t t1 t2 : Tree} {us us' vs vs' : List Unfolding} {f g : ElementId → ElementId} {o : Origin}

theorem nil (h : t.Owned) : Moved t t [] [] id := by
  refine ⟨h, rfl, le_rfl, by simp, rfl, fun _ _ => rfl, by simp, by simp, ?_⟩
  intro x _ _
  cases t.face? x <;> simp [Kind.relabel_id]

theorem face?_eq (h : Moved t t1 us us' f) {x : ElementId} (hx : x < t.size)
    (hout : x ∉ us.flatMap Unfolding.ids)
    (hc : ∀ c ∈ t.children x, c ∉ us.map Unfolding.id) : t1.face? x = t.face? x := by
  rw [h.face? x hx hout]
  cases hf : t.face? x with
  | none => rfl
  | some g =>
    rw [children_of_kind? (kind?_of_face? hf)] at hc
    rw [Option.map_some, Kind.relabel_eq_self fun c hm => h.fixed c (hc c hm)]

theorem shows_of_disjoint (h : Moved t t1 us us' f) (ht : t.Owned) {u : Unfolding} (hu : t.Shows u)
    (hd : u.ids.Disjoint (us.flatMap Unfolding.ids)) : t1.Shows u := by
  refine hu.congr fun x hx => h.face?_eq (hu.ids_lt_size x hx) (hd hx) fun c hc hm => ?_
  exact hd (hu.mem_ids_of_parent ht (ht.mem_children_iff.mp hc) hx) (Unfolding.id_mem_flatMap hm)

theorem parent_eq (h : Moved t t1 us us' f) (ht : t.Owned) {c p : ElementId}
    (hp : t.parent c = some p) (hout : p ∉ us.flatMap Unfolding.ids) (hc : f c = c) :
    t1.parent c = some p := by
  obtain ⟨k, hk, hmem⟩ := ht.mem_children_of_parent hp
  obtain ⟨e, he, rfl⟩ := Option.map_eq_some_iff.mp hk
  have hface := face?_of_element? he
  have hface1 := h.face? p (lt_size_of_face? hface) hout
  rw [hface, Option.map_some] at hface1
  exact h.owned.parent_of_kind? (kind?_of_face? hface1) (Kind.mem_children_relabel hmem hc)

theorem append (h : Moved t t1 us us' f) (h' : Moved t1 t2 vs vs' g)
    (hd : (us.flatMap Unfolding.ids).Disjoint (vs.flatMap Unfolding.ids))
    (hvs : ∀ v ∈ vs, t.Shows v) : Moved t t2 (us ++ vs) (us' ++ vs') (g ∘ f) := by
  have hd' : (us'.flatMap Unfolding.ids).Disjoint (vs.flatMap Unfolding.ids) := by
    intro x hx hxv
    rcases h.fresh x hx with hx | hle
    · exact hd hx hxv
    · obtain ⟨v, hv, hxv⟩ := mem_flatMap.mp hxv
      exact absurd ((hvs v hv).ids_lt_size x hxv) (Nat.not_lt.mpr hle)
  have hfix : ∀ v ∈ vs, f v.id = v.id := fun v hv => h.fixed _ fun hm =>
    hd (Unfolding.id_mem_flatMap hm) (Unfolding.id_mem_flatMap (mem_map_of_mem hv))
  have hfix' : ∀ {c}, c ∈ us'.map Unfolding.id → g c = c := fun hc => h'.fixed _ fun hm =>
    hd' (Unfolding.id_mem_flatMap hc) (Unfolding.id_mem_flatMap hm)
  have hmoved : ∀ u ∈ us, g (f u.id) = f u.id := fun u hu => hfix' (by
    rw [h.ids]
    exact mem_map.mpr ⟨u, hu, rfl⟩)
  refine ⟨h'.owned, h'.root.trans h.root, h.size.trans h'.size, ?_, ?_, ?_, ?_, ?_, ?_⟩
  · intro u hu
    rcases mem_append.mp hu with hu | hu
    · exact h'.shows_of_disjoint h.owned (h.shows u hu) fun x hx hxv =>
        hd' (mem_flatMap.mpr ⟨u, hu, hx⟩) hxv
    · exact h'.shows u hu
  · rw [map_append, map_append, h.ids, h'.ids]
    congr 1
    · exact map_congr_left fun u hu => (hmoved u hu).symm
    · exact map_congr_left fun v hv => congrArg g (hfix v hv).symm
  · intro c hc
    rw [map_append, mem_append, not_or] at hc
    rw [Function.comp_apply, h.fixed c hc.1, h'.fixed c hc.2]
  · intro u hu hk
    rw [Function.comp_apply]
    rcases mem_append.mp hu with hu | hu
    · rw [hmoved u hu, h.kept u hu hk]
    · rw [hfix u hu, h'.kept u hu hk]
  · intro x hx
    rw [flatMap_append, mem_append] at hx ⊢
    rcases hx with hx | hx
    · exact (h.fresh x hx).imp_left .inl
    · exact (h'.fresh x hx).imp .inr h.size.trans
  · intro x hx hm
    rw [flatMap_append, mem_append, not_or] at hm
    rw [h'.face? x (Nat.lt_of_lt_of_le hx h.size) hm.2, h.face? x hx hm.1, Option.map_map]
    simp only [Function.comp_def, Kind.relabel_relabel]

theorem node (h : Moved t t1 us us' f) (ht : t.Owned) {i : ElementId} {k : Kind}
    (hu : t.Shows (.node i k o us)) :
    Moved t t1 [.node i k o us] [.node i (k.relabel f) o us'] id ∧
      ((∀ ids, k ≠ .block ids) → k.relabel f = k) := by
  have hface : t.face? i = some (k, o) := hu.face?
  have hchildren : us.map Unfolding.id = k.children := hu.children
  have hnodup := hu.nodup_ids ht
  rw [Unfolding.ids_node, nodup_cons] at hnodup
  have hparent : ∀ c ∈ us.map Unfolding.id, t.parent c = some i := by
    intro c hc
    rw [hchildren] at hc
    exact ht.parent_of_kind? (kind?_of_face? hface) hc
  -- only a block holds what can be moved
  have hself : (∀ ids, k ≠ .block ids) → ∀ c ∈ k.children, f c = c := by
    intro hk c hc
    rw [← hchildren] at hc
    obtain ⟨u, hm, rfl⟩ := mem_map.mp hc
    refine h.kept u hm (Bool.eq_false_iff.mpr fun hstep => ?_)
    have hkind : t.kind? u.id = some u.kind := kind?_of_face? (hu.child u hm).face?
    obtain ⟨ids, _, _, hblock, -⟩ := ht.owner_of_isStep hkind hstep (hparent _ hc)
    rw [hface] at hblock
    exact hk ids (Prod.mk.inj (Option.some.inj hblock)).1
  refine ⟨⟨h.owned, h.root, h.size, ?_, rfl, fun _ _ => rfl, fun _ _ _ => rfl, ?_, ?_⟩,
    fun hk => Kind.relabel_eq_self (hself hk)⟩
  · intro v hv
    obtain rfl := mem_singleton.mp hv
    refine .node ?_ ?_ h.shows
    · rw [h.face? i hu.lt_size hnodup.1, hface, Option.map_some]
    · rw [Kind.children_relabel hself, h.ids, ← hchildren, map_map]
      rfl
  · intro x hx
    simp only [flatMap_cons, flatMap_nil, append_nil, Unfolding.ids_node,
      mem_cons] at hx ⊢
    rcases hx with rfl | hx
    · exact .inl (.inl rfl)
    · exact (h.fresh x hx).imp_left .inr
  · intro x hx hm
    simp only [flatMap_cons, flatMap_nil, append_nil, Unfolding.ids_node,
      mem_cons, not_or] at hm
    have hc : ∀ c ∈ t.children x, c ∉ us.map Unfolding.id := fun c hc hcu =>
      hm.1 (Option.some.inj ((ht.mem_children_iff.mp hc).symm.trans (hparent c hcu)))
    rw [h.face?_eq hx hm.2 hc]
    simp only [Kind.relabel_id, Prod.mk.eta, Option.map_id']

theorem holding (h : Moved t t1 us us' f) (ht : t.Owned) {i : ElementId} {k : Kind}
    (hu : t.Shows (.node i k o us)) :
    Moved t t1 [.node i k o us] [.node i (k.holding (us'.map Unfolding.id)) o us'] id := by
  have hnode := (h.node ht hu).1
  have hchildren := (hnode.shows _ (.head _)).children
  rw [Kind.relabel_eq_holding] at hnode
  exact hchildren ▸ hnode

theorem trans {u u1 u2 : Unfolding} (h : Moved t t1 [u] [u1] f) (h' : Moved t1 t2 [u1] [u2] g)
    (hk : u1.kind.isStep = true → u.kind.isStep = true) (hf : ∀ c, g (f c) = f c ∨ c = u.id) :
    Moved t t2 [u] [u2] (g ∘ f) := by
  have hid : u1.id = f u.id := by simpa using h.ids
  refine ⟨h'.owned, h'.root.trans h.root, h.size.trans h'.size, h'.shows, ?_, ?_, ?_, ?_, ?_⟩
  · simpa [hid] using h'.ids
  · intro c hc
    have hcu : c ≠ u.id := by simpa using hc
    rw [Function.comp_apply, (hf c).resolve_right hcu, h.fixed c hc]
  · intro v hv hstep
    obtain rfl := mem_singleton.mp hv
    have hkept := h'.kept u1 (.head _) (Bool.eq_false_iff.mpr fun h1 => by
      rw [hk h1] at hstep
      cases hstep)
    rw [Function.comp_apply, ← hid, hkept, hid, h.kept v hv hstep]
  · intro x hx
    rcases h'.fresh x hx with hx | hx
    · exact h.fresh x hx
    · exact .inr (h.size.trans hx)
  · intro x hx hm
    have hm1 : x ∉ [u1].flatMap Unfolding.ids := by
      intro hm1
      rcases h.fresh x hm1 with hm1 | hle
      · exact hm hm1
      · exact absurd hx (Nat.not_lt.mpr hle)
    rw [h'.face? x (Nat.lt_of_lt_of_le hx h.size) hm1, h.face? x hx hm, Option.map_map]
    simp only [Function.comp_def, Kind.relabel_relabel]

end Moved

/-- What else there is to say of a step that rewrites unfoldings: what it counts, as a measure that they lose, how
the tree goes on, and what it has done with an unfolding for good. -/
structure Tally where
  before : Unfolding → Nat
  after : Unfolding → Nat
  onward : Tree → Tree → Prop
  done : Tree → Unfolding → Prop
  refl : ∀ t, onward t t
  trans : ∀ {t t1 t2}, onward t t1 → onward t1 t2 → onward t t2
  stays : ∀ {t t' u}, onward t t' → done t u → done t' u

/-- A step that counts exchanges succeeds, and rewrites some unfoldings as a relation says. -/
def Rewrites (R : Unfolding → Unfolding → Prop) (T : Tally) (w : Workbench) (us : List Unfolding)
    (step : Edit Nat) : Prop :=
  ∃ n w' us' f, step w = .ok n w' ∧ (us.map T.before).sum = n + (us'.map T.after).sum ∧
    Moved w.tree w'.tree us us' f ∧ Forall₂ R us us' ∧ T.onward w.tree w'.tree ∧ ∀ u ∈ us, T.done w'.tree u

theorem Rewrites.cons (h : w.tree.Owned) {step steps : Edit Nat} (hstep : Rewrites R T w [u] step)
    (hus : ∀ v ∈ us, w.tree.Shows v) (hnodup : ((u :: us).flatMap Unfolding.ids).Nodup) (hsteps : ∀ w' us' f,
    Moved w.tree w'.tree [u] us' f → T.onward w.tree w'.tree → (∀ v ∈ us, w'.tree.Shows v) →
      Rewrites R T w' us steps) :
    Rewrites R T w (u :: us) (do return (← step) + (← steps)) := by
  obtain ⟨m, w1, us1, f, hrun, hsum, hmoved, hR, honward, hdone⟩ := hstep
  rw [flatMap_cons, nodup_append'] at hnodup
  have hd : ([u].flatMap Unfolding.ids).Disjoint (us.flatMap Unfolding.ids) := by
    rw [flatMap_singleton]
    exact hnodup.2.2
  obtain ⟨n, w2, us2, g, hruns, hsums, hmoveds, hRs, honwards, hdones⟩ := hsteps w1 us1 f hmoved honward fun v hv =>
    hmoved.shows_of_disjoint h (hus v hv) fun x hx hxu => hd hxu (mem_flatMap.mpr ⟨v, hv, hx⟩)
  have hall := hmoved.append hmoveds hd hus
  obtain ⟨u1, rfl, hRu⟩ := Unfolding.forall₂_one hR
  refine ⟨m + n, w2, u1 :: us2, g ∘ f, ?_, ?_, hall, .cons hRu hRs, T.trans honward honwards, ?_⟩
  · simp only [bind_apply, hrun, hruns, Edit.pure_apply]
  · simp only [map_cons, map_nil, sum_cons, sum_nil] at hsum ⊢
    omega
  · exact forall_mem_cons.mpr ⟨T.stays honwards (hdone u (.head _)), hdones⟩

theorem Rewrites.all (hnil : steps [] = pure 0)
    (hcons : ∀ u us, steps (u :: us) = do return (← step u) + (← steps us)) (hstep : ∀ u ∈ us, ∀ w' :
    Workbench, T.onward w.tree w'.tree → w'.tree.Owned → w'.tree.Shows u → w'.tree.parent u.id = some p →
      Rewrites R T w' [u] (step u))
    (h : w.tree.Owned) (hp : ∀ u ∈ us, w.tree.parent u.id = some p) (hus : ∀ u ∈ us, w.tree.Shows u)
    (hout : p ∉ us.flatMap Unfolding.ids) (hnodup : (us.flatMap Unfolding.ids).Nodup) :
    Rewrites R T w us (steps us) := by
  induction us generalizing w with
  | nil =>
    rw [hnil]
    exact ⟨0, w, [], id, rfl, rfl, .nil h, .nil, T.refl _, nofun⟩
  | cons u us ih =>
    have hfirst := hstep u (.head _) w (T.refl _) h (hus u (.head _)) (hp u (.head _))
    rw [hcons]
    refine hfirst.cons h (fun v hv => hus v (.tail _ hv)) hnodup ?_
    intro w' us' f hmoved honward hshows
    rw [flatMap_cons, nodup_append'] at hnodup
    rw [flatMap_cons, mem_append, not_or] at hout
    refine ih (fun v hv w'' honward' => hstep v (.tail _ hv) w'' (T.trans honward honward'))
      hmoved.owned (fun v hv => ?_) hshows hout.2 hnodup.2.1
    refine hmoved.parent_eq h (hp v (.tail _ hv)) (by simpa using hout.1) (hmoved.fixed _ fun hm => ?_)
    rw [map_singleton, mem_singleton] at hm
    exact hnodup.2.2 (hm ▸ u.id_mem_ids) (Unfolding.id_mem_flatMap (mem_map_of_mem hv))

theorem Rewrites.parts (hnil : steps [] = pure 0)
    (hcons : ∀ u us, steps (u :: us) = do return (← step u) + (← steps us)) (h : w.tree.Owned) {o : Origin}
    (hu : w.tree.Shows (.node i k o us)) (hstep : ∀ u ∈ us, ∀ w', T.onward w.tree w'.tree →
    w'.tree.Owned → w'.tree.Shows u → w'.tree.parent u.id = some i → Rewrites R T w' [u] (step u)) :
    Rewrites R T w us (steps us) := by
  have hnodup := hu.nodup_ids h
  rw [Unfolding.ids_node, nodup_cons] at hnodup
  exact .all hnil hcons hstep h (hu.parent h) hu.child hnodup.1 hnodup.2

theorem replace_moved (h : t.Owned) {r : Unfolding} (hu : t.Shows u) (hstep : u.kind.isStep = true)
    (hp : t.parent u.id = some p) (hlater : t.Later w.tree u.ids) (hr : w.tree.Loose r)
    (haccepts : Role.statement.accepts r.kind = true) (hids : ∀ y ∈ r.ids, y ∈ u.ids ∧ y ≠ u.id ∨ t.size ≤ y) :
    ∃ w', Edit.replace p u.id r.id w = .ok () w' ∧
      (∀ x, w'.tree.parent x = if x = u.id then none else if x = r.id then some p else w.tree.parent x) ∧
      Moved t w'.tree [u] [r] fun c => if c = u.id then r.id else c := by
  have hpu : p ∉ u.ids := fun hm => h.acyclic u.id (Relation.TransGen.head' hp (hu.mem_ids h hm))
  obtain ⟨ids, o, n, hfp, hn, hnodup⟩ := h.owner_of_isStep (kind?_of_face? hu.face?) hstep hp
  have hplt := lt_size_of_face? hfp
  have hur : u.id ∉ r.ids := by
    intro hm
    rcases hids _ hm with ⟨-, hne⟩ | hle
    · exact hne rfl
    · exact absurd hu.lt_size (Nat.not_lt.mpr hle)
  have hpr : p ∉ r.ids := by
    intro hm
    rcases hids _ hm with ⟨hm, -⟩ | hle
    · exact hpu hm
    · exact absurd hplt (Nat.not_lt.mpr hle)
  have hfp1 : w.tree.face? p = some (.block ids, o) := by
    rw [hlater.face? p hplt hpu, hfp]
  have hex : w.tree.Exchangeable p u.id r.id n := by
    refine ⟨⟨.block ids, .statement, r.kind, kind?_of_face? hfp1, by simp [slots, hn],
      kind?_of_face? hr.shows.face?, haccepts⟩, ?_, hr.parent, hr.root, ?_, ?_⟩
    · intro heq
      exact hur (heq ▸ r.id_mem_ids)
    · rintro rfl
      exact hpr r.id_mem_ids
    · intro habove
      exact hpr (hr.shows.mem_ids_of_below hlater.owned (hlater.owned.mem_ancestors_iff.mp habove))
  obtain ⟨event, hreplace⟩ := Edit.replace_eq hlater.owned hex
  refine ⟨_, hreplace, parent_splice (Nat.lt_of_lt_of_le hu.lt_size hlater.size) hr.shows.lt_size n,
    hlater.owned.splice hex, ?_, ?_, ?_, ?_, ?_, ?_, ?_, ?_⟩
  · rw [root_splice, hlater.root]
  · rw [size_splice]
    exact hlater.size
  · intro v hv
    obtain rfl := mem_singleton.mp hv
    refine hr.shows.congr fun y hy => ?_
    rw [face?_splice hfp1, if_neg]
    rintro rfl
    exact hpr hy
  · simp
  · intro c hc
    exact if_neg (by simpa using hc)
  · intro v hv hnot
    obtain rfl := mem_singleton.mp hv
    rw [hstep] at hnot
    cases hnot
  · intro y hy
    rw [flatMap_singleton] at hy ⊢
    exact (hids y hy).imp_left And.left
  · intro y hy hm
    rw [flatMap_singleton] at hm
    rw [face?_splice hfp1, hlater.face? y hy hm]
    by_cases hyp : y = p
    · rw [if_pos hyp, hyp, hfp]
      exact congrArg (fun ids => some (Kind.block ids, o)) (set_eq_map hnodup hn)
    · rw [if_neg hyp]
      cases hf : t.face? y with
      | none => rfl
      | some g =>
        have hfix : ∀ c ∈ g.1.children, (if c = u.id then r.id else c) = c := by
          intro c hc
          refine if_neg ?_
          rintro rfl
          exact hyp (Option.some.inj ((h.parent_of_kind? (kind?_of_face? hf) hc).symm.trans hp))
        rw [Option.map_some, Kind.relabel_eq_self hfix]

end Clausal
