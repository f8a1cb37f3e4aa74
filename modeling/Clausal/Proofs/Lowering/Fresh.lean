import Clausal.Proofs.Lowering.Pictures
import Clausal.Proofs.Tree.Marking

/-! # The tree that lowering leaves

None of the elements that lowering stores is annotated: no name is bound, no call has a target, nothing is
captured (`Kind.unmarked`).  The function of a closure is marked as lifted from one, and the functions of a
module are not. -/

namespace Clausal

open List

open Ast (Form Node)

/-! ### Fresh trees -/

def Kind.unmarked : Kind → Bool
  | .function _ _ _ _ captures => captures.isEmpty
  | .assignment _ _ _ binding _ => binding.isNone
  | .reference _ binding => binding.isNone
  | .invocation _ _ target => target.isNone
  | .closure _ captured => captured.isEmpty
  | _ => true

def Kind.isBare : Kind → Bool
  | .module .. | .closure .. | .block .. => false
  | k => k.unmarked

def Kind.isLifted : Kind → Bool
  | .function _ _ _ lifted _ => lifted
  | _ => false

def Kind.isInitializer : Kind → Bool
  | .assignment _ _ _ _ initializer => initializer
  | _ => false

namespace Tree

variable {t : Tree} {ids : List ElementId} {k : Kind}

/-- Statements among which each one that initializes a name comes right after a declaration of that name
with the value `null`. -/
inductive Paired (t : Tree) : List ElementId → Prop
  | nil : Paired t []
  | one {i k ids} : t.kind? i = some k →
      k.isInitializer = false → Paired t ids → Paired t (i :: ids)
  | two {i j n v x d ids} :
      t.kind? i = some (.assignment x (some d) n none false) → t.kind? n = some (.constant .null) →
      t.kind? j = some (.assignment x none v none true) → Paired t ids → Paired t (i :: j :: ids)

/-- An element of a fresh tree: it is not annotated, a closure holds a lifted function, a module holds
none, and the statements of a block that initialize names follow the declarations. -/
structure Plain (t : Tree) (k : Kind) : Prop where
  unmarked : k.unmarked = true
  closure : ∀ f captured, k = .closure f captured → ∃ k', t.kind? f = some k' ∧ k'.isLifted = true
  module : ∀ name functions, k = .module name functions →
    ∀ f ∈ functions, ∃ k', t.kind? f = some k' ∧ k'.isLifted = false
  block : ∀ ids, k = .block ids → t.Paired ids

/-- An owned tree of elements that no pass has touched. -/
structure Fresh (t : Tree) : Prop where
  owned : t.Owned
  plain : ∀ i k, t.kind? i = some k → t.Plain k

theorem plain_of_isBare (h : k.isBare = true) : t.Plain k := by
  refine ⟨?_, ?_, ?_, ?_⟩
  · cases k <;> first | exact h | cases h
  · rintro f captured rfl
    cases h
  · rintro name functions rfl
    cases h
  · rintro ids rfl
    cases h

theorem plain_block (h : t.Paired ids) : t.Plain (.block ids) := by
  refine ⟨rfl, nofun, nofun, ?_⟩
  rintro _ heq
  cases heq
  exact h

end Tree

/-! ### What lowering makes -/

namespace Lower

open Clausal.Tree

section
variable {t : Tree} {n body : Node} {u b : Unfolding} {ns : List Node} {us : List Unfolding} {m m' : Names}
  {i : ElementId} {k : Kind} {o : Origin}

theorem whole_of_lowered (h : IsLowered n u) : u.kind.isLifted = false ∧ u.kind.isInitializer = false := by
  obtain ⟨_, _, h⟩ := h
  cases h with
  | @alternatives _ _ _ _ _ arm => cases arm <;> exact ⟨rfl, rfl⟩
  | @leaf _ _ _ form _ _ hleaf => cases form <;> cases hleaf <;> exact ⟨rfl, rfl⟩
  | _ => exact ⟨rfl, rfl⟩

theorem StatementRow.paired (h : StatementRow Lowered m ns us m') (hus : ∀ u ∈ us, t.Shows u) :
    t.Paired (us.map Unfolding.id) := by
  induction h with
  | nil => exact .nil
  | one _ hlowered _ ih =>
    obtain ⟨hu, hus⟩ := forall_mem_cons.mp hus
    exact .one (kind?_of_face? hu.face?) (whole_of_lowered ⟨_, _, hlowered⟩).2 (ih hus)
  | two _ _ _ _ ih =>
    obtain ⟨hu, hus⟩ := forall_mem_cons.mp hus
    obtain ⟨hv, hus⟩ := forall_mem_cons.mp hus
    exact .two (kind?_of_face? hu.face?) (kind?_of_face? (hu.child _ (.head _)).face?)
      (kind?_of_face? hv.face?) (ih hus)

/-- Whatever stands in an unfolding is an element of a fresh tree. -/
def PlainIn (t : Tree) (u : Unfolding) : Prop := ∀ v : Unfolding, v.Within u → t.Plain v.kind

theorem PlainIn.node (hk : t.Plain k) (hus : ∀ u ∈ us, PlainIn t u) : PlainIn t (.node i k o us) := by
  intro v hv
  cases hv with
  | here => exact hk
  | child hu hv => exact hus _ hu v hv

theorem PlainIn.bare (hk : k.isBare = true) (hus : ∀ u ∈ us, PlainIn t u) : PlainIn t (.node i k o us) :=
  .node (plain_of_isBare hk) hus

theorem Body.plain (h : Body Lowered body m b m') (hb : t.Shows b)
    (ih : ∀ u, IsLowered body u → t.Shows u → PlainIn t u) : PlainIn t b := by
  cases h with
  | block hlowered => exact ih _ ⟨_, _, hlowered⟩ hb
  | value _ hlowered =>
    have hresult := hb.child _ (.head _)
    have hv := ih _ ⟨_, _, hlowered⟩ (hresult.child _ (.head _))
    exact .node (plain_block (.one (kind?_of_face? hresult.face?) rfl .nil))
      (forall_mem_singleton.mpr (.bare rfl (forall_mem_singleton.mpr hv)))

theorem StatementRow.plain (h : StatementRow Lowered m ns us m') (hus : ∀ u ∈ us, t.Shows u)
    (ih : ∀ n ∈ ns, ∀ u, IsLowered n u → t.Shows u → PlainIn t u)
    (ih' : ∀ n ∈ ns, ∀ part ∈ n.parts, ∀ u, IsLowered part u → t.Shows u → PlainIn t u) :
    ∀ u ∈ us, PlainIn t u := by
  induction h with
  | nil => exact forall_mem_nil _
  | one _ hlowered _ ihrow =>
    rw [forall_mem_cons] at hus ih ih' ⊢
    exact ⟨ih.1 _ ⟨_, _, hlowered⟩ hus.1, ihrow hus.2 ih.2 ih'.2⟩
  | two _ _ hlowered _ ihrow =>
    rw [forall_mem_cons, forall_mem_cons] at hus ⊢
    rw [forall_mem_cons] at ih ih'
    have hv := ih'.1 _ (.head _) _ ⟨_, _, hlowered⟩ (hus.2.1.child _ (.head _))
    exact ⟨.bare rfl (forall_mem_singleton.mpr (.bare rfl (forall_mem_nil _))),
      .bare rfl (forall_mem_singleton.mpr hv), ihrow hus.2.2 ih.2 ih'.2⟩

theorem plain_of_lowered (h : IsLowered n u) (hu : t.Shows u) : PlainIn t u := by
  induction n using Ast.Node.induct₂ generalizing u with
  | mk form origin parts ih ih' =>
    have hpart : ∀ n ∈ parts, ∀ u, IsLowered n u → t.Shows u → PlainIn t u := fun n hn _ => ih n hn
    have hparts : ∀ {ns us m m'}, (∀ n ∈ ns, n ∈ parts) → Row Lowered m ns us m' → (∀ u ∈ us, t.Shows u) →
        ∀ u ∈ us, PlainIn t u := by
      intro ns us m m' hns hrow hus u hu
      obtain ⟨n, hn, hlowered⟩ := exists_of_mem_right hrow.isLowered hu
      exact ih n (hns n hn) hlowered (hus u hu)
    have hinner : ∀ {u}, (∃ n ∈ parts, ∃ part ∈ n.parts, IsLowered part u) → t.Shows u → PlainIn t u := by
      rintro u ⟨n, hn, part, hpart, hlowered⟩
      exact ih' n hn part hpart hlowered
    obtain ⟨m, m', h⟩ := h
    cases h with
    | function hbody =>
      exact .bare rfl (forall_mem_singleton.mpr (hbody.plain (hu.child _ (.head _)) (hpart _ (.head _))))
    | block hrow =>
      exact .node (plain_block (hrow.paired hu.child)) (hrow.plain hu.child hpart fun n hn part hm _ => ih' n hn part hm)
    | declaration _ hv | assign hv | returns hv | unary _ hv =>
      exact .bare rfl (hparts (by simp) (.cons hv .nil) hu.child)
    | returnsNothing => exact .bare rfl (forall_mem_nil _)
    | conditional hc ha => exact .bare rfl (hparts (fun _ => id) (.cons hc (.cons ha .nil)) hu.child)
    | conditionalElse hc ha he =>
      exact .bare rfl (hparts (by simp) (.cons hc (.cons ha (.cons he .nil))) hu.child)
    | loop hc hb => exact .bare rfl (hparts (by simp) (.cons hc (.cons hb .nil)) hu.child)
    | @alternatives _ _ _ _ _ arm _ _ us f _ hrow hus =>
      obtain ⟨hpairs, hfallback⟩ := hrow.exists_part
      refine .bare (by cases arm <;> rfl) (forall_mem_append.mpr ⟨fun u hm => ?_, forall_mem_singleton.mpr ?_⟩)
      · obtain ⟨p, hp, heq⟩ := exists_of_mem_right hus hm
        have hshows := hu.child u (mem_append_left _ hm)
        rw [heq] at hshows ⊢
        exact .bare rfl fun v hv => hinner (hpairs p hp v hv) (hshows.child v hv)
      · exact hinner (hfallback f rfl) (hu.child f (by simp))
    | binary _ hl hr => exact .bare rfl (hparts (by simp) (.cons hl (.cons hr .nil)) hu.child)
    | call hrow => exact .bare rfl (hparts (fun _ => id) hrow hu.child)
    | closure hbody =>
      have hlifted := hu.child _ (.head _)
      refine .node ⟨rfl, ?_, nofun, nofun⟩ (forall_mem_singleton.mpr (.bare rfl (forall_mem_singleton.mpr
        (hbody.plain (hlifted.child _ (.head _)) (hpart _ (.head _))))))
      rintro _ _ ⟨⟩
      exact ⟨_, kind?_of_face? hlifted.face?, rfl⟩
    | leaf hleaf => exact .bare (by cases form <;> cases hleaf <;> rfl) (forall_mem_nil _)

end

theorem unit_fresh {t : Tree} {u : Ast.CompilationUnit} {b b' : Builder} (hrun : unit u b = .ok t b') :
    t.Fresh ∧ t.Modular := by
  have howned := unit_owned hrun
  obtain ⟨i, us, m, hroot, hrow, -, hsize, -⟩ := unit_drawn hrun
  obtain ⟨hshows, hid⟩ := howned.unfoldRoot_eq_some_iff.mp hroot
  have hlowered : ∀ v ∈ us, ∃ n, IsLowered n v := fun v hv => by
    obtain ⟨n, -, hn⟩ := exists_of_mem_right hrow.isLowered hv
    exact ⟨n, hn⟩
  have hplain : PlainIn t (.node i (.module u.name (us.map Unfolding.id)) ⟨u.location, none⟩ us) := by
    refine .node ⟨rfl, nofun, ?_, nofun⟩ fun v hv => ?_
    · rintro _ _ ⟨⟩ _ hf
      obtain ⟨v, hv, rfl⟩ := mem_map.mp hf
      obtain ⟨n, hn⟩ := hlowered v hv
      exact ⟨_, kind?_of_face? (hshows.child v hv).face?, (whole_of_lowered hn).1⟩
    · obtain ⟨n, hn⟩ := hlowered v hv
      exact plain_of_lowered hn (hshows.child v hv)
  refine ⟨⟨howned, fun j k hk => ?_⟩, i, _, _, hid, kind?_of_face? hshows.face?⟩
  -- there is no element that the root does not show
  have hperm := hshows.perm_range howned (by rw [hsize, Unfolding.ids_node, length_cons])
  obtain ⟨⟨_, k'⟩, hmem, rfl⟩ := mem_map.mp (hperm.mem_iff.mpr (mem_range.mpr (lt_size_of_kind? hk)))
  obtain ⟨o, vs, hwithin⟩ := Unfolding.exists_within_of_mem hmem
  cases (kind?_of_face? (hshows.within hwithin).face?).symm.trans hk
  exact hplain _ hwithin

end Lower

/-! ### The picture of a fresh tree -/

namespace Unfolding

/-- Nothing in an unfolding is annotated, its closures hold lifted functions and its modules hold
none. -/
inductive Plain : Unfolding → Prop
  | node {i k o us} : k.unmarked = true →
      (∀ f captured, k = .closure f captured → ∀ u ∈ us, u.kind.isLifted = true) →
      (∀ name ids, k = .module name ids → ∀ u ∈ us, u.kind.isLifted = false) →
      (∀ u ∈ us, Plain u) → Plain (.node i k o us)

/-- An unfolding that no pass has marked. -/
structure Fresh (u : Unfolding) : Prop where
  fits : u.Fits
  nodup : u.ids.Nodup
  plain : u.Plain

/-- Statements among which each one that initializes a name comes right after a declaration of that name
with the value `null`. -/
inductive Paired : List Unfolding → Prop
  | nil : Paired []
  | one {u us} : u.kind.isInitializer = false → Paired us → Paired (u :: us)
  | two {i j n v x d o o' o'' us vs} : Paired us →
      Paired (.node i (.assignment x (some d) n none false) o [.node n (.constant .null) o' []] ::
        .node j (.assignment x none v none true) o'' vs :: us)

variable {i : ElementId} {k : Kind} {o : Origin} {us : List Unfolding} {u : Unfolding}

theorem Plain.child (h : Plain (.node i k o us)) (hu : u ∈ us) : u.Plain := by
  cases h with
  | node _ _ _ hbelow => exact hbelow u hu

theorem Plain.unmarked (h : Plain (.node i k o us)) : k.unmarked = true := by
  cases h with
  | node hk _ _ _ => exact hk

theorem Plain.lifted {f : ElementId} {captured : List Binding}
    (h : Plain (.node i (.closure f captured) o us)) (hu : u ∈ us) :
    u.kind.isLifted = true := by
  cases h with
  | node _ hclosure _ _ => exact hclosure f captured rfl u hu

theorem Plain.unlifted {name : String} {ids : List ElementId}
    (h : Plain (.node i (.module name ids) o us)) (hu : u ∈ us) :
    u.kind.isLifted = false := by
  cases h with
  | node _ _ hmodule _ => exact hmodule name ids rfl u hu

theorem Fresh.child (h : Fresh (.node i k o us)) (hu : u ∈ us) : u.Fresh := by
  have hnodup := h.nodup
  rw [ids_node, nodup_cons, nodup_flatMap] at hnodup
  exact ⟨h.fits.child u hu, hnodup.2.1 u hu, h.plain.child hu⟩

end Unfolding

variable {t : Tree} {us : List Unfolding}

theorem Tree.Fresh.unfolding (ht : t.Fresh) {u : Unfolding} (hu : t.Shows u) : u.Fresh := by
  refine ⟨hu.fits ht.owned, hu.nodup_ids ht.owned, ?_⟩
  induction hu with
  | @node i k o us hface hu.children hus ih =>
    have hplain := ht.plain i k (kind?_of_face? hface)
    have hkind : ∀ {P : Kind → Prop} {c : ElementId}, (∃ k', t.kind? c = some k' ∧ P k') →
        ∀ u ∈ us, u.id = c → P u.kind := by
      rintro P c ⟨k', hk', hP⟩ u hu rfl
      have hu' := kind?_of_face? (hus u hu).face?
      cases hu'.symm.trans hk'
      exact hP
    have hid : ∀ u ∈ us, u.id ∈ k.children := fun u hu => hu.children ▸ mem_map_of_mem hu
    refine .node hplain.unmarked ?_ ?_ ih
    · rintro f captured rfl u hu
      have hf : u.id = f := mem_singleton.mp (hid u hu)
      exact hkind (hplain.closure f captured rfl) u hu hf
    · rintro name ids rfl u hu
      have hf := hid u hu
      rw [show Kind.children (.module name ids) = ids by simp [Kind.children, Kind.slots]] at hf
      exact hkind (hplain.module name ids rfl u.id hf) u hu rfl

theorem Tree.Paired.unfolding (hus : ∀ u ∈ us, t.Shows u) (h : t.Paired (us.map Unfolding.id)) :
    Unfolding.Paired us := by
  have hkind : ∀ {u k}, t.Shows u → t.kind? u.id = some k → u.kind = k := fun hu hk =>
    Option.some.inj ((kind?_of_face? hu.face?).symm.trans hk)
  generalize hids : us.map Unfolding.id = ids at h
  induction h generalizing us with
  | nil =>
    obtain rfl := map_eq_nil_iff.mp hids
    exact .nil
  | one hk hi _ ih =>
    obtain ⟨u, us, rfl, rfl, rfl⟩ := map_eq_cons_iff.mp hids
    refine .one ?_ (ih (fun v hv => hus v (.tail _ hv)) rfl)
    rw [hkind (hus u (.head _)) hk, hi]
  | two hk hn hk' _ ih =>
    obtain ⟨u, us, rfl, rfl, htail⟩ := map_eq_cons_iff.mp hids
    obtain ⟨u', us, rfl, rfl, rfl⟩ := map_eq_cons_iff.mp htail
    have hu := hus u (by simp)
    have hu' := hus u' (by simp)
    have hrest := ih (fun v hv => hus v (by simp [hv])) rfl
    obtain ⟨i, k, o, vs⟩ := u
    obtain ⟨j, k', o', vs'⟩ := u'
    obtain rfl : k = _ := hkind hu hk
    obtain rfl : k' = _ := hkind hu' hk'
    -- the value of the declaration
    obtain ⟨c, vs, rfl, rfl, hnil⟩ := map_eq_cons_iff.mp hu.children
    obtain rfl := map_eq_nil_iff.mp hnil
    have hc := hu.child c (by simp)
    obtain ⟨n, k, o'', ws⟩ := c
    obtain rfl : k = _ := hkind hc hn
    obtain rfl := map_eq_nil_iff.mp hc.children
    exact .two hrest

theorem Tree.Fresh.paired (ht : t.Fresh) {i : ElementId} {ids : List ElementId} {o : Origin}
    (h : t.Shows (.node i (.block ids) o us)) : Unfolding.Paired us := by
  have hids : us.map Unfolding.id = ids := by
    rw [h.children]
    simp [Kind.children, Kind.slots]
  have hpaired := (ht.plain i _ (kind?_of_face? h.face?)).block ids rfl
  rw [← hids] at hpaired
  exact hpaired.unfolding h.child

end Clausal
