import Clausal.Proofs.Scoping.Dues

/-! # Who writes into a slot

The elements of a function are those in its body, without those of the functions below (`Unfolding.elements`),
and its writers of a slot are the ones among them that are bound to the slot and store a value there
(`Unfolding.writers`). -/

namespace Clausal

open List

def Kind.stored? : Kind → Option UInt16
  | .assignment _ _ _ (some b) _ => some b.slot
  | _ => none

def Op.storesTo (s : UInt16) : Op → Bool
  | store s' => s' = s
  | _ => false

theorem Op.mentions_of_storesTo {s : UInt16} {op : Op} (h : op.storesTo s = true) : op.mentions = true := by
  cases op <;> first | rfl | cases h

namespace Unfolding

/-! ### Elements of a function -/

def elementsIn : Unfolding → List Unfolding := collectIn fun u below => u :: below

def elements (f : Unfolding) : List Unfolding := f.children.flatMap elementsIn

def writers (s : UInt16) (f : Unfolding) : List Unfolding := f.elements.filter (·.kind.stored? = some s)

variable {i : ElementId} {k : Kind}

theorem elementsIn_of_function (o : Origin) (us : List Unfolding) (hk : Role.function.accepts k = true) :
    elementsIn (.node i k o us) = [] := collectIn_of_function o us _ hk

theorem elementsIn_of_not_function (o : Origin) (us : List Unfolding) (hk : Role.function.accepts k = false) :
    elementsIn (.node i k o us) = .node i k o us :: us.flatMap elementsIn := collectIn_of_not_function o us _ hk

theorem sublist_flatMap {α β : Type} {g h : α → List β} {xs ys : List α} (hxs : xs.Sublist ys)
    (hgh : ∀ y ∈ ys, (g y).Sublist (h y)) : (xs.flatMap g).Sublist (ys.flatMap h) := by
  induction hxs with
  | slnil => exact nil_sublist _
  | cons y _ ih =>
    obtain ⟨-, hys⟩ := forall_mem_cons.mp hgh
    exact (ih hys).trans (sublist_append_right ..)
  | cons_cons y _ ih =>
    obtain ⟨hy, hys⟩ := forall_mem_cons.mp hgh
    exact hy.append (ih hys)

theorem sublist_elementsIn (u : Unfolding) : ((elementsIn u).map id).Sublist u.ids := by
  induction u with
  | node i k o us ih =>
    cases hk : Role.function.accepts k with
    | true =>
      rw [elementsIn_of_function o us hk]
      exact nil_sublist _
    | false =>
      rw [elementsIn_of_not_function o us hk, ids_node, map_cons, map_flatMap]
      exact (sublist_flatMap (Sublist.refl us) ih).cons_cons i

theorem nodup_writers {f : Unfolding} (h : f.ids.Nodup) (s : UInt16) : (f.writers s).Nodup := by
  obtain ⟨i, k, o, us⟩ := f
  rw [ids_node, nodup_cons] at h
  have hids : (us.flatMap fun u => (elementsIn u).map id).Sublist (us.flatMap ids) :=
    sublist_flatMap (Sublist.refl us) fun u _ => sublist_elementsIn u
  rw [← map_flatMap] at hids
  exact (Nodup.of_map id (h.2.sublist hids)).filter _

theorem sublist_arms (u : Unfolding) : (u.arms.map id).Sublist u.ids := by
  induction u with
  | node i k o us ih =>
    rw [ids_node]
    cases hb : branches k us with
    | none =>
      rw [arms_of_branches_eq_none hb]
      exact (nil_sublist _).cons_cons i
    | some vs =>
      have hvs : vs.Sublist us := by
        unfold branches at hb
        split at hb <;> cases hb
        · exact Sublist.refl _
        · exact Sublist.refl _
        · exact sublist_cons_self ..
        · exact sublist_cons_self ..
      rw [arms_of_branches hb, map_flatMap]
      exact (sublist_flatMap hvs ih).cons i

/-! ### Code -/

theorem countP_ownOps (s : UInt16) (u : Unfolding) :
    u.ownOps.countP (Op.storesTo s) = if u.kind.stored? = some s then 1 else 0 := by
  obtain ⟨i, k, o, us⟩ := u
  cases k with
  | assignment x d value b initializer =>
    cases b with
    | none => rfl
    | some b => simp [ownOps, kind, Kind.stored?, Op.storesTo, countP_singleton]
  | reference x b => cases b <;> rfl
  | invocation x arguments target =>
    cases target with
    | none => rfl
    | some target => cases target <;> rfl
  | closure f captured =>
    rcases us with _ | ⟨⟨j, k', o', vs⟩, us⟩
    · rfl
    · cases k' <;> rfl
  | _ => rfl

theorem countP_mentions (s : UInt16) (u : Unfolding) :
    u.mentions.countP (Op.storesTo s) = (elementsIn u).countP (·.kind.stored? = some s) := by
  induction u with
  | node i k o us ih =>
    cases hk : Role.function.accepts k with
    | true =>
      rw [mentions_of_function o us hk, elementsIn_of_function o us hk]
      rfl
    | false =>
      have hbelow : (us.flatMap mentions).countP (Op.storesTo s) =
          (us.flatMap elementsIn).countP (·.kind.stored? = some s) := by
        rw [countP_flatMap, countP_flatMap]
        exact congrArg List.sum (map_congr_left ih)
      rw [mentions_of_not_function o us hk, elementsIn_of_not_function o us hk, countP_append, hbelow,
        countP_ownOps, countP_cons]
      simp only [decide_eq_true_eq]

end Unfolding

theorem Generate.Codes.countP_storesTo {f : Unfolding} {c : FunctionCode} (h : Codes f c) (s : UInt16) :
    c.code.countP (Op.storesTo s) = (f.writers s).length := by
  have hfilter : (c.code.filter Op.mentions).countP (Op.storesTo s) = c.code.countP (Op.storesTo s) := by
    rw [countP_filter]
    refine countP_congr fun op _ => ?_
    rw [Bool.and_eq_true, and_iff_left_of_imp Op.mentions_of_storesTo]
  rw [← hfilter, h.mentions_eq, Unfolding.writers, ← countP_eq_length_filter, Unfolding.elements,
    countP_flatMap, countP_flatMap]
  exact congrArg List.sum (map_congr_left fun u _ => Unfolding.countP_mentions s u)

/-! ### Elements are told apart by their numbers -/

namespace Unfolding

variable {u v w d : Unfolding} {us : List Unfolding}

theorem Within.id_mem_ids (h : v.Within u) : v.id ∈ u.ids := by
  induction h with
  | here => exact v.id_mem_ids
  | @child i k o us u hu _ ih =>
    rw [ids_node]
    exact .tail _ (List.mem_flatMap.mpr ⟨u, hu, ih⟩)

theorem eq_of_mem_ids {e : ElementId} (h : (us.flatMap ids).Nodup) (hu : u ∈ us) (hv : v ∈ us) (he : e ∈ u.ids)
    (he' : e ∈ v.ids) : u = v := by
  have hsymm : Std.Symm (Function.onFun List.Disjoint ids) := ⟨fun _ _ hd => hd.symm⟩
  by_contra hne
  exact (nodup_flatMap.mp h).2.forall hu hv hne he he'

theorem Within.eq_of_id (hv : v.Within u) (hw : w.Within u) (hu : u.ids.Nodup) (hid : v.id = w.id) : v = w := by
  induction u with
  | node i k o us ih =>
    have hnodup := nodup_cons.mp (ids_node i k o us ▸ hu)
    have hbelow {x y : Unfolding} (hy : y ∈ us) (hx : x.Within y) : x.id ≠ i := by
      rintro rfl
      exact hnodup.1 (List.mem_flatMap.mpr ⟨y, hy, hx.id_mem_ids⟩)
    cases hv with
    | here =>
      cases hw with
      | here => rfl
      | child hm hw => exact absurd hid.symm (hbelow hm hw)
    | @child _ _ _ _ y hm hv =>
      cases hw with
      | here => exact absurd hid (hbelow hm hv)
      | @child _ _ _ _ z hm' hw =>
        obtain rfl := eq_of_mem_ids hnodup.2 hm hm' hv.id_mem_ids (hid ▸ hw.id_mem_ids)
        exact ih y hm hv hw ((nodup_flatMap.mp hnodup.2).1 y hm)

theorem Within.nodup_ids (h : v.Within u) (hu : u.ids.Nodup) : v.ids.Nodup := by
  induction h with
  | here => exact hu
  | @child i k o us w hw _ ih =>
    rw [ids_node, nodup_cons, nodup_flatMap] at hu
    exact ih (hu.2.1 w hw)

theorem Within.of_mem_children (h : v.Within u) (hd : d ∈ v.children) : d.Within u := by
  obtain ⟨i, k, o, vs⟩ := v
  exact (Within.child hd .here).trans h

theorem Within.eq_of_mem_children (hv : v.Within u) (hw : w.Within u) (hu : u.ids.Nodup) (hd : d ∈ v.children)
    (hd' : d ∈ w.children) : v = w := by
  induction u with
  | node i k o us ih =>
    have hnodup := nodup_cons.mp (ids_node i k o us ▸ hu)
    have hparts := (nodup_flatMap.mp hnodup.2).1
    -- a part of the whole lies below no other part, and not below itself
    have hbelow {x y : Unfolding} (hy : y ∈ us) (hx : x.Within y) (hdx : d ∈ x.children) : d ∉ us := by
      intro hdu
      have hin := (hx.of_mem_children hdx).id_mem_ids
      obtain rfl := eq_of_mem_ids hnodup.2 hdu hy d.id_mem_ids hin
      obtain ⟨j, k', o', ds⟩ := d
      have hnot := (nodup_cons.mp (ids_node j k' o' ds ▸ hparts _ hdu)).1
      cases hx with
      | here => exact hnot (List.mem_flatMap.mpr ⟨_, hdx, Unfolding.id_mem_ids _⟩)
      | child hm hx => exact hnot (List.mem_flatMap.mpr ⟨_, hm, (hx.of_mem_children hdx).id_mem_ids⟩)
    cases hv with
    | here =>
      cases hw with
      | here => rfl
      | child hm hw => exact absurd hd (hbelow hm hw hd')
    | @child _ _ _ _ y hm hv =>
      cases hw with
      | here => exact absurd hd' (hbelow hm hv hd)
      | @child _ _ _ _ z hm' hw =>
        obtain rfl := eq_of_mem_ids hnodup.2 hm hm' (hv.of_mem_children hd).id_mem_ids
          (hw.of_mem_children hd').id_mem_ids
        exact ih y hm hv hw (hparts y hm)

theorem mem_elementsIn (h : Role.function.accepts u.kind = false) : u ∈ elementsIn u := by
  obtain ⟨i, k, o, us⟩ := u
  have hk : Role.function.accepts k = false := h
  rw [elementsIn_of_not_function o us hk]
  exact .head _

theorem mem_elementsIn_of_mem_arms {a : Unfolding} (h : a ∈ u.arms) (ha : Role.function.accepts a.kind = false) :
    a ∈ elementsIn u := by
  induction u with
  | node i k o us ih =>
    cases hb : branches k us with
    | none =>
      rw [arms_of_branches_eq_none hb, mem_singleton] at h
      subst h
      exact mem_elementsIn ha
    | some vs =>
      have hk : Role.function.accepts k = false ∧ ∀ v ∈ vs, v ∈ us := by
        unfold branches at hb
        split at hb <;> cases hb <;> exact ⟨rfl, by simp⟩
      rw [arms_of_branches hb] at h
      obtain ⟨v, hv, h⟩ := List.mem_flatMap.mp h
      rw [elementsIn_of_not_function o us hk.1]
      exact .tail _ (List.mem_flatMap.mpr ⟨v, hk.2 v hv, ih v (hk.2 v hv) h⟩)

end Unfolding

/-! ### Places in a function -/

namespace Scoping

open Unfolding

variable {root f u v : Unfolding} {l : Layer} {env : List Layer} {x : String} {i : ElementId}
  {ids : List ElementId} {o : Origin} {before after : List Unfolding}

theorem At.within (h : At root env u) : u.Within root := by
  induction h with
  | function heq hf =>
    subst heq
    exact .child hf (.child (.head _) .here)
  | closure _ ih =>
    exact (Within.child (.head _) (.child (.head _) .here)).trans ih
  | statement _ ih => exact (Within.child (by simp) .here).trans ih
  | part _ _ hu ih => exact (Within.child hu .here).trans ih

theorem At.behind {d s : Unfolding}
    (h : At root (l :: env) (.node i (.block ids) o (before ++ d :: s :: after))) :
    At root (l.opened (before ++ [d]) :: env) s := by
  rw [append_cons] at h
  exact h.statement

theorem At.exists_declares (h : At root env u) :
    ∀ l ∈ env, ∀ s ∈ l.scopes, ∀ p ∈ s, ∃ v : Unfolding, v.Within root ∧ declares v = some p := by
  induction h with
  | function =>
    intro l hl
    obtain rfl := mem_singleton.mp hl
    exact nofun
  | closure _ ih => exact forall_mem_cons.mpr ⟨nofun, ih⟩
  | @statement l env i ids o before after u hat ih =>
    obtain ⟨hl, henv⟩ := forall_mem_cons.mp ih
    refine forall_mem_cons.mpr ⟨forall_mem_cons.mpr ⟨fun p hp => ?_, hl⟩, henv⟩
    obtain ⟨v, hv, hdeclares⟩ := mem_filterMap.mp hp
    exact ⟨v, (Within.child (mem_append_left _ hv) .here).trans hat.within, hdeclares⟩
  | part _ _ _ ih => exact ih

theorem At.mem_locals (h : At root (l :: env) u) {e : ElementId} (he : e ∈ locals u) : e ∈ l.locals := by
  generalize hfull : l :: env = full at h
  induction h generalizing l env e with
  | function | closure =>
    obtain ⟨rfl, -⟩ := List.cons.inj hfull
    exact he
  | @statement l' env' i ids o before after u _ ih =>
    cases hfull
    refine ih (l := l') ?_ rfl
    rw [locals, localsIn_append, localsIn]
    simp [he]
  | @part env' i k o us u _ hk hu ih =>
    refine ih ?_ hfull
    have hall : locals (.node i k o us) = localsAll us := by
      cases k <;> first | rfl | cases hk
    rw [hall, localsAll_eq_flatMap]
    exact List.mem_flatMap.mpr ⟨u, hu, he⟩

theorem At.declaration_mem_locals {j value : ElementId} {org : Origin} {us : List Unfolding}
    {d : Declaration} {b : Option Binding} {initializer : Bool} (h : At root (l :: env) (.node j (.block ids)
    o (before ++ .node i (.assignment x (some d) value b initializer) org us :: after)))
    (hx : x ∉ (declared before).map Prod.fst) : i ∈ l.locals := by
  refine h.mem_locals ?_
  rw [locals, localsIn_append, localsIn, accepted, nil_append, if_neg hx]
  simp

theorem exists_at_of_mem_elementsIn (hu : u.Fits) (h : At root (l :: env) u) (hv : v ∈ elementsIn u) :
    ∃ scopes, At root ({ l with scopes } :: env) v := by
  induction u generalizing l with
  | node i k o us ih =>
    cases hk : Role.function.accepts k with
    | true =>
      rw [elementsIn_of_function o us hk] at hv
      cases hv
    | false =>
      rw [elementsIn_of_not_function o us hk, mem_cons] at hv
      rcases hv with rfl | hv
      · exact ⟨l.scopes, h⟩
      · obtain ⟨w, hw, hvw⟩ := List.mem_flatMap.mp hv
        -- a function has no elements here
        have hnone (hrole : Role.function.accepts w.kind = true) : False := by
          obtain ⟨j, k', o', ws⟩ := w
          have hk' : Role.function.accepts k' = true := hrole
          rw [elementsIn_of_function o' ws hk'] at hvw
          cases hvw
        cases hscope : changesScope k with
        | false => exact ih w hw (hu.child w hw) (h.part hscope hw) hvw
        | true =>
          cases k with
          | block ids =>
            obtain ⟨before, after, rfl⟩ := append_of_mem hw
            have hat : At root (l.opened before :: env) w := h.statement
            obtain ⟨scopes, hat'⟩ := ih w hw (hu.child w hw) hat hvw
            exact ⟨scopes, hat'⟩
          | closure g bound =>
            obtain ⟨fn, rfl, -, hrole⟩ := hu.one rfl
            obtain rfl := mem_singleton.mp hw
            exact (hnone hrole).elim
          | module m ids => exact (hnone (hu.all rfl w hw).2).elim
          | function => cases hk
          | _ => cases hscope

/-- The function has its body at a place of its own, surrounded by these functions. -/
def Homed (root f : Unfolding) (l : Layer) (env : List Layer) : Prop :=
  ∃ i name params b lifted captures bound o body,
    f = .node i (.function name params b lifted captures) o [body] ∧
      l = .ofBody captures bound params body ∧ At root (l :: env) body

theorem Homed.exists_at (hf : Homed root f l env) (hroot : root.Fits) (hv : v ∈ f.elements) :
    ∃ scopes, At root ({ l with scopes } :: env) v := by
  obtain ⟨i, name, params, b, lifted, captures, bound, o, body, rfl, rfl, hat⟩ := hf
  have hbody : v ∈ elementsIn body := by simpa [elements, children] using hv
  exact exists_at_of_mem_elementsIn (hat.fits hroot) hat hbody

end Scoping

end Clausal
