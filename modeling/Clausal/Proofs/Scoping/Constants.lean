import Clausal.Proofs.Scoping.Writers

/-! # Constants are written once

In a module in which every name was resolved and nothing is wrong (`Flawless`), no function writes into a slot of
its captures (`Flawless.writers_of_lt`), and a constant has no other writers than its declaration and the
initializers right behind it (`Flawless.mem_writers_iff`): whatever else writes into the slot of a declaration
assigns to the name that it declares, which for a constant only an initializer may do, and an initializer is an
arm of the statement behind the declaration that its name means. -/

namespace Clausal

open List

namespace Scoping

open Unfolding

variable {root f u v : Unfolding} {l : Layer} {env : List Layer} {x : String} {i : ElementId} {d : Decl}
  {us : List Unfolding} {site : LetSite} {o : Origin}

/-! ### Slots -/

theorem Layer.captures_le_slot (l : Layer) (d : Decl) : l.captures.length ≤ l.slot d := by
  cases d with
  | parameter index => exact Nat.le_add_right ..
  | «local» element constant => exact Nat.le_add_right_of_le (Nat.le_add_right ..)

theorem Layer.eq_of_slot {constant : Bool} (h : l.slot d = l.slot (.local i constant)) (hi : i ∈ l.locals)
    (hd : ∀ n, d = .parameter n → n < (firsts [] l.params).length) : ∃ constant', d = .local i constant' := by
  cases d with
  | parameter n =>
    have hn := hd n rfl
    simp only [slot] at h
    omega
  | «local» e constant' =>
    have hidx : l.locals.idxOf i = l.locals.idxOf e := by
      simp only [slot] at h
      omega
    obtain rfl := (idxOf_inj hi).mp hidx
    exact ⟨constant', rfl⟩

theorem At.find?_cases (h : At root (l :: env) u) (hfind : l.find? x = some d) :
    (∃ n, d = .parameter n ∧ n < (firsts [] l.params).length) ∨
      ∃ v : Unfolding, v.Within root ∧ declares v = some (x, d) := by
  rw [Layer.find?, Option.or_eq_some_iff] at hfind
  rcases hfind with hfind | ⟨-, hfind⟩
  · obtain ⟨s, hs, hlookup⟩ := exists_of_findSome?_eq_some hfind
    obtain ⟨_, _, rfl, -⟩ := lookup_eq_some_iff.mp hlookup
    exact .inr (h.exists_declares l (.head _) _ hs _ (by simp))
  · obtain ⟨n, hn, rfl⟩ := Option.map_eq_some_iff.mp hfind
    obtain ⟨hlt, -⟩ := findIdx?_eq_some_iff_getElem.mp hn
    exact .inl ⟨n, rfl, hlt⟩

theorem Layer.find?_opened_concat {before : List Unfolding} {d : Unfolding} {e : Decl}
    (hd : declares d = some (x, e)) (hx : x ∉ (declared before).map Prod.fst) :
    (l.opened (before ++ [d])).find? x = some e := by
  have hlookup : (declared (before ++ [d])).lookup x = some e := by
    have hnone : (declared before).lookup x = none := by
      rw [lookup_eq_none_iff]
      intro p hp
      rw [bne_iff_ne]
      rintro rfl
      exact hx (mem_map.mpr ⟨p, hp, rfl⟩)
    rw [declared, filterMap_append, lookup_append]
    rw [declared] at hnone
    rw [hnone, Option.none_or, filterMap_cons, hd]
    simp
  rw [find?, opened, findSome?_cons, hlookup]
  rfl

/-! ### Modules without errors -/

/-- Initializers stand behind their declarations, and every declaration and assignment has been bound to the slot
of what its name means, without an error. -/
structure Flawless (root : Unfolding) : Prop where
  fits : root.Fits
  nodup : root.ids.Nodup
  poised : Poised none root
  declaration : ∀ {l env i x d value b initializer o us},
    At root (l :: env) (.node i (.assignment x (some d) value b initializer) o us) →
    x ∉ (l.scopes.headD []).map Prod.fst ∧
      ∃ b', b = some b' ∧ b'.slot.toNat = l.slot (.local i true) ∧ b'.kind = .local
  assignment : ∀ {l env i x value b initializer o us},
    At root (l :: env) (.node i (.assignment x none value b initializer) o us) →
    ∃ d b', l.find? x = some d ∧ (d.isConstant = true → initializer = true) ∧ b = some b' ∧
      b'.slot.toNat = l.slot d ∧ b'.kind = d.kind

namespace Flawless

variable {s : UInt16}

theorem of_stored (h : Flawless root) (hv : At root (l :: env) v) (hs : v.kind.stored? = some s) :
    s.toNat = l.slot (.local v.id true) ∨
      ∃ x d, l.find? x = some d ∧ s.toNat = l.slot d ∧ (d.isConstant = true → v.kind.initialized? = some x) := by
  obtain ⟨i, k, o, us⟩ := v
  cases k with
  | assignment x d value b initializer =>
    cases b with
    | none => cases hs
    | some b =>
      cases hs
      cases d with
      | some d =>
        obtain ⟨-, b', hb, hslot, -⟩ := h.declaration hv
        cases hb
        exact .inl hslot
      | none =>
        obtain ⟨d, b', hfind, hconstant, hb, hslot, -⟩ := h.assignment hv
        cases hb
        refine .inr ⟨x, d, hfind, hslot, fun hd => ?_⟩
        cases hconstant hd
        rfl
  | _ => cases hs

theorem not_mem_declared (h : Flawless root) (hv : At root (l :: env) v) {d : Decl}
    (hd : declares v = some (x, d)) : x ∉ (l.scopes.headD []).map Prod.fst := by
  obtain ⟨i, k, o, us⟩ := v
  cases k with
  | assignment y c value b initializer =>
    cases c with
    | none => cases hd
    | some c =>
      cases hd
      exact (h.declaration hv).1
  | _ => cases hd

theorem writers_of_lt (h : Flawless root) (hf : Homed root f l env) (hs : s.toNat < l.captures.length) :
    f.writers s = [] := by
  rw [writers, filter_eq_nil_iff]
  intro v hv hstored
  obtain ⟨scopes, hat⟩ := hf.exists_at h.fits hv
  have hle (d : Decl) : l.captures.length ≤ ({ l with scopes } : Layer).slot d := Layer.captures_le_slot _ d
  rcases h.of_stored hat (of_decide_eq_true hstored) with hslot | ⟨_, d, -, hslot, -⟩
  · have := hle (.local v.id true)
    omega
  · have := hle d
    omega

section constants
variable {scopes : List (List (String × Decl))} {j : ElementId} {ids : List ElementId} {o : Origin}
  {before after : List Unfolding} {d : Unfolding} {b : Binding}

theorem of_constant? (h : Flawless root) (hblock : At root (l :: env) (.node j (.block ids) o (before ++ d :: after)))
    (hx : d.kind.constant? = some x) :
    ∃ value b us, d = .node d.id (.assignment x (some .constant) value (some b) false) d.origin us ∧
      x ∉ (declared before).map Prod.fst ∧ d.id ∈ l.locals ∧ b.slot.toNat = l.slot (.local d.id true) ∧
      b.kind = .local := by
  obtain ⟨i, k, org, us⟩ := d
  have hat : At root (l.opened before :: env) (.node i k org us) := hblock.statement
  cases k with
  | assignment y c value b initializer =>
    have hc : c = some .constant ∧ y = x := by
      rcases c with _ | _ | _ <;> cases hx
      exact ⟨rfl, rfl⟩
    obtain ⟨rfl, rfl⟩ := hc
    obtain ⟨hnew, b, rfl, hslot, hkind⟩ := h.declaration hat
    cases initializer with
    | true =>
      obtain ⟨-, hdeclaration⟩ := h.poised.behind_of_at hat rfl
      cases hdeclaration
    | false => exact ⟨value, b, us, rfl, hnew, hblock.declaration_mem_locals hnew, hslot, hkind⟩
  | _ => cases hx

theorem of_mem_arms (h : Flawless root) {s a : Unfolding}
    (hblock : At root (l :: env) (.node j (.block ids) o (before ++ d :: s :: after)))
    (hx : d.kind.constant? = some x) (hslot : b.slot.toNat = l.slot (.local d.id true)) (hkind : b.kind = .local)
    (ha : a ∈ s.arms) (hinit : a.kind.initialized? = some x) :
    ∃ value, a.kind = .assignment x none value (some b) true := by
  obtain ⟨_, _, _, hd, hnew, -⟩ := h.of_constant? hblock hx
  have hdeclares : declares d = some (x, .local d.id true) := by
    rw [hd]
    rfl
  obtain ⟨scopes, hat, hfind⟩ := exists_at_of_mem_arms hblock.behind ha
  have hmeans := (hfind x).trans (Layer.find?_opened_concat hdeclares hnew)
  obtain ⟨-, hdeclaration⟩ := h.poised.behind_of_at hat hinit
  obtain ⟨i, k, org, us⟩ := a
  cases k with
  | assignment y c value b' initializer =>
    cases initializer with
    | false => cases hinit
    | true =>
      cases hinit
      cases c with
      | some c => cases hdeclaration
      | none =>
        obtain ⟨e, b', he, -, rfl, hslot', hkind'⟩ := h.assignment hat
        cases hmeans.symm.trans he
        have hb : b' = b := by
          obtain ⟨slot, kind⟩ := b
          obtain ⟨slot', kind'⟩ := b'
          have hslots : slot' = slot := UInt16.toNat_inj.mp (hslot'.trans hslot.symm)
          have hkinds : kind' = kind := hkind'.trans hkind.symm
          rw [hslots, hkinds]
        exact ⟨value, by rw [hb]; rfl⟩
  | _ => cases hinit

theorem after_eq {i : ElementId} {ids' : List ElementId} {o' : Origin} {before' after' : List Unfolding}
    (hroot : root.ids.Nodup) (h : (Unfolding.node i (.block ids) o (before ++ d :: after)).Within root)
    (h' : (Unfolding.node j (.block ids') o' (before' ++ d :: after')).Within root) : after = after' := by
  have hd : d ∈ before ++ d :: after := by simp
  have hd' : d ∈ before' ++ d :: after' := by simp
  obtain ⟨-, -, -, heq⟩ := Unfolding.node.inj (h.eq_of_mem_children h' hroot hd hd')
  have hids := h.nodup_ids hroot
  rw [ids_node, nodup_cons, flatMap_append, flatMap_cons, nodup_append', nodup_append'] at hids
  obtain ⟨-, -, ⟨-, -, hafter⟩, hbefore⟩ := hids
  have hid {ds : List Unfolding} (hds : d ∈ ds) : d.id ∈ ds.flatMap Unfolding.ids :=
    mem_flatMap.mpr ⟨d, hds, d.id_mem_ids⟩
  have hleft : d ∉ before := fun hm => hbefore (hid hm) (mem_append_left _ d.id_mem_ids)
  have hright : d ∉ after := fun hm => hafter d.id_mem_ids (hid hm)
  exact ((append_cons_inj_of_notMem hleft hright).mp heq).2.2

theorem of_mem_writers (h : Flawless root) (hf : Homed root f l env)
    (hblock : At root ({ l with scopes } :: env) (.node j (.block ids) o (before ++ d :: after)))
    (hx : d.kind.constant? = some x) (hslot : b.slot.toNat = l.slot (.local d.id true))
    (hv : v ∈ f.writers b.slot) :
    v = d ∨ ∃ s ∈ after.head?, v ∈ s.arms ∧ v.kind.initialized? = some x := by
  obtain ⟨_, _, _, hd, hnew, hlocal, -⟩ := h.of_constant? hblock hx
  have hdwithin : d.Within root := hblock.within.of_mem_children (by simp [children])
  have hdeclares : declares d = some (x, .local d.id true) := by
    rw [hd]
    rfl
  obtain ⟨helement, hstored⟩ := mem_filter.mp hv
  obtain ⟨scopes', hat⟩ := hf.exists_at h.fits helement
  rcases h.of_stored hat (of_decide_eq_true hstored) with hown | ⟨y, e, hfind, hmeans, hconstant⟩
  · -- it declares what has the slot
    have hsame : l.slot (.local v.id true) = l.slot (.local d.id true) := hown.symm.trans hslot
    obtain ⟨_, heq⟩ := Layer.eq_of_slot hsame hlocal (by simp)
    exact .inl (hat.within.eq_of_id hdwithin h.nodup (Decl.local.inj heq).1)
  · -- it assigns to what has the slot, which is the constant
    have hcases := hat.find?_cases hfind
    have hparameter : ∀ n, e = .parameter n → n < (firsts [] l.params).length := by
      rintro n rfl
      rcases hcases with ⟨m, heq, hm⟩ | ⟨w, -, hw⟩
      · cases heq
        exact hm
      · obtain ⟨_, ⟨⟩⟩ := declares_eq_local hw
    have hsame : l.slot e = l.slot (.local d.id true) := hmeans.symm.trans hslot
    obtain ⟨c, rfl⟩ := Layer.eq_of_slot hsame hlocal hparameter
    rcases hcases with ⟨m, heq, -⟩ | ⟨w, hw, hwdeclares⟩
    · cases heq
    obtain ⟨_, heq⟩ := declares_eq_local hwdeclares
    rw [hw.eq_of_id hdwithin h.nodup (Decl.local.inj heq).1.symm] at hwdeclares
    cases hdeclares.symm.trans hwdeclares
    have hinit := hconstant rfl
    -- so it is an initializer, behind a declaration that the name means there
    obtain ⟨⟨l0, i', ids', o', before', d', s, after', hblock', hd', harms, hnames⟩, -⟩ :=
      h.poised.behind_of_at hat hinit
    have hmean : d' = d := by
      obtain ⟨⟨y, e⟩, hdeclares', rfl⟩ := Option.map_eq_some_iff.mp hd'
      have hat' : At root (l0.opened before' :: env) d' := hblock'.statement
      have hfirst : y ∉ (declared before').map Prod.fst := h.not_mem_declared hat' hdeclares'
      have hfind' := (hnames y).trans (Layer.find?_opened_concat hdeclares' hfirst)
      cases hfind.symm.trans hfind'
      obtain ⟨_, heq⟩ := declares_eq_local hdeclares'
      exact hat'.within.eq_of_id hdwithin h.nodup (Decl.local.inj heq).1.symm
    rw [hmean] at hblock'
    obtain rfl := after_eq h.nodup hblock.within hblock'.within
    have hself : v ∈ v.arms := by
      obtain ⟨i, k, org, us⟩ := v
      have hforks : k.forks = false := by
        cases k <;> first | rfl | cases hinit
      rw [arms_of_branches_eq_none (branches_of_not_forks hforks us)]
      exact .head _
    exact .inr ⟨s, rfl, harms v hself, hinit⟩

theorem mem_writers_iff (h : Flawless root) (hf : Homed root f l env)
    (hblock : At root ({ l with scopes } :: env) (.node j (.block ids) o (before ++ d :: after)))
    (helements : ∀ v ∈ elementsIn (.node j (.block ids) o (before ++ d :: after)), v ∈ f.elements)
    (hx : d.kind.constant? = some x) (hd : d.kind.stored? = some b.slot)
    (hslot : b.slot.toNat = l.slot (.local d.id true)) (hkind : b.kind = .local) :
    v ∈ f.writers b.slot ↔ v = d ∨ ∃ s ∈ after.head?, v ∈ s.arms ∧ v.kind.initialized? = some x := by
  refine ⟨h.of_mem_writers hf hblock hx hslot, ?_⟩
  have hparts {w : Unfolding} (hw : w ∈ before ++ d :: after) (hv : v ∈ elementsIn w) : v ∈ f.elements := by
    refine helements v ?_
    rw [elementsIn_of_not_function _ _ rfl]
    exact .tail _ (mem_flatMap.mpr ⟨w, hw, hv⟩)
  rintro (rfl | ⟨s, hs, harm, hinit⟩)
  · have hfunction : Role.function.accepts v.kind = false := by
      generalize v.kind = k at hx
      cases k <;> first | rfl | cases hx
    exact mem_filter.mpr ⟨hparts (by simp) (mem_elementsIn hfunction), decide_eq_true hd⟩
  · cases after with
    | nil => cases hs
    | cons s' after =>
      cases hs
      obtain ⟨value, hk⟩ := h.of_mem_arms hblock hx hslot hkind harm hinit
      refine mem_filter.mpr ⟨hparts (by simp) (mem_elementsIn_of_mem_arms harm ?_), ?_⟩
      · rw [hk]
        rfl
      · rw [hk]
        exact decide_eq_true rfl

end constants

end Flawless

/-! ### Functions and declarations have places -/

theorem exists_parent (h : v.Within u) : v = u ∨ ∃ p : Unfolding, p.Within u ∧ v ∈ p.children := by
  induction h with
  | here => exact .inl rfl
  | @child i k o us w hw _ ih =>
    rcases ih with rfl | ⟨p, hp, hv⟩
    · exact .inr ⟨_, .here, hw⟩
    · exact .inr ⟨p, .child hw hp, hv⟩

theorem fits_of_within (h : v.Within u) (hu : u.Fits) : v.Fits := by
  induction h with
  | here => exact hu
  | child hw _ ih => exact ih (hu.child _ hw)

theorem mem_functions_iff : f ∈ u.functions ↔ f.Within u ∧ Role.function.accepts f.kind = true := by
  induction u with
  | node i k o us ih =>
    have hus : f ∈ us.flatMap functions ↔ ∃ u ∈ us, f.Within u ∧ Role.function.accepts f.kind = true := by
      rw [mem_flatMap]
      exact exists_congr fun u => and_congr_right fun hu => ih u hu
    have hbelow : (∃ u ∈ us, f.Within u ∧ Role.function.accepts f.kind = true) →
        f.Within (.node i k o us) ∧ Role.function.accepts f.kind = true := by
      rintro ⟨u, hu, hf, hk⟩
      exact ⟨.child hu hf, hk⟩
    cases hk : Role.function.accepts k with
    | true =>
      rw [functions_of_function o us hk, mem_append, mem_singleton, hus]
      constructor
      · rintro (hf | rfl)
        · exact hbelow hf
        · exact ⟨.here, hk⟩
      · rintro ⟨_ | ⟨hu, hf⟩, hfunction⟩
        · exact .inr rfl
        · exact .inl ⟨_, hu, hf, hfunction⟩
    | false =>
      rw [functions_of_not_function o us hk, hus]
      refine ⟨hbelow, ?_⟩
      rintro ⟨_ | ⟨hu, hf⟩, hfunction⟩
      · cases hk.symm.trans hfunction
      · exact ⟨_, hu, hf, hfunction⟩

section
variable {i : ElementId} {m : String} {ids : List ElementId} {o : Origin} {us : List Unfolding}

theorem exists_homed (hroot : Fits (.node i (.module m ids) o us))
    (hf : f ∈ (Unfolding.node i (.module m ids) o us).functions) :
    ∃ l env, Homed (.node i (.module m ids) o us) f l env := by
  obtain ⟨hwithin, hfunction⟩ := mem_functions_iff.mp hf
  have hfits := fits_of_within hwithin hroot
  obtain ⟨j, k, org, vs⟩ := f
  cases k <;> cases hfunction
  obtain ⟨body, rfl, -⟩ := hfits.one rfl
  rcases exists_parent hwithin with heq | ⟨p, hp, hm⟩
  · cases heq
  · have hparent := fits_of_within hp hroot
    rcases exists_parent hp with rfl | ⟨q, hq, hm'⟩
    · exact ⟨_, _, _, _, _, _, _, _, [], _, _, rfl, rfl, .function rfl hm⟩
    · -- another element that holds a function is a closure
      obtain ⟨i', k', o', ps⟩ := p
      obtain ⟨j', kq, oq, qs⟩ := q
      obtain ⟨⟨role, c⟩, -, -, haccepts⟩ := (fits_of_within hq hroot).slot_of_mem hm'
      obtain ⟨⟨role', c'⟩, hslot, -, haccepts'⟩ := hparent.slot_of_mem hm
      obtain rfl : role' = .function := by cases role' <;> first | rfl | cases haccepts'
      cases k' with
      | module m' ids' => cases role <;> cases haccepts
      | closure g bound =>
        obtain ⟨fn, rfl, -⟩ := hparent.one rfl
        obtain rfl := mem_singleton.mp hm
        obtain ⟨l, env, hat⟩ := exists_at_of_within_module hroot hp rfl
        exact ⟨_, _, _, _, _, _, _, _, bound, _, _, rfl, rfl, hat.closure⟩
      | whenClause _ _ arm => cases arm <;> simp [Kind.slots, Arm.actionRole] at hslot
      | _ => simp [Kind.slots] at hslot

end

/-- A declaration stands in a block of its function, in front of the next statement. -/
def Sited (root : Unfolding) (site : LetSite) : Prop :=
  ∃ l env scopes i ids o before after, site.function ∈ root.functions ∧ Homed root site.function l env ∧
    At root ({ l with scopes } :: env) (.node i (.block ids) o (before ++ site.declaration :: after)) ∧
    (∀ v ∈ elementsIn (.node i (.block ids) o (before ++ site.declaration :: after)), v ∈ site.function.elements) ∧
    site.next = after.head? ∧ site.declaration.kind.constant?.isSome = true

theorem mem_letSitesAll (h : site ∈ letSitesAll f us) :
    ∃ before u after, us = before ++ u :: after ∧ (site ∈ letSite f u after.head? ∨ site ∈ letSitesIn f u) := by
  induction us with
  | nil => cases h
  | cons u us ih =>
    rw [letSitesAll, mem_append, mem_append] at h
    rcases h with h | h
    · exact ⟨[], u, us, rfl, h⟩
    · obtain ⟨before, v, after, rfl, hv⟩ := ih h
      exact ⟨u :: before, v, after, rfl, hv⟩

theorem of_mem_letSite {next : Option Unfolding} (h : site ∈ letSite f u next) :
    site = ⟨f, u, next⟩ ∧ u.kind.constant?.isSome = true := by
  rw [letSite] at h
  split_ifs at h with hu
  · exact ⟨mem_singleton.mp h, hu⟩
  · cases h

theorem mem_letSitesIn_function {k : Kind} {body : Unfolding}
    (hk : Role.function.accepts k = true) (hbody : Role.block.accepts body.kind = true)
    (h : site ∈ letSitesIn f (.node i k o [body])) : site ∈ letSitesIn (.node i k o [body]) body := by
  rw [letSitesIn, if_pos hk, letSitesAll, letSitesAll, append_nil,
    letSite_of_constant? (Kind.constant?_of_accepts hbody (by simp)), nil_append] at h
  exact h

theorem elements_singleton (i : ElementId) (k : Kind) (o : Origin) (body : Unfolding) :
    elements (.node i k o [body]) = elementsIn body := flatMap_singleton ..

theorem sited_of_mem_letSitesIn {scopes : List (List (String × Decl))} (hroot : root.Fits)
    (hfunction : f ∈ root.functions) (hf : Homed root f l env) (hu : At root ({ l with scopes } :: env) u)
    (helements : ∀ v ∈ elementsIn u, v ∈ f.elements) (hplaced : isPlaced u.kind = true)
    (h : site ∈ letSitesIn f u) : Sited root site := by
  induction u using induct₂ generalizing f l env scopes with
  | node i k o us ih ih2 =>
    have hfits := hu.fits hroot
    have hk : Role.function.accepts k = false := by
      cases k <;> first | rfl | cases hplaced
    rw [letSitesIn_of_not_function hk] at h
    obtain ⟨before, u, after, rfl, hsite⟩ := mem_letSitesAll h
    have hm : u ∈ before ++ u :: after := by simp
    have helements' : ∀ v ∈ elementsIn u, v ∈ f.elements := by
      intro v hv
      refine helements v ?_
      rw [elementsIn_of_not_function _ _ hk]
      exact .tail _ (mem_flatMap.mpr ⟨u, hm, hv⟩)
    rcases hsite with hsite | hsite
    · -- the declaration is a statement of this block
      obtain ⟨rfl, hconstant⟩ := of_mem_letSite hsite
      obtain ⟨ids, rfl⟩ : ∃ ids, k = .block ids := by
        by_contra hblock
        rw [constant?_of_fits hfits (fun ids heq => hblock ⟨ids, heq⟩) u hm] at hconstant
        cases hconstant
      exact ⟨l, env, scopes, i, ids, o, before, after, hfunction, hf, hu, helements, rfl, hconstant⟩
    · cases hscope : changesScope k with
      | true =>
        cases k with
        | block ids =>
          have hrole := (hfits.all rfl u hm).2
          have hat : At root ({ l with scopes := declared before :: scopes } :: env) u := hu.statement
          exact ih u hm hfunction hf hat helements' (isPlaced_of_accepts hrole nofun) hsite
        | closure g bound =>
          obtain ⟨fn, heq, hfn, haccepts⟩ := hfits.one rfl
          obtain ⟨rfl, rfl, rfl⟩ : before = [] ∧ u = fn ∧ after = [] := by
            cases before with
            | nil =>
              cases heq
              exact ⟨rfl, rfl, rfl⟩
            | cons b before => simp at heq
          obtain ⟨j, k', o', vs⟩ := u
          cases k' <;> cases haccepts
          obtain ⟨body, rfl, -, hblock⟩ := hfn.one rfl
          have hinner := mem_functions_iff.mpr ⟨(Within.child hm .here).trans hu.within, rfl⟩
          exact ih2 _ hm body (.head _) hinner
            ⟨_, _, _, _, _, _, bound, _, _, rfl, rfl, hu.closure⟩ hu.closure
            (fun w hw => by rwa [elements_singleton]) (isPlaced_of_accepts hblock nofun)
            (mem_letSitesIn_function rfl hblock hsite)
        | module | function => cases hplaced
        | _ => cases hscope
      | false =>
        exact ih u hm hfunction hf (hu.part hscope hm) helements' (isPlaced_of_mem hfits hscope hm) hsite

theorem sited_of_mem_letSites {m : String} {ids : List ElementId}
    (hroot : Fits (.node i (.module m ids) o us)) (h : site ∈ letSites (.node i (.module m ids) o us)) :
    Sited (.node i (.module m ids) o us) site := by
  rw [letSites, letSitesIn_of_not_function rfl] at h
  obtain ⟨before, f, after, rfl, hsite⟩ := mem_letSitesAll h
  have hm : f ∈ before ++ f :: after := by simp
  obtain ⟨hfits, hfunction⟩ := hroot.all rfl f hm
  rcases hsite with hsite | hsite
  · obtain ⟨-, hconstant⟩ := of_mem_letSite hsite
    rw [Kind.constant?_of_accepts hfunction nofun] at hconstant
    cases hconstant
  · obtain ⟨j, k, org, vs⟩ := f
    cases k <;> cases hfunction
    obtain ⟨body, rfl, -, hblock⟩ := hfits.one rfl
    exact sited_of_mem_letSitesIn hroot (mem_functions_iff.mpr ⟨.child hm .here, rfl⟩)
      ⟨_, _, _, _, _, _, [], _, _, rfl, rfl, .function rfl hm⟩ (.function rfl hm)
      (fun w hw => by rwa [elements_singleton]) (isPlaced_of_accepts hblock nofun)
      (mem_letSitesIn_function rfl hblock hsite)

/-! ### Constants -/

theorem Flawless.writers_of_sited (h : Flawless root) (hs : Sited root site)
    (hx : site.declaration.kind.constant? = some x) :
    ∃ value b us, site.declaration =
        .node site.declaration.id (.assignment x (some .constant) value (some b) false) site.declaration.origin us ∧
      (site.next.any (·.starts x) = false → site.function.writers b.slot = [site.declaration]) ∧
      ∀ s ∈ site.next, s.fills x = true →
        (site.function.writers b.slot).Perm (site.declaration :: s.arms) ∧
          ∀ a ∈ s.arms, ∃ value, a.kind = .assignment x none value (some b) true := by
  obtain ⟨l, env, scopes, i, ids, o, before, after, hfunction, hf, hblock, helements, hnext, -⟩ := hs
  obtain ⟨value, b, us, hd, -, -, hslot, hkind⟩ := h.of_constant? hblock hx
  have hstored : site.declaration.kind.stored? = some b.slot := by
    rw [hd]
    rfl
  have hwriters (v : Unfolding) := h.mem_writers_iff (v := v) hf hblock helements hx hstored hslot hkind
  have hnodup : (site.function.writers b.slot).Nodup :=
    nodup_writers ((mem_functions_iff.mp hfunction).1.nodup_ids h.nodup) b.slot
  refine ⟨value, b, us, hd, fun hstarts => ?_, fun s hs hfills => ?_⟩
  · refine perm_singleton.mp ((perm_ext_iff_of_nodup hnodup (nodup_singleton _)).mpr fun v => ?_)
    rw [hwriters, mem_singleton, or_iff_left]
    rintro ⟨s, hs, harm, hinit⟩
    rw [hnext, Option.mem_def.mp hs, Option.any_some, starts, contains_eq_mem, decide_eq_false_iff_not] at hstarts
    exact hstarts (mem_map.mpr ⟨v, harm, hinit⟩)
  · rw [hnext] at hs
    obtain ⟨rest, rfl⟩ : ∃ rest, after = s :: rest := by
      cases after with
      | nil => cases hs
      | cons s' rest =>
        cases hs
        exact ⟨rest, rfl⟩
    rw [fills, Bool.and_eq_true, all_eq_true] at hfills
    have hinit : ∀ a ∈ s.arms, a.kind.initialized? = some x := fun a ha =>
      eq_of_beq (hfills.2 _ (mem_map.mpr ⟨a, ha, rfl⟩))
    have harms : ∀ a ∈ s.arms, ∃ value, a.kind = .assignment x none value (some b) true := fun a ha =>
      h.of_mem_arms hblock hx hslot hkind ha (hinit a ha)
    have hdeclaration : site.declaration ∉ s.arms := by
      intro hm
      obtain ⟨_, hk⟩ := harms _ hm
      rw [hk] at hx
      cases hx
    have hsnodup : s.arms.Nodup :=
      Nodup.of_map _ ((hblock.behind.within.nodup_ids h.nodup).sublist (sublist_arms s))
    refine ⟨(perm_ext_iff_of_nodup hnodup (nodup_cons.mpr ⟨hdeclaration, hsnodup⟩)).mpr fun v => ?_, harms⟩
    rw [hwriters, mem_cons]
    refine or_congr_right ⟨?_, fun ha => ⟨s, rfl, ha, hinit v ha⟩⟩
    rintro ⟨_, ⟨⟩, ha, -⟩
    exact ha

end Scoping

open Scoping

theorem Unfolding.Fresh.flawless {u : Unfolding} (hu : u.Fresh) (hpoised : Poised none u)
    (hclean : ∀ d ∈ u.resolve.2, d.isError = false) : Flawless u.resolve.1 := by
  have herror {p : Problem} {o : Origin} (hm : ⟨p, o⟩ ∈ u.resolve.2) (hp : p.level = .error) : False := by
    have hnone := hclean _ hm
    rw [Diagnostic.isError, hp] at hnone
    cases hnone
  have hroom : Roomy u.resolve.2 := by
    rintro ⟨p, o⟩ hm f x rfl
    exact herror hm rfl
  have hresolved {l : Layer} {env : List Layer} {v : Unfolding} (h : At u.resolve.1 (l :: env) v) :
      Resolved (functionNames u) u.resolve.2 l env v := by
    obtain ⟨l', env', heq, -, -, hresolved⟩ := hu.resolved_of_at hroom h
    cases heq
    exact hresolved
  refine ⟨(hu.fits.marked _).marked _, ?_, (hpoised.marked _).marked _, ?_, ?_⟩
  · rw [resolve, ids_marked, ids_marked]
    exact hu.nodup
  · intro l env i x d value b initializer o us h
    have hr : DeclarationResolved u.resolve.2 l i o x b := hresolved h
    unfold DeclarationResolved at hr
    split_ifs at hr with hx
    · exact (herror hr.2 rfl).elim
    · exact ⟨hx, hr⟩
  · intro l env i x value b initializer o us h
    have hr : AssignmentResolved u.resolve.2 l env o x initializer b := hresolved h
    unfold AssignmentResolved at hr
    cases hfind : l.find? x with
    | none =>
      rw [hfind] at hr
      obtain ⟨-, hcaptured, hundeclared⟩ := hr
      by_cases hv : Visible env x
      · exact (herror (hcaptured hv) rfl).elim
      · exact (herror (hundeclared hv) rfl).elim
    | some d =>
      rw [hfind] at hr
      dsimp only at hr
      split_ifs at hr with hconstant
      · exact (herror hr.2 rfl).elim
      · obtain ⟨b', rfl, haccess⟩ := hr
        cases haccess with
        | own hfind' hslot hkind =>
          cases hfind.symm.trans hfind'
          refine ⟨d, b', rfl, fun hd => ?_, rfl, hslot, hkind⟩
          simpa [hd] using hconstant
        | captured hnone => cases hfind.symm.trans hnone

end Clausal
