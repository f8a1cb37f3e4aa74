import Clausal.Proofs.Lowering.Tiling
import Clausal.Proofs.Scoping.LetSites

/-! # Where declarations of constants come from

`Ast.Node.letsIn` are the `let` statements in a piece of syntax, in order, each with the function or closure
it belongs to. -/

namespace Clausal

open List Option

open Ast (Form Node Fills)
open Lower (Lowered IsLowered declaration? StatementRow ClauseRow Body clauseOf)
open Unfolding

/-! ### Statements that declare constants -/

namespace Ast

def Form.isMatch : Form → Bool
  | .matchOf => true
  | _ => false

namespace Node

/-- A statement that declares a constant, with the function that it belongs to. -/
def letOf (g n : Node) : List (Node × Node) := if n.form.constant?.isSome then [(g, n)] else []

mutual

/-- The statements below a node of a function that declare constants, in order. -/
def letsIn (g : Node) : Node → List (Node × Node)
  | .mk form origin parts => letsAll (if form.isFunction then .mk form origin parts else g) parts

/-- The statements among several nodes of a function and below them that declare constants. -/
def letsAll (g : Node) : List Node → List (Node × Node)
  | [] => []
  | n :: ns => letOf g n ++ letsIn g n ++ letsAll g ns

end

def takesMatch (n : Node) : Bool := n.parts.head?.any (·.form.isMatch)

def letKey (p : Node × Node) : LetKey where
  function := p.1.origin
  origin := p.2.origin
  name := p.2.form.constant?
  starts := p.2.takesMatch
  fills := p.2.takesMatch

theorem letsAll_eq_flatMap {g : Node} {ns : List Node} (h : ∀ n ∈ ns, n.form.constant? = none) :
    letsAll g ns = ns.flatMap (letsIn g) := by
  induction ns with
  | nil => rw [letsAll, flatMap_nil]
  | cons n ns ih =>
    obtain ⟨hn, hns⟩ := forall_mem_cons.mp h
    rw [letsAll, letOf, hn, ih hns, flatMap_cons]
    rfl

end Node

end Ast

/-! ### What lowering makes of them -/

namespace Lower

open Ast (Trim)
open Ast.Node (letOf letsIn letsAll letKey takesMatch letsAll_eq_flatMap)

section
variable {n : Node} {u : Unfolding}

theorem origin_of_lowered (h : IsLowered n u) : u.origin = n.origin := by
  obtain ⟨_, _, h⟩ := h
  cases h <;> rfl

theorem constant?_of_declaration? {form : Form} {x : String} {d : Declaration}
    (h : declaration? form = some (x, d)) (c : ElementId) :
    (Kind.assignment x (some d) c none false).constant? = form.constant? := by
  cases form <;> cases h <;> rfl

theorem constant?_of_lowered (h : IsLowered n u) : u.kind.constant? = n.form.constant? := by
  obtain ⟨_, _, h⟩ := h
  cases h with
  | declaration hform => exact constant?_of_declaration? hform _
  | @alternatives _ _ _ _ form arm _ _ _ _ harm => cases form <;> cases harm <;> rfl
  | @leaf _ _ _ form k _ hleaf => cases form <;> cases hleaf <;> rfl
  | _ => rfl

theorem inits_of_plain {i : ElementId} {k : Kind} {o : Origin} {us : List Unfolding} (hk : branches k us = none)
    (hinit : k.initialized? = none) : ∀ q ∈ inits (.node i k o us), q = none := by
  rw [inits_of_branches_eq_none hk, hinit]
  exact forall_mem_singleton.mpr rfl

theorem inits_of_lowered (h : IsLowered n u) : ∀ q ∈ u.inits, q = none := by
  induction n using Ast.Node.induct₂ generalizing u with
  | mk form origin parts ih ih' =>
    obtain ⟨_, _, h⟩ := h
    cases h with
    | @block _ _ i _ _ us hrow =>
      cases hrow with
      | nil => exact inits_of_plain rfl rfl
      | @one _ _ _ _ u _ us _ hlowered hrest =>
        cases us with
        | nil =>
          rw [inits_of_branches rfl, flatMap_singleton]
          exact ih _ (.head _) ⟨_, _, hlowered⟩
        | cons => exact inits_of_plain rfl rfl
      | two => exact inits_of_plain rfl rfl
    | @conditionalElse _ _ _ _ _ _ _ _ _ _ _ _ _ _ haction hother =>
      rw [inits_of_branches rfl, flatMap_cons, flatMap_singleton]
      exact forall_mem_append.mpr ⟨ih _ (by simp) ⟨_, _, haction⟩, ih _ (by simp) ⟨_, _, hother⟩⟩
    | @alternatives _ _ _ _ form arm _ _ us f harm hrow hclauses =>
      cases arm with
      | value => exact inits_of_plain rfl rfl
      | statement =>
        have haction {u : Unfolding} (hu : ∃ n ∈ parts, ∃ part ∈ n.parts, IsLowered part u) :
            ∀ q ∈ u.inits, q = none := by
          obtain ⟨n, hn, part, hpart, hlowered⟩ := hu
          exact ih' n hn part hpart hlowered
        obtain ⟨hpairs, hfallback⟩ := hrow.exists_part
        have harms : ∀ u ∈ us ++ [f], ∀ q ∈ u.inits, q = none := by
          refine forall_mem_append.mpr ⟨fun u hu => ?_, ?_⟩
          · obtain ⟨p, hp, heq⟩ := exists_of_mem_right hclauses hu
            rw [heq, clauseOf, inits_of_branches rfl, flatMap_singleton]
            exact haction (hpairs p hp _ (.tail _ (.head _)))
          · exact forall_mem_singleton.mpr (haction (hfallback f rfl))
        intro q hq
        rw [inits_of_branches rfl] at hq
        obtain ⟨u, hu, hq⟩ := mem_flatMap.mp hq
        exact harms u hu q hq
    | @leaf _ _ _ form k _ hleaf => cases form <;> cases hleaf <;> exact inits_of_plain rfl rfl
    | _ => exact inits_of_plain rfl rfl

end

/-! ### Keys -/

/-- What an element tells about the constants declared below it is what the syntax tells. -/
def Tells (n : Node) (u : Unfolding) : Prop :=
  ∀ (f : Unfolding) (g : Node), f.origin = g.origin → keysIn f u = (letsIn g n).map letKey

section
variable {f u b : Unfolding} {g n body : Node} {i : ElementId} {k : Kind} {form : Form} {o o' : Origin}
  {ns : List Node} {us : List Unfolding} {m m' : Names}

theorem keysIn_singleton (hk : Role.function.accepts k = false) (hu : u.kind.constant? = none) :
    keysIn f (.node i k o [u]) = keysIn f u := by
  rw [keysIn_eq_flatMap hk (forall_mem_singleton.mpr hu), flatMap_singleton]

theorem letsAll_singleton (hn : n.form.constant? = none) : letsAll g [n] = letsIn g n := by
  rw [letsAll_eq_flatMap (forall_mem_singleton.mpr hn), flatMap_singleton]

theorem letsIn_of_not_function (hform : form.isFunction = false) :
    letsIn g (.mk form o ns) = letsAll g ns := by
  rw [letsIn, hform]
  rfl

theorem tells_of_parts (hk : Role.function.accepts k = false) (hform : form.isFunction = false)
    (hns : ∀ n ∈ ns, n.form.constant? = none)
    (h : Forall₂ (fun n u => u.kind.constant? = n.form.constant? ∧ Tells n u) ns us) :
    Tells (.mk form o ns) (.node i k o' us) := by
  intro f g hf
  have hus : ∀ u ∈ us, u.kind.constant? = none := by
    intro u hu
    obtain ⟨n, hn, hconstant, -⟩ := exists_of_mem_right h hu
    exact hconstant.trans (hns n hn)
  rw [keysIn_eq_flatMap hk hus, letsIn_of_not_function hform, letsAll_eq_flatMap hns, map_flatMap]
  clear hus hns
  induction h with
  | nil => rfl
  | cons hn _ ih => rw [flatMap_cons, flatMap_cons, hn.2 f g hf, ih]

theorem Body.tells (h : Body Lowered body m b m') (hbody : body.form.constant? = none)
    (ih : ∀ u, IsLowered body u → Tells body u) : b.kind.constant? = none ∧ Tells body b := by
  cases h with
  | block hlowered =>
    have hlowered : IsLowered _ _ := ⟨_, _, hlowered⟩
    exact ⟨(constant?_of_lowered hlowered).trans hbody, ih _ hlowered⟩
  | value _ hlowered =>
    have hlowered : IsLowered _ _ := ⟨_, _, hlowered⟩
    refine ⟨rfl, fun f g hf => ?_⟩
    rw [keysIn_singleton rfl rfl, keysIn_singleton rfl ((constant?_of_lowered hlowered).trans hbody)]
    exact ih _ hlowered f g hf

theorem keysIn_function {name : String} {params : List String} {x : ElementId} {isClosure : Bool}
    {captures : List String} (hbody : body.form.constant? = none) (hb : b.kind.constant? = none)
    (h : Tells body b) (hform : form.isFunction = true) :
    keysIn f (.node i (.function name params x isClosure captures) o [b]) =
      (letsIn g (.mk form o [body])).map letKey := by
  have hnode := letSitesAll_eq_flatMap (f := .node i (.function name params x isClosure captures) o [b])
    (forall_mem_singleton.mpr hb)
  rw [flatMap_singleton] at hnode
  rw [keysIn, letSitesIn, if_pos (by rfl), hnode, letsIn, hform, if_pos (by rfl), letsAll_singleton hbody]
  exact h _ _ rfl

theorem StatementRow.inits_head (h : StatementRow Lowered m ns us m') :
    ∀ u ∈ us.head?, ∀ q ∈ u.inits, q = none := by
  cases h with
  | nil => nofun
  | one _ hlowered =>
    rintro _ ⟨⟩
    exact inits_of_lowered ⟨_, _, hlowered⟩
  | two =>
    rintro _ ⟨⟩
    exact inits_of_plain rfl rfl

theorem key_letSite {next : Option Unfolding} (h : IsLowered n u) (hnext : ∀ v ∈ next, ∀ q ∈ v.inits, q = none)
    (hvalue : ∀ p, declaration? n.form = some p → ∀ value ∈ n.parts.head?, value.form ≠ .matchOf)
    (hf : f.origin = g.origin) : (letSite f u next).map LetSite.key = (letOf g n).map letKey := by
  rw [letSite, letOf, constant?_of_lowered h]
  cases hx : n.form.constant? with
  | none => rfl
  | some x =>
    have hform : declaration? n.form = some (x, .constant) := by
      generalize n.form = form at hx
      cases form <;> cases hx
      rfl
    have hmatch : n.takesMatch = false := by
      rw [takesMatch]
      cases hhead : n.parts.head? with
      | none => rfl
      | some value =>
        have hne := hvalue _ hform value hhead
        rw [any_some]
        generalize value.form = form at hne
        cases form <;> first | rfl | exact absurd rfl hne
    have hstarts : next.any (·.starts x) = false := by
      cases next with
      | none => rfl
      | some v =>
        rw [any_some, starts, contains_eq_mem, decide_eq_false_iff_not]
        intro hm
        cases hnext v rfl _ hm
    have hfills : next.any (·.fills x) = false := by
      cases next with
      | none => rfl
      | some v =>
        rw [any_some] at hstarts
        rw [any_some, fills, hstarts, Bool.false_and]
    simp only [isSome_some, if_true, map_singleton, LetSite.key, letKey, constant?_of_lowered h, hx, hf,
      origin_of_lowered h, hmatch, hstarts, hfills, any_some]

theorem key_letSite_of_match {x : String} {d : Declaration} {j c : ElementId} {value : Node}
    {rest : List Node} {v : Unfolding} {vs : List Unfolding} (hform : declaration? form = some (x, d))
    (hmatch : value.form = .matchOf) (hf : f.origin = g.origin) :
    (letSite f (.node i (.assignment x (some d) c none false) o vs)
        (some (.node j (.assignment x none v.id none true) o [v]))).map LetSite.key =
      (letOf g (.mk form o (value :: rest))).map letKey := by
  have hinits : inits (.node j (.assignment x none v.id none true) o [v]) = [some x] := inits_of_branches_eq_none rfl j o
  have htakes : takesMatch (.mk form o (value :: rest)) = true := by
    simp only [takesMatch, Node.parts, head?_cons, any_some, hmatch, Form.isMatch]
  have hstarts : starts x (.node j (.assignment x none v.id none true) o [v]) = true := by
    rw [starts, hinits, contains_eq_mem, decide_eq_true_iff]
    exact .head _
  have hfills : fills x (.node j (.assignment x none v.id none true) o [v]) = true := by
    rw [fills, hstarts, hinits]
    simp
  have hconstant : (Unfolding.node i (.assignment x (some d) c none false) o vs).kind.constant? = form.constant? :=
    constant?_of_declaration? hform c
  have hform' : (Node.mk form o (value :: rest)).form = form := rfl
  rw [letSite, letOf, hconstant, hform']
  cases form <;> cases hform
  · simp only [Form.constant?, isSome_some, if_true, map_singleton, LetSite.key, letKey, hconstant, hf,
      htakes, hstarts, hfills, any_some, Node.form]
    rfl
  · rfl

theorem StatementRow.keys (h : StatementRow Lowered m ns us m') (hns : ∀ n ∈ ns, Trim n)
    (ih : ∀ n ∈ ns, ∀ u, IsLowered n u → Tells n u)
    (ih' : ∀ n ∈ ns, ∀ part ∈ n.parts, ∀ u, IsLowered part u → Tells part u) (hf : f.origin = g.origin) :
    (letSitesAll f us).map LetSite.key = (letsAll g ns).map letKey := by
  induction h with
  | nil => rfl
  | @one _ _ _ n u ns us hvalue hlowered hrest ihrest =>
    obtain ⟨-, hns⟩ := forall_mem_cons.mp hns
    obtain ⟨hu, ih⟩ := forall_mem_cons.mp ih
    obtain ⟨-, ih'⟩ := forall_mem_cons.mp ih'
    have hkeys : (letSitesIn f u).map LetSite.key = (letsIn g n).map letKey := hu u ⟨_, _, hlowered⟩ f g hf
    rw [letSitesAll, letsAll, map_append, map_append, map_append, map_append,
      key_letSite ⟨_, _, hlowered⟩ hrest.inits_head hvalue hf, hkeys, ihrest hns ih ih']
  | @two _ _ _ i j c form x d o value rest ns v us hform hmatch hlowered hrest ihrest =>
    have hlowered : IsLowered value v := ⟨_, _, hlowered⟩
    obtain ⟨hn, hns'⟩ := forall_mem_cons.mp hns
    obtain ⟨-, ih0⟩ := forall_mem_cons.mp ih
    obtain ⟨hv, ih1⟩ := forall_mem_cons.mp ih'
    obtain rfl := hn.rest_eq_nil [value] (by cases form <;> cases hform <;> rfl)
    have hvalue : value.form.constant? = none := by rw [hmatch]; rfl
    have hfunction : form.isFunction = false := by cases form <;> cases hform <;> rfl
    have hnull : letSitesIn f (.node i (.assignment x (some d) c none false) o [.node c (.constant .null) o []]) = [] :=
      rfl
    have hkeys : (letSitesIn f (.node j (.assignment x none v.id none true) o [v])).map LetSite.key =
        (letsIn g (.mk form o [value])).map letKey := by
      rw [letsIn_of_not_function hfunction, letsAll_singleton hvalue]
      refine (keysIn_singleton rfl ((constant?_of_lowered hlowered).trans hvalue)).trans ?_
      exact hv value (.head _) v hlowered f g hf
    rw [letSitesAll, letSitesAll, letsAll, hnull, letSite_of_constant? (u := .node j _ o [v]) rfl, head?_cons,
      append_nil, nil_append, map_append, map_append, map_append, map_append, hkeys,
      key_letSite_of_match hform hmatch hf, ihrest hns' ih0 ih1, append_assoc]

theorem ClauseRow.constant? {ps : List (Unfolding × Unfolding)} {fallback : Option Unfolding}
    (h : ClauseRow Lowered m ns ps fallback m') (hns : ∀ n ∈ ns, Trim n) :
    (∀ p ∈ ps, ∀ u ∈ [p.1, p.2], u.kind.constant? = none) ∧ ∀ u ∈ fallback, u.kind.constant? = none := by
  induction h with
  | nil => exact ⟨nofun, nofun⟩
  | @clause _ _ _ _ o condition action rest ns c a ps fallback hcondition haction _ ih =>
    obtain ⟨⟨_, hconstants, -, -⟩, hns⟩ := forall_mem_cons.mp hns
    have hparts := hconstants.resolve_left nofun
    refine ⟨forall_mem_cons.mpr ⟨forall_mem_cons.mpr ⟨?_, forall_mem_singleton.mpr ?_⟩, (ih hns).1⟩,
      (ih hns).2⟩
    · exact (constant?_of_lowered ⟨_, _, hcondition⟩).trans (hparts condition (by simp))
    · exact (constant?_of_lowered ⟨_, _, haction⟩).trans (hparts action (by simp))
  | @fallback _ _ _ o action rest ns a ps haction _ ih =>
    obtain ⟨⟨_, hconstants, -, -⟩, hns⟩ := forall_mem_cons.mp hns
    refine ⟨(ih hns).1, ?_⟩
    rintro _ ⟨⟩
    exact (constant?_of_lowered ⟨_, _, haction⟩).trans (hconstants.resolve_left nofun action (by simp))

end

theorem tells_of_lowered {n : Node} {u : Unfolding} (hn : Trim n) (h : IsLowered n u) : Tells n u := by
  induction n using Ast.Node.induct₂ generalizing u with
  | mk form origin parts ih ih' =>
    have htiled := tiled_of_lowered hn h
    obtain ⟨hmost, hconstants, hlast, hparts⟩ := hn
    have hpart {n : Node} {u : Unfolding} (hm : n ∈ parts) (hlowered : IsLowered n u) :
        u.kind.constant? = n.form.constant? ∧ Tells n u :=
      ⟨constant?_of_lowered hlowered, ih n hm (hparts n hm) hlowered⟩
    have hinner : ∀ n ∈ parts, ∀ part ∈ n.parts, ∀ u, IsLowered part u → Tells part u := by
      intro n hm part hpart u hlowered
      cases hparts n hm with
      | mk _ _ _ htrim => exact ih' _ hm part hpart (htrim part hpart) hlowered
    have hparts' : form ≠ .block → ∀ n ∈ parts, n.form.constant? = none := hconstants.resolve_left
    cases htiled with
    | parts hform hblock hkind _ hrow =>
      exact tells_of_parts hkind hform (hparts' hblock)
        (((forall₂_and_left _ _).mpr ⟨fun n hm => hm, hrow⟩).imp fun n u h => hpart h.1 h.2)
    | @function _ _ _ _ body _ _ _ hbody =>
      have hm := mem_singleton_self body
      obtain ⟨hb, htells⟩ := hbody.tells (hparts' (by simp) body hm) fun u hu => (hpart hm hu).2
      exact fun f g _ => keysIn_function (hparts' (by simp) body hm) hb htells rfl
    | @closure _ _ _ _ _ body _ _ _ hbody =>
      have hm := mem_singleton_self body
      obtain ⟨hb, htells⟩ := hbody.tells (hparts' (by simp) body hm) fun u hu => (hpart hm hu).2
      intro f g _
      rw [keysIn_singleton rfl rfl]
      exact keysIn_function (hparts' (by simp) body hm) hb htells rfl
    | block hrow =>
      intro f g hf
      rw [keysIn, letSitesIn_of_not_function rfl, letsIn_of_not_function rfl]
      exact hrow.keys hparts (fun n hm u hu => (hpart hm hu).2) hinner hf
    | @alternatives _ _ _ arm _ ps us fallback _ _ harm hrow hclauses =>
      have hform : form.isFunction = false ∧ form ≠ .block := by
        cases form <;> cases harm <;> exact ⟨rfl, by simp⟩
      have hkind : Role.function.accepts (arm.construct (us.map Unfolding.id) fallback.id) = false := by
        cases arm <;> rfl
      obtain ⟨hpairs, hfallback⟩ := hrow.constant? hparts
      have hconstant : ∀ u ∈ us ++ [fallback], u.kind.constant? = none := by
        refine forall_mem_append.mpr ⟨fun u hu => ?_, forall_mem_singleton.mpr (hfallback _ rfl)⟩
        obtain ⟨p, -, heq⟩ := exists_of_mem_right hclauses hu
        rw [heq]
        rfl
      intro f g hf
      have hkeys := hrow.flatMap_eq (F := keysIn f) (G := fun n => (letsIn g n).map letKey) hclauses hparts hlast
        (fun p hp i => ?_) (fun n hm hform => ?_) fun n hm part hp u hu => hinner n hm part hp u hu f g hf
      · rw [keysIn_eq_flatMap hkind hconstant, flatMap_append, letsIn_of_not_function hform.1,
          letsAll_eq_flatMap (hparts' hform.2), map_flatMap]
        exact hkeys
      · rw [clauseOf, keysIn_eq_flatMap rfl (hpairs p hp), flatMap_cons, flatMap_singleton]
      · cases hparts n hm with
        | @mk form' o parts' _ hconstants' _ _ =>
          have hform' : form'.isFunction = false ∧ form' ≠ .block := by
            rcases hform with rfl | rfl <;> exact ⟨rfl, by simp⟩
          rw [letsIn_of_not_function hform'.1, letsAll_eq_flatMap (hconstants'.resolve_left hform'.2),
            map_flatMap]
          rfl

end Lower

end Clausal
