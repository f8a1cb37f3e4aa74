import Clausal.Proofs.Lowering.Pictures

/-! # Syntax that is used up

Syntax may have parts that lowering ignores, and a fallback in front of clauses.  What is parsed has neither
(`Ast.Trim`).  The parts of an element are then what the parts of its syntax become, one for one and in order, but
for functions, blocks, cases and matches (`Lower.Tiled`). -/

namespace Clausal

open List

open Ast (Form Node Fills fallbackPart)

namespace Ast

def Form.constant? : Form → Option String
  | .letDecl x => some x
  | _ => none

def Form.isFunction : Form → Bool
  | .function .. | .closure .. => true
  | _ => false

def Form.most? : Form → Option Nat
  | .block | .caseOf | .matchOf | .call _ => none
  | .conditional => some 3
  | .loop | .whenClause | .binary _ => some 2
  | .function .. | .letDecl _ | .varDecl _ | .assign _ | .returns | .otherwise | .unary _ | .closure _ => some 1
  | _ => some 0

/-- No part is ignored, a fallback comes last, and constants are declared in blocks. -/
inductive Trim : Node → Prop
  | mk {form origin parts} : (∀ k ∈ form.most?, parts.length ≤ k) →
      (form = .block ∨ ∀ n ∈ parts, n.form.constant? = none) → (∀ n ∈ parts.dropLast, n.form ≠ .otherwise) →
      (∀ n ∈ parts, Trim n) → Trim (.mk form origin parts)

section
variable {role : Role} {n : Node} {form : Form} {origin : Origin} {parts : List Node}

theorem Trim.rest_eq_nil (used : List Node) {rest : List Node} (h : Trim (.mk form origin (used ++ rest)))
    (hform : form.most? = some used.length) : rest = [] := by
  obtain ⟨hmost, -, -, -⟩ := h
  have hlength := hmost _ hform
  rw [length_append] at hlength
  exact eq_nil_of_length_eq_zero (by omega)

theorem constant?_of_fills (h : Fills role n) (hrole : role ≠ .statement) : n.form.constant? = none := by
  cases h with
  | elseBlock h => rw [Lower.form_of_fills_block h]; rfl
  | elseIf hform => rw [hform]; rfl
  | letDecl => exact absurd rfl hrole
  | expression => exact absurd rfl hrole
  | _ => rfl

theorem form_ne_otherwise (h : Fills role n) : n.form ≠ .otherwise := by
  induction h with
  | elseBlock _ ih | elseIf _ _ ih | expression _ ih => exact ih
  | _ => nofun

theorem Trim.of_fills (hmost : ∀ k ∈ form.most?, parts.length ≤ k)
    (h : ∀ n ∈ parts, Trim n ∧ ∃ role, Fills role n ∧ role ≠ .statement) : Trim (.mk form origin parts) := by
  refine .mk hmost (.inr fun n hn => ?_) (fun n hn => ?_) fun n hn => (h n hn).1
  · obtain ⟨-, role, hfills, hrole⟩ := h n hn
    exact constant?_of_fills hfills hrole
  · obtain ⟨-, role, hfills, -⟩ := h n (mem_of_mem_dropLast hn)
    exact form_ne_otherwise hfills

theorem Trim.of_alternatives {arm : Arm} {clauses : List Node} {fallback : Option (Origin × Node)}
    (hmost : form.most? = none) (hclauses : ∀ n ∈ clauses, Trim n ∧ Fills (.clause arm) n)
    (hfallback : ∀ p ∈ fallback, Trim p.2 ∧ Fills arm.actionRole p.2) :
    Trim (.mk form origin (clauses ++ fallbackPart fallback)) := by
  have hforms : ∀ n ∈ clauses, n.form = .whenClause := fun n hn => Lower.form_of_fills_clause (hclauses n hn).2
  have hconstant : ∀ n ∈ clauses, n.form.constant? = none := fun n hn => by rw [hforms n hn]; rfl
  have hotherwise : ∀ n ∈ clauses, n.form ≠ .otherwise := fun n hn => by rw [hforms n hn]; simp
  have hmost' (parts : List Node) : ∀ k ∈ form.most?, parts.length ≤ k := by
    rw [hmost]
    simp
  cases fallback with
  | none =>
    rw [fallbackPart, Option.toList_none, map_nil, append_nil]
    exact .mk (hmost' _) (.inr hconstant) (fun n hn => hotherwise n (mem_of_mem_dropLast hn))
      fun n hn => (hclauses n hn).1
  | some p =>
    obtain ⟨htrim, hfills⟩ := hfallback p rfl
    have hlast : Trim (.mk .otherwise p.1 [p.2]) := by
      refine .of_fills (by simp [Form.most?]) (forall_mem_singleton.mpr ⟨htrim, _, hfills, ?_⟩)
      cases arm <;> simp [Arm.actionRole]
    rw [fallbackPart, Option.toList_some, map_singleton]
    refine .mk (hmost' _) (.inr ?_) ?_ ?_
    · exact forall_mem_append.mpr ⟨hconstant, forall_mem_singleton.mpr rfl⟩
    · rw [dropLast_concat]
      exact hotherwise
    · exact forall_mem_append.mpr ⟨fun n hn => (hclauses n hn).1, forall_mem_singleton.mpr hlast⟩

theorem trim_of_fills (h : Fills role n) : Trim n := by
  induction h with
  | function hpart ih | letDecl hpart ih | varDecl hpart ih | assign hpart ih | unary _ hpart ih =>
    exact .of_fills (by simp [Form.most?]) (by simpa using ⟨ih, _, hpart, nofun⟩)
  | block hstatements ih =>
    exact .mk nofun (.inl rfl) (fun n hn => form_ne_otherwise (hstatements n (mem_of_mem_dropLast hn))) ih
  | @returns _ value hvalue ih =>
    refine .of_fills ?_ fun n hn => ?_
    · cases value <;> simp [Form.most?]
    · have hm := Option.mem_toList.mp hn
      exact ⟨ih n hm, _, hvalue n hm, nofun⟩
  | @conditional _ condition action other hcondition haction hother ihcondition ihaction ihother =>
    refine .of_fills ?_ fun n hn => ?_
    · cases other <;> simp [Form.most?]
    · simp only [mem_cons, Option.mem_toList] at hn
      rcases hn with rfl | rfl | hm
      · exact ⟨ihcondition, _, hcondition, nofun⟩
      · exact ⟨ihaction, _, haction, nofun⟩
      · exact ⟨ihother n hm, _, hother n hm, nofun⟩
  | loop hleft hright ih ih' | binary _ hleft hright ih ih' =>
    exact .of_fills (by simp [Form.most?]) (by simpa using ⟨⟨ih, _, hleft, nofun⟩, ih', _, hright, nofun⟩)
  | caseOf hclauses hfallback ih ih' | matchOf hclauses hfallback ih ih' =>
    exact .of_alternatives rfl (fun n hn => ⟨ih n hn, hclauses n hn⟩) fun p hp => ⟨ih' p hp, hfallback p hp⟩
  | @whenClause _ arm _ _ hcondition haction ih ih' =>
    have harm : arm.actionRole ≠ .statement := by cases arm <;> nofun
    exact .of_fills (by simp [Form.most?]) (by simpa using ⟨⟨ih, _, hcondition, nofun⟩, ih', _, haction, harm⟩)
  | elseBlock _ ih | elseIf _ _ ih | expression _ ih => exact ih
  | call harguments ih => exact .of_fills nofun fun n hn => ⟨ih n hn, _, harguments n hn, nofun⟩
  | closure hrole hbody ih =>
    refine .of_fills (by simp [Form.most?]) (forall_mem_singleton.mpr ⟨ih, _, hbody, ?_⟩)
    rcases hrole with rfl | rfl <;> nofun
  | _ => exact .of_fills (by simp [Form.most?]) (forall_mem_nil _)

end

end Ast

/-! ### Parts of elements and parts of syntax -/

namespace Lower

open Ast (Trim)

/-- What a node becomes, if none of its parts are ignored. -/
inductive Tiled : Node → Unfolding → Prop
  | parts {i k form o ns us} : form.isFunction = false → form ≠ .block → Role.function.accepts k = false →
      (form.leaf? = some k ∨ form.leaf? = none ∧ ∀ v, k ≠ .constant v) → Forall₂ IsLowered ns us →
      Tiled (.mk form o ns) (.node i k o us)
  | function {i o name params body b m m'} : Body Lowered body m b m' →
      Tiled (.mk (.function name params) o [body]) (.node i (.function name params b.id false []) o [b])
  | closure {i j o name params body b m m'} : Body Lowered body m b m' →
      Tiled (.mk (.closure params) o [body])
        (.node i (.closure j []) o [.node j (.function name params b.id true []) o [b]])
  | block {i o ns us m m'} :
      StatementRow Lowered m ns us m' → Tiled (.mk .block o ns) (.node i (.block (us.map Unfolding.id)) o us)
  | alternatives {i o form arm ns ps us f m m'} :
      form.arm? = some arm → ClauseRow Lowered m ns ps (some f) m' → Forall₂ (fun p u => u = clauseOf arm p u.id) ps us →
      Tiled (.mk form o ns) (.node i (arm.construct (us.map Unfolding.id) f.id) o (us ++ [f]))

theorem tiled_of_lowered {n : Node} {u : Unfolding} (hn : Trim n) (h : IsLowered n u) : Tiled n u := by
  obtain ⟨m, m', h⟩ := h
  cases h with
  | @function _ _ _ _ _ _ body _ _ hbody =>
    obtain rfl := hn.rest_eq_nil [body] rfl
    exact .function hbody
  | block hrow => exact .block hrow
  | @declaration _ _ _ _ form _ _ value _ _ hform hvalue =>
    obtain rfl := hn.rest_eq_nil [value] (by cases form <;> cases hform <;> rfl)
    refine .parts ?_ ?_ rfl (.inr ⟨?_, nofun⟩) (.cons ⟨_, _, hvalue⟩ .nil) <;>
      cases form <;> cases hform <;> first | rfl | nofun
  | returnsNothing => exact .parts rfl nofun rfl (.inr ⟨rfl, nofun⟩) .nil
  | @assign _ _ _ _ _ value _ _ hvalue | @returns _ _ _ _ value _ _ hvalue
  | @unary _ _ _ _ _ _ value _ _ _ hvalue =>
    obtain rfl := hn.rest_eq_nil [value] rfl
    exact .parts rfl nofun rfl (.inr ⟨rfl, nofun⟩) (.cons ⟨_, _, hvalue⟩ .nil)
  | conditional hcondition haction =>
    exact .parts rfl nofun rfl (.inr ⟨rfl, nofun⟩) (.cons ⟨_, _, hcondition⟩ (.cons ⟨_, _, haction⟩ .nil))
  | @conditionalElse _ _ _ _ _ _ condition action other _ _ _ _ hcondition haction hother =>
    obtain rfl := hn.rest_eq_nil [condition, action, other] rfl
    exact .parts rfl nofun rfl (.inr ⟨rfl, nofun⟩)
      (.cons ⟨_, _, hcondition⟩ (.cons ⟨_, _, haction⟩ (.cons ⟨_, _, hother⟩ .nil)))
  | alternatives harm hrow hclauses => exact .alternatives harm hrow hclauses
  | @loop _ _ _ _ _ left right _ _ _ hleft hright | @binary _ _ _ _ _ _ _ left right _ _ _ _ hleft hright =>
    obtain rfl := hn.rest_eq_nil [left, right] rfl
    exact .parts rfl nofun rfl (.inr ⟨rfl, nofun⟩) (.cons ⟨_, _, hleft⟩ (.cons ⟨_, _, hright⟩ .nil))
  | call harguments => exact .parts rfl nofun rfl (.inr ⟨rfl, nofun⟩) harguments.isLowered
  | @closure _ _ _ _ _ _ body _ _ hbody =>
    obtain rfl := hn.rest_eq_nil [body] rfl
    exact .closure hbody
  | @leaf _ _ _ form k ns hleaf =>
    obtain rfl := hn.rest_eq_nil [] (by cases form <;> cases hleaf <;> rfl)
    refine .parts ?_ ?_ ?_ (.inl hleaf) .nil <;> cases form <;> cases hleaf <;> first | rfl | nofun

/-- What is collected from the clauses and the fallback of a case or a match is collected from the parts of its syntax,
if that is so for conditions and actions. -/
theorem ClauseRow.flatMap_eq {γ : Type} {F : Unfolding → List γ} {G : Node → List γ} {arm : Arm} {ns : List Node}
    {ps : List (Unfolding × Unfolding)} {us : List Unfolding} {fallback : Option Unfolding}
    {m m' : Names} (h : ClauseRow Lowered m ns ps fallback m')
    (hclauses : Forall₂ (fun p u => u = clauseOf arm p u.id) ps us)
    (hns : ∀ n ∈ ns, Trim n) (hlast : ∀ n ∈ ns.dropLast, n.form ≠ .otherwise)
    (hF : ∀ p ∈ ps, ∀ i, F (clauseOf arm p i) = F p.1 ++ F p.2)
    (hG : ∀ n ∈ ns, n.form = .whenClause ∨ n.form = .otherwise → G n = n.parts.flatMap G)
    (ih : ∀ n ∈ ns, ∀ part ∈ n.parts, ∀ u, IsLowered part u → F u = G part) :
    us.flatMap F ++ fallback.toList.flatMap F = ns.flatMap G := by
  induction h generalizing us with
  | nil =>
    cases hclauses
    rfl
  | @clause _ _ _ _ o condition action rest ns c a ps fallback hcondition haction _ ihrow =>
    obtain ⟨hn, hns'⟩ := forall_mem_cons.mp hns
    obtain ⟨hp, hF⟩ := forall_mem_cons.mp hF
    obtain ⟨hclause, hG'⟩ := forall_mem_cons.mp hG
    obtain ⟨hparts, ih'⟩ := forall_mem_cons.mp ih
    obtain rfl := hn.rest_eq_nil [condition, action] rfl
    have hlast' : ∀ n ∈ ns.dropLast, n.form ≠ .otherwise := by
      cases ns with
      | nil => nofun
      | cons => exact fun n hm => hlast n (.tail _ hm)
    cases hclauses with
    | cons hu hclauses =>
      rw [flatMap_cons, append_assoc, ihrow hclauses hns' hlast' hF hG' ih', flatMap_cons, hu, hp,
        hclause (.inl rfl), hparts condition (by simp [Node.parts]) c ⟨_, _, hcondition⟩,
        hparts action (by simp [Node.parts]) a ⟨_, _, haction⟩]
      simp [Node.parts]
  | @fallback _ _ _ o action rest ns a ps haction hrow _ =>
    obtain rfl : ns = [] := by
      cases ns with
      | nil => rfl
      | cons => exact absurd rfl (hlast _ (.head _))
    cases hrow
    cases hclauses
    have hm := mem_singleton_self (Node.mk .otherwise o (action :: rest))
    obtain rfl := (hns _ hm).rest_eq_nil [action] rfl
    have haction := ih _ hm action (.head _) a ⟨_, _, haction⟩
    have hparts := hG _ hm (.inr rfl)
    rw [flatMap_nil, nil_append, Option.toList_some, flatMap_singleton, flatMap_singleton, hparts,
      haction]
    exact (flatMap_singleton ..).symm

end Lower

end Clausal
