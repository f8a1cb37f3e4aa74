import Clausal.Proofs.Lowering.Tiling
import Clausal.Proofs.Tree.Marking

/-! # Literals become constants

The constants of an unfolding other than null, in order, are the literals of the syntax that it was lowered from
(`Lower.literals_of_lowered`).  Null is left out: lowering puts it where a declaration has no value yet. -/

namespace Clausal

open List

open Ast (Form Node Trim)
open Lower (Lowered IsLowered declaration? StatementRow ClauseRow Body clauseOf)

/-! ### Constants of syntax and of elements -/

def Value.literal? : Value → Option Value
  | .null => none
  | v => some v

def Kind.literal? : Kind → Option Value
  | .constant v => v.literal?
  | _ => none

def Ast.Form.literal? (form : Form) : Option Value := form.leaf?.bind Kind.literal?

def Ast.Node.literals (n : Node) : List Value := n.preorder.filterMap (·.form.literal?)

def Unfolding.literals (u : Unfolding) : List Value := u.preorder.filterMap (·.2.literal?)

theorem Ast.Node.literals_mk (form : Form) (o : Origin) (parts : List Node) :
    literals (.mk form o parts) = form.literal?.toList ++ parts.flatMap literals := by
  have hform : (mk form o parts).form.literal? = form.literal? := rfl
  rw [literals, preorder, preorderAll_eq_flatMap, filterMap_cons, filterMap_flatMap, hform]
  unfold literals
  cases form.literal? <;> rfl

theorem Unfolding.literals_node (i : ElementId) (k : Kind) (o : Origin) (us : List Unfolding) :
    literals (.node i k o us) = k.literal?.toList ++ us.flatMap literals := by
  rw [literals, preorder_node, filterMap_cons, filterMap_flatMap]
  unfold literals
  cases k.literal? <;> rfl

namespace Lower

open Unfolding (literals_node)
open Ast.Node (literals_mk)

section
variable {i : ElementId} {k : Kind} {form : Form} {o o' : Origin} {ns : List Node} {us : List Unfolding}
  {m m' : Names}

theorem literals_of_parts (hk : k.literal? = form.literal?)
    (h : Forall₂ (fun n u => Unfolding.literals u = Node.literals n) ns us) :
    (Unfolding.node i k o us).literals = (Node.mk form o' ns).literals := by
  rw [literals_node, literals_mk, hk, flatMap_eq_of_forall₂ h.flip]

theorem Body.literals_eq {body : Node} {b : Unfolding} (h : Body Lowered body m b m')
    (ih : ∀ u, IsLowered body u → u.literals = body.literals) : b.literals = body.literals := by
  cases h with
  | block hlowered => exact ih _ ⟨_, _, hlowered⟩
  | value _ hlowered =>
    rw [literals_node, flatMap_singleton, literals_node, flatMap_singleton, ih _ ⟨_, _, hlowered⟩]
    rfl

theorem StatementRow.literals_eq (h : StatementRow Lowered m ns us m') (hns : ∀ n ∈ ns, Trim n)
    (ih : ∀ n ∈ ns, ∀ u, IsLowered n u → u.literals = n.literals)
    (ih' : ∀ n ∈ ns, ∀ part ∈ n.parts, ∀ u, IsLowered part u → u.literals = part.literals) :
    us.flatMap Unfolding.literals = ns.flatMap Node.literals := by
  induction h with
  | nil => rfl
  | @one _ _ _ n u ns us _ hlowered _ ihrow =>
    obtain ⟨-, hns⟩ := forall_mem_cons.mp hns
    obtain ⟨hu, ih⟩ := forall_mem_cons.mp ih
    obtain ⟨-, ih'⟩ := forall_mem_cons.mp ih'
    rw [flatMap_cons, flatMap_cons, hu u ⟨_, _, hlowered⟩, ihrow hns ih ih']
  | @two _ _ _ i j c form x d o value rest ns v us hform _ hlowered _ ihrow =>
    obtain ⟨hn, hns'⟩ := forall_mem_cons.mp hns
    obtain ⟨-, ih0⟩ := forall_mem_cons.mp ih
    obtain ⟨hvalue, ih1⟩ := forall_mem_cons.mp ih'
    obtain rfl := hn.rest_eq_nil [value] (by cases form <;> cases hform <;> rfl)
    have hnone : form.literal? = none := by cases form <;> cases hform <;> rfl
    have hv := hvalue value (.head _) v ⟨_, _, hlowered⟩
    rw [flatMap_cons, flatMap_cons, flatMap_cons, ihrow hns' ih0 ih1, literals_node, literals_node,
      literals_mk, hnone, flatMap_singleton, flatMap_singleton, literals_node, hv]
    simp [Kind.literal?, Value.literal?]

end

theorem literals_of_lowered {n : Node} {u : Unfolding} (hn : Trim n) (h : IsLowered n u) : u.literals = n.literals := by
  induction n using Ast.Node.induct₂ generalizing u with
  | mk form origin parts ih ih' =>
    have htiled := tiled_of_lowered hn h
    obtain ⟨-, -, hlast, hparts⟩ := hn
    have hpart {n : Node} {u : Unfolding} (hm : n ∈ parts) (hlowered : IsLowered n u) : u.literals = n.literals :=
      ih n hm (hparts n hm) hlowered
    have hinner : ∀ n ∈ parts, ∀ part ∈ n.parts, ∀ u, IsLowered part u → u.literals = part.literals := by
      intro n hm part hpart u hlowered
      cases hparts n hm with
      | mk _ _ _ htrim => exact ih' _ hm part hpart (htrim part hpart) hlowered
    cases htiled with
    | @parts _ k _ _ _ _ _ _ _ hkind hrow =>
      have hliteral : k.literal? = form.literal? := by
        rw [Form.literal?]
        rcases hkind with hleaf | ⟨hleaf, hk⟩
        · rw [hleaf]
          rfl
        · rw [hleaf]
          cases k <;> first | rfl | exact absurd rfl (hk _)
      exact literals_of_parts hliteral
        (((forall₂_and_left _ _).mpr ⟨fun n hm => hm, hrow⟩).imp fun n u h => hpart h.1 h.2)
    | function hbody =>
      exact literals_of_parts rfl (.cons (hbody.literals_eq fun u hu => hpart (.head _) hu) .nil)
    | closure hbody =>
      rw [literals_node, flatMap_singleton, literals_node, flatMap_singleton, literals_mk,
        flatMap_singleton, hbody.literals_eq fun u hu => hpart (.head _) hu]
      rfl
    | block hrow =>
      rw [literals_node, literals_mk, hrow.literals_eq hparts (fun n hm u hu => hpart hm hu) hinner]
      rfl
    | @alternatives _ _ _ arm _ ps us fallback _ _ harm hrow hclauses =>
      have hform : form.literal? = none := by cases form <;> cases harm <;> rfl
      have hkind : (arm.construct (us.map Unfolding.id) fallback.id).literal? = none := by cases arm <;> rfl
      have hliterals := hrow.flatMap_eq (F := Unfolding.literals) (G := Node.literals) hclauses hparts hlast
        (fun p _ i => ?_) (fun n hm hwhen => ?_) hinner
      · rw [literals_node, literals_mk, hkind, hform, flatMap_append]
        exact congrArg _ hliterals
      · rw [clauseOf, literals_node, flatMap_cons, flatMap_singleton]
        rfl
      · cases n with
        | mk form' o parts' =>
          rw [literals_mk]
          rcases hwhen with rfl | rfl <;> rfl

end Lower

end Clausal
