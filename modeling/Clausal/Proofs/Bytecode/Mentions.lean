import Clausal.Proofs.Bytecode.Functions

/-! # What code mentions

Some operations mention a slot or a function: loads and stores, calls, and what makes a closure.  Each of them
comes from one element, which was bound to that slot or function, and they stand in the code in post-order of
the elements, without those of the functions below (`Unfolding.mentions`). -/

namespace Clausal

open List Unfolding

def Op.mentions : Op → Bool
  | load _ | store _ | call .. | callBuiltin .. | callClosure .. | makeClosure .. => true
  | _ => false

/-- The operation mentions something or holds a constant that is not null. -/
def Op.tells : Op → Bool
  | const .null => false
  | const _ => true
  | op => op.mentions

theorem Op.tells_of_mentions {op : Op} (h : op.mentions = true) : op.tells = true := by
  cases op <;> first | rfl | cases h

namespace Unfolding

/-- The operation of an element that was bound to a slot or a function. -/
def ownOps : Unfolding → List Op
  | .node _ (.assignment _ _ _ (some b) _) _ _ => [.store b.slot]
  | .node _ (.reference _ (some b)) _ _ => [.load b.slot]
  | .node _ (.invocation name arguments (some target)) _ _ =>
    [Generate.callOp name arguments.length target]
  | .node _ (.closure _ captured) _ (.node _ (.function name ..) _ _ :: _) =>
    [.makeClosure name (captured.map (·.slot))]
  | _ => []

/-- What is collected from an element and everything below, without functions. -/
def collectIn {α : Type} (f : Unfolding → List α → List α) : Unfolding → List α :=
  collect fun u below => if Role.function.accepts u.kind then [] else f u below

/-- The operations that mention something, for an element and everything below, without functions. -/
def mentions : Unfolding → List Op := collectIn fun u below => below ++ u.ownOps

/-- The operation of an element that was bound to a slot or a function, or that is a constant other than null. -/
def ownTold : Unfolding → List Op
  | .node _ (.constant .null) _ _ => []
  | .node _ (.constant v) _ _ => [.const v]
  | u => u.ownOps

/-- The operations that tell something, for an element and everything below, without functions. -/
def told : Unfolding → List Op := collectIn fun u below => below ++ u.ownTold

variable {i : ElementId} {k : Kind} (o : Origin) (us : List Unfolding)

theorem collectIn_of_function {α : Type} (f : Unfolding → List α → List α) (hk : Role.function.accepts k = true) :
    collectIn f (.node i k o us) = [] := by
  rw [collectIn, collect_node, Unfolding.kind, if_pos hk]

theorem collectIn_of_not_function {α : Type} (f : Unfolding → List α → List α) (hk : Role.function.accepts k = false) :
    collectIn f (.node i k o us) = f (.node i k o us) (us.flatMap (collectIn f)) := by
  rw [collectIn, collect_node, Unfolding.kind, if_neg (by simp [hk])]

theorem mentions_of_function (hk : Role.function.accepts k = true) : mentions (.node i k o us) = [] :=
  collectIn_of_function o us _ hk

theorem mentions_of_not_function (hk : Role.function.accepts k = false) :
    mentions (.node i k o us) = us.flatMap mentions ++ ownOps (.node i k o us) :=
  collectIn_of_not_function o us _ hk

theorem told_of_function (hk : Role.function.accepts k = true) : told (.node i k o us) = [] :=
  collectIn_of_function o us _ hk

theorem told_of_not_function (hk : Role.function.accepts k = false) :
    told (.node i k o us) = us.flatMap told ++ ownTold (.node i k o us) :=
  collectIn_of_not_function o us _ hk

theorem filter_ownTold (u : Unfolding) : u.ownTold.filter Op.mentions = u.ownOps := by
  obtain ⟨i, k, o, us⟩ := u
  cases k with
  | constant v => cases v <;> rfl
  | assignment name d x b f | reference name b => cases b <;> rfl
  | invocation name arguments target =>
    cases target with
    | none => rfl
    | some target => cases target <;> rfl
  | closure x captured =>
    rcases us with _ | ⟨⟨j, kf, of, vs⟩, us⟩
    · rfl
    · cases kf <;> rfl
  | _ => rfl

theorem filter_told (u : Unfolding) : u.told.filter Op.mentions = u.mentions := by
  induction u with
  | node i k o us ih =>
    cases hk : Role.function.accepts k with
    | true => rw [told_of_function _ _ hk, mentions_of_function _ _ hk, filter_nil]
    | false =>
      rw [told_of_not_function _ _ hk, mentions_of_not_function _ _ hk, filter_append, filter_flatMap,
        filter_ownTold, flatMap_congr ih]

theorem exists_within_of_mem_mentions {u : Unfolding} {op : Op} (h : op ∈ u.mentions) :
    ∃ v : Unfolding, v.Within u ∧ op ∈ v.ownOps := by
  induction u with
  | node i k o us ih =>
    cases hk : Role.function.accepts k with
    | true =>
      rw [mentions_of_function _ _ hk] at h
      cases h
    | false =>
      rw [mentions_of_not_function _ _ hk] at h
      rcases mem_append.mp h with h | h
      · obtain ⟨u, hu, h⟩ := mem_flatMap.mp h
        obtain ⟨v, hv, hop⟩ := ih u hu h
        exact ⟨v, .child hu hv, hop⟩
      · exact ⟨_, .here, h⟩

end Unfolding

namespace Generate

open Unfolding (mentions told ownOps ownTold)

theorem filter_callOp (name : String) (argc : Nat) (target : CallTarget) :
    [callOp name argc target].filter Op.tells = [callOp name argc target] := by
  cases target <;> rfl

theorem filter_strictOp {operator : BinaryOperator} {op : Op} (h : strictOp? operator = some op) :
    Op.tells op = false := by
  cases operator <;> cases h <;> rfl

theorem filter_shortcut (operator : BinaryOperator) (n : Nat) :
    [.dup, shortcut operator n, .pop].filter Op.tells = [] := by
  cases operator <;> rfl

theorem filter_closing {i : ElementId} {k : Kind} {ops : List Op} (h : closing? k = some ops) (o : Origin)
    (us : List Unfolding) : ops.filter Op.tells = ownTold (.node i k o us) := by
  cases k with
  | assignment _ _ _ b _ | reference _ b =>
    obtain ⟨b, rfl, rfl⟩ := Option.map_eq_some_iff.mp h
    rfl
  | binary operator _ _ =>
    obtain ⟨op, hop, rfl⟩ := Option.map_eq_some_iff.mp h
    simp [filter_strictOp hop, ownTold, ownOps]
  | invocation _ _ target =>
    obtain ⟨target, rfl, rfl⟩ := Option.map_eq_some_iff.mp h
    exact filter_callOp ..
  | returns x => cases x <;> cases h <;> rfl
  | constant v => cases h; cases v <;> rfl
  | unary operator => cases h; cases operator <;> rfl
  | module | whenClause => cases h; rfl
  | _ => cases h

theorem Emitted.told_eq {row : Row} {base : Nat} {us : List Unfolding} {e : Emission}
    (h : Emitted row base us e) : e.code.filter Op.tells = us.flatMap told := by
  induction h with
  | nil | done => rfl
  | cons _ _ ha hb => simpa [hb] using ha
  | @statement _ u _ a first _ _ _ hfirst _ ha hb =>
    have heq : first.code.filter Op.tells = a.code.filter Op.tells := by
      rw [hfirst]
      split_ifs <;> simp [Op.tells, Op.mentions]
    simpa [hb, heq] using ha
  | fallback _ _ ha => exact ha
  | function => rw [flatMap_singleton, Unfolding.told_of_function _ _ rfl, filter_nil]
  | block _ ih | caseOf _ ih | matchOf _ ih =>
    rw [flatMap_singleton, Unfolding.told_of_not_function _ _ rfl, ih]
    exact (append_nil _).symm
  | clause _ _ _ _ _ _ hc ha hr =>
    rw [flatMap_cons, Unfolding.told_of_not_function _ _ rfl, ← hr]
    simp [hc, ha, Op.tells, Op.mentions, ownTold, ownOps]
  | conditional _ _ _ _ _ _ _ hc ha hr =>
    rw [flatMap_singleton, Unfolding.told_of_not_function _ _ rfl]
    simp [hc, ha, hr, Op.tells, Op.mentions, ownTold, ownOps]
  | loop _ _ _ _ _ ha hb =>
    rw [flatMap_singleton, Unfolding.told_of_not_function _ _ rfl]
    simp [ha, hb, Op.tells, Op.mentions, ownTold, ownOps]
  | shortcut _ _ _ _ _ ha hb =>
    rw [flatMap_singleton, Unfolding.told_of_not_function _ _ rfl]
    simp only [Emission.code_append, Emission.code_ofOps, filter_append, filter_shortcut]
    simp [ha, hb, ownTold, ownOps]
  | closure hnone _ ih =>
    rw [flatMap_singleton, Unfolding.told_of_not_function _ _ rfl, ← ih, Emission.code_append, hnone]
    rfl
  | @closing _ _ k _ _ _ _ hk _ _ ih =>
    rw [flatMap_singleton, Unfolding.told_of_not_function _ _ (by cases k <;> first | rfl | cases hk),
      ← ih, ← filter_closing hk]
    simp

variable {f : Unfolding} {c : FunctionCode}

theorem Codes.told_eq (h : Codes f c) : c.code.filter Op.tells = f.children.flatMap told := by
  cases h with
  | @function _ _ _ _ _ _ _ body e hfits _ he =>
    have hcode : (e.code ++ [Op.const .null, .ret]).filter Op.tells = body.told := by
      rw [filter_append, (emitted hfits he).told_eq, flatMap_singleton]
      exact append_nil _
    exact hcode.trans (flatMap_singleton ..).symm

theorem Codes.mentions_eq (h : Codes f c) : c.code.filter Op.mentions = f.children.flatMap mentions := by
  have htold : (c.code.filter Op.tells).filter Op.mentions = c.code.filter Op.mentions := by
    rw [filter_filter]
    refine filter_congr fun op _ => ?_
    cases hop : op.mentions with
    | false => rfl
    | true => exact Op.tells_of_mentions hop
  rw [← htold, h.told_eq, filter_flatMap]
  exact flatMap_congr fun u _ => u.filter_told

end Generate

end Clausal
