import Clausal.Proofs.Bytecode.Functions
import Clausal.Proofs.Meaning.Machine
import Clausal.Proofs.Tree.Histories

/-! # Stack discipline

Each operation takes a number of values off the stack and leaves a number of values there (`Op.pops`,
`Op.pushes`), and goes on at the indices that `Op.next` lists. -/

namespace Clausal

open List Unfolding

namespace Op

def pops : Op → Nat
  | const _ | load _ | makeClosure .. | jump _ => 0
  | store _ | pop | brTrue _ | brFalse _ | not | neg | dup | ret => 1
  | call _ argc | callBuiltin _ argc | callClosure _ argc => argc
  | _ => 2

def pushes : Op → Nat
  | store _ | pop | brTrue _ | brFalse _ | jump _ | ret => 0
  | dup => 2
  | _ => 1

def next (index : Nat) : Op → List Nat
  | jump target => [target]
  | brTrue target | brFalse target => [index + 1, target]
  | ret => []
  | _ => [index + 1]

def isStraight : Op → Bool
  | jump _ | brTrue _ | brFalse _ | ret => false
  | _ => true

variable {op : Op}

theorem next_of_isStraight (h : op.isStraight = true) (n : Nat) : op.next n = [n + 1] := by
  cases op <;> first | rfl | cases h

theorem mem_next_of_branchTarget? {target : Nat} (h : op.branchTarget? = some target) (n : Nat) :
    target ∈ op.next n := by
  cases op <;> cases h <;> simp [next]

end Op

/-- One stack depth for each index of some code. -/
structure Depths (code : List Op) (depth : Nat → Nat) : Prop where
  start : depth 0 = 0
  enough : ∀ (n : Nat) (op : Op), code[n]? = some op → op.pops ≤ depth n
  leaves : ∀ (n : Nat) (op : Op), code[n]? = some op →
    ∀ m ∈ op.next n, depth m = depth n - op.pops + op.pushes
  ret : ∀ n : Nat, code[n]? = some .ret → depth n = 1

/-- Code that keeps stack discipline. -/
structure Disciplined (code : List Op) : Prop where
  targets : ∀ (n : Nat) (op : Op) (target : Nat), code[n]? = some op →
    op.branchTarget? = some target → target < code.length
  last : code.getLast? = some .ret
  depths : ∃ depth, Depths code depth

/-! ### Pieces of code -/

/-- The operation at an index has the depth it needs, and goes on between two indices, where the depth is
the one it leaves. -/
def Op.Balanced (depth : Nat → Nat) (low high n : Nat) (op : Op) : Prop :=
  op.pops ≤ depth n ∧ (op = .ret → depth n = 1) ∧
    ∀ m ∈ op.next n, low ≤ m ∧ m ≤ high ∧ depth m + op.pops = depth n + op.pushes

def Balanced (depth : Nat → Nat) (low high base : Nat) (ops : List Op) : Prop :=
  ∀ (i : Nat) (op : Op), ops[i]? = some op → op.Balanced depth low high (base + i)

def Leads (base : Nat) (ops : List Op) (d e : Nat) : Prop :=
  ∃ depth, depth base = d ∧ depth (base + ops.length) = e ∧ Balanced depth base (base + ops.length) base ops

section
variable {depth depth' : Nat → Nat} {low high base d e f index n : Nat} {op : Op} {a b ops : List Op}

theorem balanced_nil : Balanced depth low high base [] := by
  intro i op h
  cases h

theorem balanced_cons (hop : op.Balanced depth low high base) (h : Balanced depth low high (base + 1) ops) :
    Balanced depth low high base (op :: ops) := by
  intro i op' hi
  cases i with
  | zero =>
    cases hi
    exact hop
  | succ i =>
    have hbalanced := h i op' hi
    rwa [Nat.add_assoc, Nat.add_comm 1] at hbalanced

theorem balanced_append (ha : Balanced depth low high base a)
    (hb : Balanced depth low high (base + a.length) b) : Balanced depth low high base (a ++ b) := by
  intro i op hi
  by_cases hlt : i < a.length
  · rw [getElem?_append_left hlt] at hi
    exact ha i op hi
  · rw [getElem?_append_right (Nat.not_lt.mp hlt)] at hi
    have hbalanced := hb _ op hi
    rwa [Nat.add_assoc, Nat.add_sub_cancel' (Nat.not_lt.mp hlt)] at hbalanced

theorem Balanced.congr {low' high' : Nat} (h : Balanced depth low high base ops) (hlow : low ≤ base)
    (hhigh : base + ops.length ≤ high) (hlow' : low' ≤ low) (hhigh' : high ≤ high')
    (hsame : ∀ n, low ≤ n → n ≤ high → depth' n = depth n) : Balanced depth' low' high' base ops := by
  intro i op hi
  obtain ⟨hpops, hret, hnext⟩ := h i op hi
  have hlt : i < ops.length := (List.getElem?_eq_some_iff.mp hi).1
  have hdepth : depth' (base + i) = depth (base + i) := hsame _ (by omega) (by omega)
  refine ⟨hdepth ▸ hpops, fun heq => hdepth.trans (hret heq), fun m hm => ?_⟩
  obtain ⟨hlm, hmh, heq⟩ := hnext m hm
  refine ⟨by omega, by omega, ?_⟩
  rw [hsame m hlm hmh, hdepth, heq]

/-- The depths of one piece up to an index, and those of another from there on. -/
def glue (index : Nat) (before after : Nat → Nat) (n : Nat) : Nat :=
  if n < index then before n else after n

theorem glue_of_lt (h : n < index) : glue index depth depth' n = depth n := if_pos h

theorem glue_of_le (h : index ≤ n) : glue index depth depth' n = depth' n :=
  if_neg (Nat.not_lt.mpr h)

theorem leads_nil : Leads base [] d d := ⟨fun _ => d, rfl, rfl, balanced_nil⟩

theorem Leads.append (ha : Leads base a d e) (hb : Leads (base + a.length) b e f) :
    Leads base (a ++ b) d f := by
  obtain ⟨D, hstart, hmid, hD⟩ := ha
  obtain ⟨D', hmid', hend, hD'⟩ := hb
  have hleft : ∀ n, n ≤ base + a.length → glue (base + a.length) D D' n = D n := by
    intro n hn
    rcases Nat.lt_or_ge n (base + a.length) with hlt | hge
    · exact glue_of_lt hlt
    · obtain rfl := Nat.le_antisymm hn hge
      rw [glue_of_le le_rfl, hmid', hmid]
  have hright : ∀ n, base + a.length ≤ n → glue (base + a.length) D D' n = D' n := fun n => glue_of_le
  refine ⟨glue (base + a.length) D D', ?_, ?_, balanced_append ?_ ?_⟩
  · rw [hleft _ (Nat.le_add_right ..), hstart]
  · rw [length_append, ← Nat.add_assoc, hright _ (Nat.le_add_right ..), hend]
  · exact hD.congr le_rfl le_rfl le_rfl (by simp) fun n _ hn => hleft n hn
  · exact hD'.congr le_rfl le_rfl (Nat.le_add_right ..)
      (by rw [length_append, Nat.add_assoc]) fun n hn _ => hright n hn

theorem leads_op (hstraight : op.isStraight = true) (hd : d = f + op.pops) (he : e = f + op.pushes) :
    Leads base [op] d e := by
  refine ⟨glue (base + 1) (fun _ => d) fun _ => e, glue_of_lt (Nat.lt_succ_self _),
    glue_of_le le_rfl, balanced_cons ?_ balanced_nil⟩
  rw [Op.Balanced, glue_of_lt (Nat.lt_succ_self _), Op.next_of_isStraight hstraight]
  refine ⟨by omega, ?_, ?_⟩
  · rintro rfl
    cases hstraight
  · intro m hm
    obtain rfl := mem_singleton.mp hm
    refine ⟨Nat.le_succ _, le_rfl, ?_⟩
    rw [glue_of_le le_rfl]
    omega

theorem leads_ret : Leads base [.ret] 1 e := by
  refine ⟨glue (base + 1) (fun _ => 1) fun _ => e, glue_of_lt (Nat.lt_succ_self _),
    glue_of_le le_rfl, balanced_cons ?_ balanced_nil⟩
  rw [Op.Balanced, glue_of_lt (Nat.lt_succ_self _)]
  exact ⟨le_rfl, fun _ => rfl, fun _ => nofun⟩

variable {c r : List Op}

/-- Code that is guarded by a condition goes on where the code after it ends, or back to the condition. -/
theorem Leads.guarded {next goal g : Nat} (hc : Leads base c d (f + 1))
    (ha : Leads (base + c.length + 1) a f g) (hnext : next = base + c.length + 1 + a.length + 1)
    (hr : Leads next r f e) (hgoal : goal = base ∧ g = d ∨ goal = next + r.length ∧ g = e) :
    Leads base (c ++ [.brFalse next] ++ a ++ [.jump goal] ++ r) d e := by
  obtain ⟨D, hstart, htest, hD⟩ := hc
  obtain ⟨D1, hthen, hjump, hD1⟩ := ha
  obtain ⟨D2, helse, hend, hD2⟩ := hr
  have hlen : base + (c ++ [Op.brFalse next] ++ a ++ [Op.jump goal] ++ r).length = next + r.length := by
    simp
    omega
  generalize hG : glue (base + c.length + 1) D (glue next D1 D2) = G
  have hGc : ∀ n, n ≤ base + c.length → G n = D n := fun n hn => hG ▸ glue_of_lt (by omega)
  have hGa : ∀ n, base + c.length + 1 ≤ n → n < next → G n = D1 n := fun n hn hn' => by
    rw [← hG, glue_of_le hn, glue_of_lt hn']
  have hGr : ∀ n, next ≤ n → G n = D2 n := fun n hn => by
    rw [← hG, glue_of_le (by omega), glue_of_le hn]
  have hGgoal : G goal = g := by
    rcases hgoal with ⟨rfl, rfl⟩ | ⟨rfl, rfl⟩
    · exact (hGc _ (Nat.le_add_right ..)).trans hstart
    · exact (hGr _ (Nat.le_add_right ..)).trans hend
  refine ⟨G, (hGc _ (Nat.le_add_right ..)).trans hstart, ?_, ?_⟩
  · rw [hlen, hGr _ (Nat.le_add_right ..), hend]
  rw [hlen]
  refine balanced_append (balanced_append (balanced_append (balanced_append ?_ ?_) ?_) ?_) ?_
  · exact hD.congr le_rfl le_rfl le_rfl (by omega) fun n _ hn => hGc n hn
  · refine balanced_cons ⟨?_, nofun, ?_⟩ balanced_nil
    · rw [hGc _ le_rfl, htest]
      exact Nat.le_add_left 1 f
    · intro m hm
      rw [hGc _ le_rfl, htest]
      rcases mem_pair.mp hm with rfl | rfl
      · exact ⟨by omega, by omega, by rw [hGa _ le_rfl (by omega), hthen]; rfl⟩
      · exact ⟨by omega, by omega, by rw [hGr _ le_rfl, helse]; rfl⟩
  · rw [length_append, length_singleton, ← Nat.add_assoc]
    exact hD1.congr le_rfl le_rfl (by omega) (by omega) fun n hn hn' => hGa n hn (by omega)
  · have hindex : base + (c ++ [Op.brFalse next] ++ a).length = base + c.length + 1 + a.length := by
      simp
      omega
    rw [hindex]
    refine balanced_cons ⟨Nat.zero_le _, nofun, ?_⟩ balanced_nil
    intro m hm
    obtain rfl := mem_singleton.mp hm
    rw [hGgoal, hGa (base + c.length + 1 + a.length) (by omega) (by omega), hjump]
    exact ⟨by omega, by omega, rfl⟩
  · have hindex : base + (c ++ [Op.brFalse next] ++ a ++ [Op.jump goal]).length = next := by
      simp
      omega
    rw [hindex]
    exact hD2.congr le_rfl le_rfl (by omega) le_rfl fun n hn _ => hGr n hn

variable {stop : Nat}

theorem Leads.shortcut {l : List Op} {branch : Op} (hl : Leads base l d (d + 1))
    (hr : Leads (base + l.length + 3) r d (d + 1)) (hbranch : branch = .brTrue stop ∨ branch = .brFalse stop)
    (hstop : stop = base + l.length + 3 + r.length) :
    Leads base (l ++ [.dup, branch, .pop] ++ r) d (d + 1) := by
  obtain ⟨D, hstart, hleft, hD⟩ := hl
  obtain ⟨D1, hright, hend, hD1⟩ := hr
  have hlen : base + (l ++ [Op.dup, branch, .pop] ++ r).length = stop := by
    simp
    omega
  obtain ⟨hpops, hpushes, hnext⟩ : branch.pops = 1 ∧ branch.pushes = 0 ∧
      ∀ n, branch.next n = [n + 1, stop] := by
    rcases hbranch with rfl | rfl <;> exact ⟨rfl, rfl, fun _ => rfl⟩
  have hne : branch ≠ .ret := by rcases hbranch with rfl | rfl <;> nofun
  generalize hG : glue (base + l.length + 1) D (glue (base + l.length + 2) (fun _ => d + 2)
    (glue (base + l.length + 3) (fun _ => d + 1) D1)) = G
  have hGl : ∀ n, n ≤ base + l.length → G n = D n := fun n hn => hG ▸ glue_of_lt (by omega)
  have hG1 : G (base + l.length + 1) = d + 2 := by
    rw [← hG, glue_of_le le_rfl, glue_of_lt (by omega)]
  have hG2 : G (base + l.length + 2) = d + 1 := by
    rw [← hG, glue_of_le (by omega), glue_of_le le_rfl, glue_of_lt (by omega)]
  have hGr : ∀ n, base + l.length + 3 ≤ n → G n = D1 n := fun n hn => by
    rw [← hG, glue_of_le (by omega), glue_of_le (by omega), glue_of_le hn]
  have hGstop : G stop = d + 1 := by rw [hGr _ (by omega), hstop, hend]
  refine ⟨G, (hGl _ (Nat.le_add_right ..)).trans hstart, by rw [hlen, hGstop], ?_⟩
  rw [hlen]
  refine balanced_append (balanced_append ?_ (balanced_cons ?_ (balanced_cons ?_ (balanced_cons ?_ balanced_nil)))) ?_
  · exact hD.congr le_rfl le_rfl le_rfl (by omega) fun n _ hn => hGl n hn
  · have hG0 : G (base + l.length) = d + 1 := (hGl _ le_rfl).trans hleft
    refine ⟨hG0 ▸ Nat.le_add_left 1 d, nofun, fun m hm => ?_⟩
    obtain rfl := mem_singleton.mp hm
    exact ⟨by omega, by omega, by rw [hG1, hG0]; rfl⟩
  · refine ⟨by rw [hG1, hpops]; omega, fun h => absurd h hne, fun m hm => ?_⟩
    rw [hnext] at hm
    rw [hG1, hpops, hpushes]
    rcases mem_pair.mp hm with rfl | rfl
    · exact ⟨by omega, by omega, by rw [hG2]⟩
    · exact ⟨by omega, le_rfl, by rw [hGstop]⟩
  · refine ⟨hG2 ▸ Nat.le_add_left 1 d, nofun, fun m hm => ?_⟩
    obtain rfl := mem_singleton.mp hm
    refine ⟨by omega, by omega, ?_⟩
    rw [hGr _ le_rfl, hright]
    exact hG2.symm
  · have hindex : base + (l ++ [Op.dup, branch, .pop]).length = base + l.length + 3 := by
      simp
      omega
    rw [hindex]
    exact hD1.congr le_rfl le_rfl (by omega) (by omega) fun n hn _ => hGr n hn

end

theorem Leads.disciplined {ops : List Op} (h : Leads 0 ops 0 1) : Disciplined (ops ++ [.ret]) := by
  obtain ⟨depth, hstart, hend, hops⟩ := h
  rw [Nat.zero_add] at hend hops
  have hret : Op.Balanced depth 0 ops.length ops.length .ret :=
    ⟨hend ▸ Nat.le_refl 1, fun _ => hend, fun _ => nofun⟩
  have hall : Balanced depth 0 ops.length 0 (ops ++ [.ret]) :=
    balanced_append hops (balanced_cons (by rwa [Nat.zero_add]) balanced_nil)
  have hbalanced : ∀ (n : Nat) (op : Op), (ops ++ [.ret])[n]? = some op →
      op.Balanced depth 0 ops.length n := by
    intro n op hn
    have hop := hall n op hn
    rwa [Nat.zero_add] at hop
  refine ⟨fun n op target hn ht => ?_, getLast?_concat .., depth, ?_⟩
  · have hle := ((hbalanced n op hn).2.2 target (Op.mem_next_of_branchTarget? ht n)).2.1
    rw [length_append, length_singleton]
    exact Nat.lt_succ_of_le hle
  · refine ⟨hstart, fun n op hn => (hbalanced n op hn).1, fun n op hn m hm => ?_, fun n hn => ?_⟩
    · obtain ⟨hpops, -, hnext⟩ := hbalanced n op hn
      have heq := (hnext m hm).2.2
      omega
    · exact (hbalanced n .ret hn).2.1 rfl

/-! ### Generated code -/

namespace Generate

theorem callOp_effect (name : String) (argc : Nat) (target : CallTarget) :
    (callOp name argc target).isStraight = true ∧ (callOp name argc target).pops = argc ∧
      (callOp name argc target).pushes = 1 := by
  cases target <;> exact ⟨rfl, rfl, rfl⟩

theorem strictOp?_effect {operator : BinaryOperator} {op : Op} (h : strictOp? operator = some op) :
    op.isStraight = true ∧ op.pops = 2 ∧ op.pushes = 1 := by
  cases operator <;> cases h <;> exact ⟨rfl, rfl, rfl⟩

theorem shortcut_branches (operator : BinaryOperator) (stop : Nat) :
    shortcut operator stop = .brTrue stop ∨ shortcut operator stop = .brFalse stop := by
  cases operator with
  | and => exact .inr rfl
  | _ => exact .inl rfl

theorem unaryOp_effect (operator : UnaryOperator) :
    (unaryOp operator).isStraight = true ∧ (unaryOp operator).pops = 1 ∧ (unaryOp operator).pushes = 1 := by
  cases operator <;> exact ⟨rfl, rfl, rfl⟩

/-- The code of an expression adds one value to the stack; that of a statement finds the stack empty and
leaves it empty. -/
def Leveled (row : Row) (base : Nat) (us : List Unfolding) (ops : List Op) : Prop :=
  match row with
  | .operands =>
    ((∀ u ∈ us, u.kind.isExpression = true) → ∀ d, Leads base ops d (d + us.length)) ∧
      ((∀ u ∈ us, u.kind.isStatement = true) → Leads base ops 0 0)
  | .arms .value => ∀ d, Leads base ops d (d + 1)
  | .statements | .arms .statement => Leads base ops 0 0

section

variable {base : Nat} {us : List Unfolding} {u : Unfolding} {ops : List Op}

theorem Leveled.expression (h : Leveled .operands base [u] ops) (hu : u.kind.isExpression = true) (d : Nat) :
    Leads base ops d (d + 1) := h.1 (by simpa) d

theorem Leveled.statement (h : Leveled .operands base [u] ops) (hu : u.kind.isStatement = true) :
    Leads base ops 0 0 := h.2 (by simpa)

theorem leveled_expression (hu : u.kind.isStatement = false) (h : ∀ d, Leads base ops d (d + 1)) :
    Leveled .operands base [u] ops := ⟨fun _ => h, fun hall => by simp [hu] at hall⟩

theorem leveled_statement (hu : u.kind.isExpression = false) (h : Leads base ops 0 0) :
    Leveled .operands base [u] ops := ⟨fun hall => by simp [hu] at hall, fun _ => h⟩

theorem leveled_neither (hu : u.kind.isExpression = false) (hu' : u.kind.isStatement = false) :
    Leveled .operands base [u] ops := ⟨fun hall => by simp [hu] at hall, fun hall => by simp [hu'] at hall⟩

theorem leveled_closing {i : ElementId} {k : Kind} {o : Origin} {e : Emission} (hk : closing? k = some ops)
    (hfits : Fits (.node i k o us)) (h : Leveled .operands base us e.code) :
    Leveled .operands base [.node i k o us] (e.code ++ ops) := by
  -- the one operation of an expression takes what the children left
  have hvalues {op : Op} (hlength : us.length = op.pops)
      (hall : ∀ u ∈ us, u.kind.isExpression = true) (hop : op.isStraight = true) (d : Nat) :
      Leads base (e.code ++ [op]) d (d + op.pushes) :=
    (h.1 hall d).append (leads_op hop (by rw [hlength]) rfl)
  cases k with
  | module | whenClause => exact leveled_neither rfl rfl
  | constant v =>
    cases hk
    obtain rfl := hfits.none rfl
    exact leveled_expression rfl (hvalues rfl nofun rfl)
  | reference _ b =>
    obtain ⟨b, rfl, rfl⟩ := Option.map_eq_some_iff.mp hk
    obtain rfl := hfits.none rfl
    exact leveled_expression rfl (hvalues rfl nofun rfl)
  | assignment _ _ _ b _ =>
    obtain ⟨b, rfl, rfl⟩ := Option.map_eq_some_iff.mp hk
    obtain ⟨value, rfl, -, hvalue⟩ := hfits.one rfl
    exact leveled_statement rfl ((h.expression hvalue 0).append (leads_op rfl rfl rfl))
  | returns x =>
    cases x with
    | none =>
      cases hk
      obtain rfl := hfits.none rfl
      have hnull : Leads base (e.code ++ [.const .null]) 0 1 := hvalues rfl nofun rfl 0
      refine leveled_statement rfl ?_
      simpa using hnull.append leads_ret
    | some x =>
      cases hk
      obtain ⟨value, rfl, -, hvalue⟩ := hfits.one rfl
      exact leveled_statement rfl ((h.expression hvalue 0).append leads_ret)
  | binary operator _ _ =>
    obtain ⟨op, hop, rfl⟩ := Option.map_eq_some_iff.mp hk
    obtain ⟨left, right, rfl, -, hleft, -, hright⟩ := hfits.two rfl
    obtain ⟨hstraight, hpops, hpushes⟩ := strictOp?_effect hop
    exact leveled_expression rfl fun d => hpushes ▸ hvalues hpops.symm (by simpa using ⟨hleft, hright⟩) hstraight d
  | unary operator _ =>
    cases hk
    obtain ⟨value, rfl, -, hvalue⟩ := hfits.one rfl
    obtain ⟨hstraight, hpops, hpushes⟩ := unaryOp_effect operator
    exact leveled_expression rfl fun d => hpushes ▸ hvalues hpops.symm (by simpa) hstraight d
  | invocation name arguments target =>
    obtain ⟨target, rfl, rfl⟩ := Option.map_eq_some_iff.mp hk
    obtain ⟨hstraight, hpops, hpushes⟩ := callOp_effect name arguments.length target
    have hall := hfits.all (r := .expression) rfl
    have hlength : us.length = arguments.length := by
      rw [← hfits.slots.length_eq, Kind.slots, length_map]
    exact leveled_expression rfl fun d =>
      hpushes ▸ hvalues (hlength.trans hpops.symm) (fun u hu => (hall u hu).2) hstraight d
  | _ => cases hk

end

theorem Emitted.leveled {row : Row} {base : Nat} {us : List Unfolding} {e : Emission}
    (h : Emitted row base us e) : Leveled row base us e.code := by
  induction h with
  | nil => exact ⟨fun _ _ => leads_nil, fun _ => leads_nil⟩
  | done => exact leads_nil
  | @cons base u us a b _ _ ha hb =>
    refine ⟨fun hall d => ?_, fun hall => ?_⟩
    · obtain ⟨hu, hus⟩ := forall_mem_cons.mp hall
      rw [length_cons, Nat.add_comm us.length, ← Nat.add_assoc]
      exact (ha.expression hu d).append (hb.1 hus (d + 1))
    · obtain ⟨hu, hus⟩ := forall_mem_cons.mp hall
      exact (ha.statement hu).append (hb.2 hus)
  | statement haccepts _ hfirst _ ha hb =>
    refine Leads.append ?_ hb
    rw [hfirst]
    split_ifs with hu
    · exact (ha.expression hu 0).append (leads_op rfl rfl rfl)
    · rw [Role.accepts, Bool.or_eq_true] at haccepts
      exact ha.statement (haccepts.resolve_right hu)
  | @fallback _ arm _ _ hu _ ih =>
    cases arm with
    | value => exact ih.expression hu
    | statement => exact ih.statement (isStatement_of_block hu)
  | @clause _ _ arm _ _ _ _ _ _ _ _ _ _ hc ha _ _ hnext _ ihc iha ihr =>
    cases arm with
    | value =>
      exact fun d => (ihc.expression hc d).guarded (iha.expression ha d) hnext (ihr d) (.inr ⟨rfl, rfl⟩)
    | statement =>
      exact (ihc.expression hc 0).guarded (iha.statement (isStatement_of_block ha)) hnext ihr (.inr ⟨rfl, rfl⟩)
  | function => exact leveled_neither rfl rfl
  | block _ ih | caseOf _ ih => exact leveled_statement rfl ih
  | matchOf _ ih => exact leveled_expression rfl ih
  | conditional hc ha hr _ _ hnext _ ihc iha ihr =>
    exact leveled_statement rfl
      ((ihc.expression hc 0).guarded (iha.statement ha) hnext (ihr.2 hr) (.inr ⟨rfl, rfl⟩))
  | loop hc hb _ _ hstop ihc ihb =>
    have hloop := (ihc.expression hc 0).guarded (ihb.statement hb) hstop leads_nil (.inl ⟨rfl, rfl⟩)
    exact leveled_statement rfl (by simpa using hloop)
  | shortcut hl hr _ _ hstop ihl ihr =>
    exact leveled_expression rfl fun d =>
      (ihl.expression hl d).shortcut (ihr.expression hr d) (shortcut_branches _ _) hstop
  | closure hnone =>
    refine leveled_expression rfl fun d => ?_
    rw [Emission.code_append, hnone]
    exact leads_op rfl rfl rfl
  | closing hk hfits _ ih => exact leveled_closing hk hfits ih

theorem Codes.disciplined {f : Unfolding} {c : FunctionCode} (h : Codes f c) : Disciplined c.code := by
  cases h with
  | @function _ _ _ _ _ _ _ body e hbody hblock he =>
    have hleads : Leads 0 (e.code ++ [.const .null]) 0 1 :=
      ((emitted hbody he).leveled.statement (isStatement_of_block hblock)).append (leads_op rfl rfl rfl)
    have hcode : e.code ++ [.const .null, .ret] = (e.code ++ [.const .null]) ++ [.ret] := by
      rw [append_assoc, singleton_append]
    simp only [FunctionCode.ofCode]
    rw [hcode]
    exact hleads.disciplined

end Generate

/-! ### Runs -/

namespace Meaning

variable {V : Type} {I : Interpretation V} {code : List Op} {depth : Nat → Nat}

variable {op : Op} {c : Config V}

theorem exec_effect (hop : op ≠ .ret) (hc : op.pops ≤ c.stack.length) :
    ∃ d, exec I op c = some d ∧ d.counter ∈ op.next c.counter ∧
      d.stack.length = c.stack.length - op.pops + op.pushes := by
  obtain ⟨n, st, s⟩ := c
  cases op with
  | ret => exact absurd rfl hop
  | const | load | jump | makeClosure =>
    exact ⟨_, rfl, .head _, rfl⟩
  | call _ argc | callBuiltin _ argc | callClosure _ argc =>
    refine ⟨_, if_pos hc, .head _, ?_⟩
    simp [Interpretation.push, Op.pops, Op.pushes]
  | store | not | neg | dup | pop =>
    obtain ⟨v, st, rfl⟩ := exists_cons_of_length_pos (Nat.lt_of_lt_of_le Nat.zero_lt_one hc)
    exact ⟨_, rfl, .head _, rfl⟩
  | brTrue target | brFalse target =>
    obtain ⟨v, st, rfl⟩ := exists_cons_of_length_pos (Nat.lt_of_lt_of_le Nat.zero_lt_one hc)
    refine ⟨_, rfl, ?_, rfl⟩
    cases I.truthy v <;> simp [Op.next]
  | add | sub | mul | div | mod | eq | neq | lt | lte | gt | gte =>
    match st, hc with
    | b :: a :: st, _ => exact ⟨_, rfl, .head _, rfl⟩

/-- A machine stands in the code, with as many values on its stack as the depth says. -/
def Standing (code : List Op) (depth : Nat → Nat) (c : Config V) : Prop :=
  c.counter < code.length ∧ c.stack.length = depth c.counter

variable {n : Nat}

theorem next_lt (hcode : Disciplined code) (hn : code[n]? = some op) {m : Nat} (hm : m ∈ op.next n) :
    m < code.length := by
  -- an operation that can go on at the next index is not the last one
  have hsucc (hop : op ≠ .ret) : n + 1 < code.length := by
    obtain ⟨hlt, -⟩ := List.getElem?_eq_some_iff.mp hn
    refine Nat.lt_of_le_of_ne hlt fun hend => hop ?_
    have hlast := hcode.last
    rw [getLast?_eq_getElem?, ← hend, Nat.add_sub_cancel, hn] at hlast
    exact Option.some.inj hlast
  cases op with
  | ret => cases hm
  | jump target =>
    obtain rfl := mem_singleton.mp hm
    exact hcode.targets n _ m hn rfl
  | brTrue target | brFalse target =>
    rcases mem_pair.mp hm with rfl | rfl
    · exact hsucc nofun
    · exact hcode.targets n _ m hn rfl
  | _ =>
    obtain rfl := mem_singleton.mp hm
    exact hsucc nofun

theorem Standing.progress (hcode : Disciplined code) (hdepth : Depths code depth) (hc : Standing code depth c) :
    (∃ d, step I code c = some d ∧ Standing code depth d) ∨
      code[c.counter]? = some .ret ∧ c.stack.length = 1 := by
  obtain ⟨hlt, hstack⟩ := hc
  obtain ⟨op, hop⟩ : ∃ op, code[c.counter]? = some op := ⟨_, getElem?_eq_getElem hlt⟩
  by_cases hret : op = .ret
  · subst hret
    exact .inr ⟨hop, hstack.trans (hdepth.ret _ hop)⟩
  · have hpops : op.pops ≤ c.stack.length := hstack ▸ hdepth.enough _ _ hop
    obtain ⟨d, hd, hnext, hlength⟩ := exec_effect (I := I) hret hpops
    refine .inl ⟨d, by rw [step, hop]; exact hd, next_lt hcode hop hnext, ?_⟩
    rw [hlength, hstack, hdepth.leaves _ _ hop _ hnext]

theorem Standing.steps (hcode : Disciplined code) (hdepth : Depths code depth) {d : Config V}
    (h : Steps I code n c d) (hc : Standing code depth c) : Standing code depth d := by
  induction h with
  | refl => exact hc
  | @head n c d e hstep _ ih =>
    rcases hc.progress (I := I) hcode hdepth with ⟨d', hd', hstanding⟩ | ⟨hret, -⟩
    · cases hstep.symm.trans hd'
      exact ih hstanding
    · simp [step, hret, exec] at hstep

theorem Standing.start (hcode : Disciplined code) (hdepth : Depths code depth) (s : Store V) :
    Standing code depth ⟨0, [], s⟩ := by
  refine ⟨length_pos_iff.mpr ?_, hdepth.start.symm⟩
  rintro rfl
  cases hcode.last

end Meaning

/-! ### Programs -/

open Meaning

theorem Program.codes_of_mem {t : Tree} (h : t.Owned) {p : Program} (hp : Program.ofTree t = .ok p)
    {c : FunctionCode} (hc : c ∈ p.functions) : ∃ f, Generate.Codes f c := by
  unfold Program.ofTree at hp
  cases hroot : t.unfoldRoot with
  | none =>
    rw [hroot] at hp
    cases hp
    cases hc
  | some root =>
    rw [hroot] at hp
    simp only [bind_eq_ok_iff] at hp
    obtain ⟨cs, hcs, ⟨⟩⟩ := hp
    have hfits := (h.unfoldRoot_eq_some_iff.mp hroot).1.fits h
    obtain ⟨fs, -, hcodes⟩ := Generate.codes_of_outside hfits hcs
    obtain ⟨n, hn, rfl⟩ := mem_iff_getElem.mp hc
    exact ⟨_, forall₂_iff_get.mp hcodes |>.2 n (hcodes.length_eq ▸ hn) hn⟩

/-- Generated code keeps stack discipline.  Whenever code is generated from an owned tree, every function
of the program ends with a return, branches only within its code and has one stack depth for each index
at which every operation finds what it takes, meets only depths that it leaves, and returns one value.
So a machine that runs it from an empty stack always has as many values as the depth says and either
takes another step or stands at a return with one value. -/
theorem generated_code_disciplined {t : Tree} (h : t.Owned) {p : Program}
    (hp : Program.ofTree t = .ok p) :
    ∀ c ∈ p.functions, Disciplined c.code ∧
      ∀ depth, Depths c.code depth →
        ∀ (V : Type) (I : Interpretation V) (s : Store V) (n : Nat) (d : Config V),
          Steps I c.code n ⟨0, [], s⟩ d →
            d.counter < c.code.length ∧ d.stack.length = depth d.counter ∧
              ((∃ d', step I c.code d = some d') ∨ c.code[d.counter]? = some .ret ∧ d.stack.length = 1) := by
  intro c hc
  obtain ⟨f, hcodes⟩ := Program.codes_of_mem h hp hc
  have hcode := hcodes.disciplined
  refine ⟨hcode, fun depth hdepth V I s n d hsteps => ?_⟩
  have hstanding := (Standing.start hcode hdepth s).steps hcode hdepth hsteps
  refine ⟨hstanding.1, hstanding.2, ?_⟩
  rcases hstanding.progress (I := I) hcode hdepth with ⟨d', hstep, -⟩ | hret
  · exact .inl ⟨d', hstep⟩
  · exact .inr hret

/-- A module with one function, which returns early, or else adds to what a match chooses. -/
def choosing : Tree :=
  Tree.reached "choosing" <| [
    Kind.reference "x" (some ⟨0, .parameter⟩), .reference "y" (some ⟨1, .parameter⟩), .binary .or 0 1,
    .constant (.int 1), .returns (some 3), .block [4], .conditional 2 5 none,
    .constant (.int 2), .reference "x" (some ⟨0, .parameter⟩), .constant (.int 3), .whenClause 8 9 .value,
    .constant (.int 4), .matchOf [10] 11, .binary .add 7 12, .returns (some 13), .block [6, 14],
    .function "choose" ["x", "y"] 15 false [], .module "choosing" [16]].map (Tree.Call.alloc · {}) ++
    [.setRoot 17]

theorem choosing_disciplined :
    choosing.Owned ∧
    ∃ p, Program.ofTree choosing = .ok p ∧
      p.functions.map (·.code) = [[.load 0, .dup, .brTrue 5, .pop, .load 1, .brFalse 9, .const (.int 1),
        .ret, .jump 9, .const (.int 2), .load 0, .brFalse 14, .const (.int 3), .jump 15,
        .const (.int 4), .add, .ret, .const .null, .ret]] ∧
      ∀ c ∈ p.functions, Disciplined c.code := by
  have howned : choosing.Owned := Tree.foldl_perform_owned (Tree.empty_owned _) _
  have hp : ∃ p, Program.ofTree choosing = .ok p ∧
      p.functions.map (·.code) = [[.load 0, .dup, .brTrue 5, .pop, .load 1, .brFalse 9,
        .const (.int 1), .ret, .jump 9, .const (.int 2), .load 0, .brFalse 14, .const (.int 3), .jump 15,
        .const (.int 4), .add, .ret, .const .null, .ret]] := by
    set_option maxRecDepth 4000 in exact ⟨_, rfl, rfl⟩
  obtain ⟨p, hp, hcode⟩ := hp
  exact ⟨howned, p, hp, hcode, fun c hc => (generated_code_disciplined howned hp c hc).1⟩

end Clausal
