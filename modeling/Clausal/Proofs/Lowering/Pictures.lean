import Clausal.Proofs.Lowering.Progress

/-! # What lowering makes of syntax

`Lowered n u` says what element a syntax node becomes, and what is below it, rule by rule and without a
builder: one element for the node, with its origin, and below it what its parts become. -/

namespace Clausal

open List Option

open Ast (Form Node)

def Ast.Form.leaf? : Form → Option Kind
  | .identifier name => some (.reference name none)
  | .integer value => some (.constant (.int value))
  | .float value => some (.constant (.float value))
  | .string value => some (.constant (.str value))
  | .boolean value => some (.constant (.bool value))
  | .null => some (.constant .null)
  | _ => none

namespace Lower

section rows
variable (R : Names → Node → Unfolding → Names → Prop)

/-- Nodes in a row. -/
inductive Row : Names → List Node → List Unfolding → Names → Prop
  | nil {m} : Row m [] [] m
  | cons {m m1 m' n u ns us} : R m n u m1 → Row m1 ns us m' → Row m (n :: ns) (u :: us) m'

/-- The body of a function. -/
inductive Body : Node → Names → Unfolding → Names → Prop
  | block {m m' o ns u} : R m (.mk .block o ns) u m' →
      Body (.mk .block o ns) m u m'
  | value {m m' i j n v} : n.form ≠ .block → R m n v m' →
      Body n m (.node i (.block [j]) n.origin [.node j (.returns (some v.id)) n.origin [v]]) m'

/-- The statements of a block. -/
inductive StatementRow : Names → List Node → List Unfolding → Names → Prop
  | nil {m} : StatementRow m [] [] m
  | one {m m1 m' n u ns us} :
      (∀ p, declaration? n.form = some p → ∀ value ∈ n.parts.head?, value.form ≠ .matchOf) →
      R m n u m1 → StatementRow m1 ns us m' → StatementRow m (n :: ns) (u :: us) m'
  | two {m m1 m' i j c form x d o value rest ns v us} :
      declaration? form = some (x, d) → value.form = .matchOf → R m value v m1 → StatementRow m1 ns us m' →
      StatementRow m (.mk form o (value :: rest) :: ns)
        (.node i (.assignment x (some d) c none false) o [.node c (.constant .null) o []] ::
          .node j (.assignment x none v.id none true) o [v] :: us) m'

/-- The conditions and actions of the clauses of a case or a match, and its fallback. -/
inductive ClauseRow : Names → List Node → List (Unfolding × Unfolding) → Option Unfolding → Names → Prop
  | nil {m} : ClauseRow m [] [] none m
  | clause {m m1 m2 m' o condition action rest ns c a ps fallback} :
      R m condition c m1 → R m1 action a m2 → ClauseRow m2 ns ps fallback m' →
      ClauseRow m (.mk .whenClause o (condition :: action :: rest) :: ns) ((c, a) :: ps) fallback m'
  | fallback {m m1 m' o action rest ns a ps} : R m action a m1 → ClauseRow m1 ns ps none m' →
      ClauseRow m (.mk .otherwise o (action :: rest) :: ns) ps (some a) m'

end rows

/-- A clause with its condition and its action, which has the origin of the condition. -/
def clauseOf (arm : Arm) (p : Unfolding × Unfolding) (i : ElementId) : Unfolding :=
  .node i (.whenClause p.1.id p.2.id arm) p.1.origin [p.1, p.2]

/-- What a syntax node becomes, with the names in use before it and after it. -/
inductive Lowered : Names → Node → Unfolding → Names → Prop
  | function {m m' i o name params body rest b} : Body Lowered body (m.enter name) b m' →
      Lowered m (.mk (.function name params) o (body :: rest))
        (.node i (.function name params b.id false []) o [b]) m'.exit
  | block {m m' i o ns us} : StatementRow Lowered m ns us m' →
      Lowered m (.mk .block o ns) (.node i (.block (us.map Unfolding.id)) o us) m'
  | declaration {m m' i o form x d value rest v} : declaration? form = some (x, d) →
      Lowered m value v m' →
      Lowered m (.mk form o (value :: rest)) (.node i (.assignment x (some d) v.id none false) o [v]) m'
  | assign {m m' i o x value rest v} : Lowered m value v m' →
      Lowered m (.mk (.assign x) o (value :: rest)) (.node i (.assignment x none v.id none false) o [v]) m'
  | returnsNothing {m i o} : Lowered m (.mk .returns o []) (.node i (.returns none) o []) m
  | returns {m m' i o value rest v} : Lowered m value v m' →
      Lowered m (.mk .returns o (value :: rest)) (.node i (.returns (some v.id)) o [v]) m'
  | conditional {m m1 m' i o condition action c a} : Lowered m condition c m1 → Lowered m1 action a m' →
      Lowered m (.mk .conditional o [condition, action]) (.node i (.conditional c.id a.id none) o [c, a]) m'
  | conditionalElse {m m1 m2 m' i o condition action other rest c a e} : Lowered m condition c m1 → Lowered m1 action a m2 →
      Lowered m2 other e m' → Lowered m (.mk .conditional o (condition :: action :: other :: rest))
        (.node i (.conditional c.id a.id (some e.id)) o [c, a, e]) m'
  | loop {m m1 m' i o condition body rest c b} : Lowered m condition c m1 → Lowered m1 body b m' →
      Lowered m (.mk .loop o (condition :: body :: rest)) (.node i (.loop c.id b.id) o [c, b]) m'
  | alternatives {m m' i o form arm ns ps us f} : form.arm? = some arm →
      ClauseRow Lowered m ns ps (some f) m' → Forall₂ (fun p u => u = clauseOf arm p u.id) ps us →
      Lowered m (.mk form o ns) (.node i (arm.construct (us.map Unfolding.id) f.id) o (us ++ [f])) m'
  | binary {m m1 m' i o symbol operator left right rest l r} :
      BinaryOperator.ofSymbol? symbol = some operator → Lowered m left l m1 → Lowered m1 right r m' →
      Lowered m (.mk (.binary symbol) o (left :: right :: rest)) (.node i (.binary operator l.id r.id) o [l, r]) m'
  | unary {m m' i o symbol operator operand rest v} : UnaryOperator.ofSymbol? symbol = some operator →
      Lowered m operand v m' →
      Lowered m (.mk (.unary symbol) o (operand :: rest)) (.node i (.unary operator v.id) o [v]) m'
  | call {m m' i o name ns us} : Row Lowered m ns us m' →
      Lowered m (.mk (.call name) o ns) (.node i (.invocation name (us.map Unfolding.id) none) o us) m'
  | closure {m m' i j o params body rest b} : Body Lowered body (m.next.2.enter m.next.1) b m' →
      Lowered m (.mk (.closure params) o (body :: rest))
        (.node i (.closure j []) o [.node j (.function m.next.1 params b.id true []) o [b]]) m'.exit
  | leaf {m i o form k ns} : form.leaf? = some k → Lowered m (.mk form o ns) (.node i k o []) m

def IsLowered (n : Node) (u : Unfolding) : Prop := ∃ m m', Lowered m n u m'

theorem Row.isLowered {m m' : Names} {ns : List Node} {us : List Unfolding} (h : Row Lowered m ns us m') :
    Forall₂ IsLowered ns us := by
  induction h with
  | nil => exact .nil
  | cons hn _ ih => exact .cons ⟨_, _, hn⟩ ih

/-- The conditions and the actions of clauses are what parts of the clauses become. -/
theorem ClauseRow.exists_part {m m' : Names} {ns : List Node} {ps : List (Unfolding × Unfolding)}
    {fallback : Option Unfolding} (h : ClauseRow Lowered m ns ps fallback m') :
    (∀ p ∈ ps, ∀ u ∈ [p.1, p.2], ∃ n ∈ ns, ∃ part ∈ n.parts, IsLowered part u) ∧
      ∀ u ∈ fallback, ∃ n ∈ ns, ∃ part ∈ n.parts, IsLowered part u := by
  have htail {n : Node} {ns : List Node} {u : Unfolding} : (∃ n ∈ ns, ∃ part ∈ n.parts, IsLowered part u) →
      ∃ n' ∈ n :: ns, ∃ part ∈ n'.parts, IsLowered part u := fun ⟨n', hn, h⟩ => ⟨n', .tail _ hn, h⟩
  induction h with
  | nil => exact ⟨nofun, nofun⟩
  | clause hcondition haction _ ih =>
    refine ⟨forall_mem_cons.mpr ⟨forall_mem_cons.mpr ⟨?_, forall_mem_singleton.mpr ?_⟩,
      fun p hp u hu => htail (ih.1 p hp u hu)⟩, fun u hu => htail (ih.2 u hu)⟩
    · exact ⟨_, .head _, _, .head _, _, _, hcondition⟩
    · exact ⟨_, .head _, _, .tail _ (.head _), _, _, haction⟩
  | fallback haction _ ih =>
    refine ⟨fun p hp u hu => htail (ih.1 p hp u hu), ?_⟩
    rintro _ ⟨⟩
    exact ⟨_, .head _, _, .head _, _, _, haction⟩

theorem Lowered.form_of_function {m m' : Names} {n : Node} {v : Unfolding} (h : Lowered m n v m')
    (hv : Role.function.accepts v.kind = true) :
    ∃ name params body, n.form = .function name params ∧ v.kind = .function name params body false [] := by
  cases h with
  | function => exact ⟨_, _, _, rfl, rfl⟩
  | @alternatives _ _ _ _ _ arm => cases arm <;> cases hv
  | @leaf _ _ _ form _ _ hleaf => cases form <;> cases hleaf <;> cases hv
  | _ => cases hv

theorem Row.forms_of_functions {m m' : Names} {ns : List Node} {vs : List Unfolding} (h : Row Lowered m ns vs m')
    (hvs : ∀ v ∈ vs, Role.function.accepts v.kind = true) :
    Forall₂ (fun n v => ∃ name params body, n.form = Form.function name params ∧
      Unfolding.kind v = .function name params body false []) ns vs := by
  induction h with
  | nil => exact .nil
  | cons hn _ ih =>
    obtain ⟨hv, hvs⟩ := forall_mem_cons.mp hvs
    exact .cons (hn.form_of_function hv) (ih hvs)

end Lower

/-! ### Elements stay -/

namespace Tree

variable {t t' t'' : Tree}

/-- Every element is still there, with its kind and its origin, and what is new holds elements before it. -/
structure Retains (t t' : Tree) : Prop where
  owned : t.Owned → t'.Owned
  kept : ∀ i f, t.face? i = some f → t'.face? i = some f
  held : ∀ i f, t'.face? i = some f → t.size ≤ i → ∀ c ∈ f.1.children, c < i

theorem Retains.refl (t : Tree) : Retains t t :=
  ⟨id, fun _ _ h => h, fun _ _ hf hi => absurd (lt_size_of_face? hf) (Nat.not_lt.mpr hi)⟩

theorem Retains.trans (h : Retains t t') (h' : Retains t' t'') : Retains t t'' := by
  refine ⟨h'.owned ∘ h.owned, fun i f hf => h'.kept i f (h.kept i f hf), fun i f hf hi => ?_⟩
  by_cases hlt : i < t'.size
  · obtain ⟨e, he⟩ := lt_size_iff.mp hlt
    have hface := face?_of_element? he
    cases hf.symm.trans (h'.kept i _ hface)
    exact h.held i _ hface hi
  · exact h'.held i f hf (Nat.not_lt.mp hlt)

theorem Shows.retained {u : Unfolding} (h : t.Shows u) (hr : Retains t t') : t'.Shows u := by
  induction h with
  | node hface hchildren _ ih => exact .node (hr.kept _ _ hface) hchildren ih

theorem shows_alloc {k : Kind} {o : Origin} {id : ElementId} (us : List Unfolding)
    (ha : t.alloc k o = .ok (t', id)) (hus : ∀ u ∈ us, t.Shows u) (hids : us.map Unfolding.id = k.children) :
    Retains t t' ∧ t'.Shows (.node id k o us) ∧ t'.size = t.size + 1 := by
  obtain ⟨-, ⟨⟩⟩ := alloc_eq_ok_iff.mp ha
  have hr : Retains t (t.adopt k o) := by
    refine ⟨fun h => h.alloc ha, fun i f hf => ?_, fun i f hf hi c hc => ?_⟩
    · rw [face?_adopt, if_neg (Nat.ne_of_lt (lt_size_of_face? hf)), hf]
    · rw [face?_adopt] at hf
      split_ifs at hf with heq
      · cases hf
        obtain ⟨u, hu, rfl⟩ := List.mem_map.mp (hids ▸ hc)
        exact heq ▸ (hus u hu).lt_size
      · exact absurd (lt_size_of_face? hf) (Nat.not_lt.mpr hi)
  refine ⟨hr, .node (by rw [face?_adopt, if_pos rfl]) hids fun u hu => (hus u hu).retained hr, size_adopt ..⟩

end Tree

namespace Lower

open Clausal.Tree

variable {α β : Type} {t t' : Tree} {b b' : Builder} {Q Q' : Builder → α → Prop} {R : Builder → β → Prop}
  {origin o : Origin} {step : Lower ElementId} {k : Kind} {arm : Arm} {ps : List (Unfolding × Unfolding)}
  {body n : Node} {ns : List Node} {form : Form} {u : Ast.CompilationUnit}

theorem alloc_eq_ok {id : ElementId} (hrun : alloc k o b = .ok id b') :
    ∃ t, b.tree.alloc k o = .ok (t, id) ∧ b' = { b with tree := t } := by
  rw [alloc_apply] at hrun
  cases ha : b.tree.alloc k o with
  | ok r =>
    rw [ha] at hrun
    cases hrun
    exact ⟨r.1, rfl, rfl⟩
  | error fault =>
    rw [ha] at hrun
    cases hrun

/-- If the step succeeds, the elements of the tree are still there, and the result is as `Q` says. -/
def Draws (b : Builder) (step : Lower α) (Q : Builder → α → Prop) : Prop :=
  ∀ a b', step b = .ok a b' → Retains b.tree b'.tree ∧ Q b' a

theorem Draws.bind {x : Lower α} {f : α → Lower β} (hx : Draws b x Q)
    (hf : ∀ b1 a, Retains b.tree b1.tree → Q b1 a → Draws b1 (f a) R) : Draws b (x >>= f) R := by
  intro c b' hrun
  obtain ⟨a, b1, hxb, hfb⟩ := bind_ok_iff.mp hrun
  obtain ⟨hr, hq⟩ := hx a b1 hxb
  obtain ⟨hr', hr''⟩ := hf b1 a hr hq c b' hfb
  exact ⟨hr.trans hr', hr''⟩

theorem Draws.imp {x : Lower α} (hx : Draws b x Q) (h : ∀ b' a, Retains b.tree b'.tree → Q b' a → Q' b' a) :
    Draws b x Q' := by
  intro a b' hrun
  obtain ⟨hr, hq⟩ := hx a b' hrun
  exact ⟨hr, h b' a hr hq⟩

theorem draws_pure {a : α} (h : Q b a) : Draws b (pure a) Q := by
  intro _ b' hrun
  cases hrun
  exact ⟨.refl _, h⟩

theorem draws_malformed {stage : Stage} {flaw : Flaw} : Draws b (malformed origin stage flaw) Q := by
  intro a b' hrun
  cases hrun

theorem draws_modifyNames (f : Names → Names) :
    Draws b (modifyNames f) fun b' _ => b'.tree = b.tree ∧ b'.names = f b.names := by
  intro a b' hrun
  cases hrun
  exact ⟨.refl _, rfl, rfl⟩

theorem draws_closureName :
    Draws b closureName fun b' a => b'.tree = b.tree ∧ a = b.names.next.1 ∧ b'.names = b.names.next.2 := by
  intro a b' hrun
  cases hrun
  exact ⟨.refl _, rfl, rfl, rfl⟩

theorem draws_leaving {Q : Builder → ElementId → Prop} (h : Draws b step Q) : Draws b (leaving step)
    fun b' id => ∃ b1, Q b1 id ∧ Retains b.tree b1.tree ∧ b'.tree = b1.tree ∧ b'.names = b1.names.exit := by
  intro id b' hrun
  unfold leaving at hrun
  cases hs : step b with
  | ok id' b1 =>
    rw [hs] at hrun
    cases hrun
    obtain ⟨hr, hq⟩ := h id b1 hs
    exact ⟨hr, b1, hq, hr, rfl, rfl⟩
  | error e b1 =>
    rw [hs] at hrun
    cases hrun

section
variable {n : Node} {step : Lower ElementId} {Q : Builder → ElementId → Prop}

theorem draws_asBlock (h : Draws b step Q) : Draws b (asBlock n step) Q := by
  unfold asBlock
  split
  · exact h
  · exact draws_malformed

theorem draws_asElse (h : Draws b step Q) : Draws b (asElse n step) Q := by
  unfold asElse
  split
  · exact h
  · exact draws_asBlock h

theorem draws_asAction {arm : Arm} (h : Draws b step Q) : Draws b (asAction arm n step) Q := by
  cases arm with
  | statement => exact draws_asBlock h
  | value => exact h

end

theorem draws_alloc (o : Origin) (us : List Unfolding) (hus : ∀ u ∈ us, b.tree.Shows u)
    (hids : us.map Unfolding.id = k.children) : Draws b (alloc k o) fun b' id =>
      b'.tree.Shows (.node id k o us) ∧ b'.names = b.names ∧ b'.tree.size = b.tree.size + 1 := by
  intro id b' hrun
  obtain ⟨t', ha, rfl⟩ := alloc_eq_ok hrun
  obtain ⟨hr, hshows, hsize⟩ := shows_alloc us ha hus hids
  exact ⟨hr, hshows, rfl, hsize⟩

/-! ### Cases and matches -/

def idsOf (ps : List (Unfolding × Unfolding)) : List (ElementId × ElementId) :=
  ps.map fun p => (p.1.id, p.2.id)

def below (ps : List (Unfolding × Unfolding)) : List ElementId := ps.flatMap fun p => p.1.ids ++ p.2.ids

theorem shows_allocClauses {ids : List ElementId}
    (h : Alternatives.allocClauses arm origin t (idsOf ps) = .ok (t', ids))
    (hps : ∀ p ∈ ps, t.Shows p.1 ∧ t.Shows p.2) :
    Retains t t' ∧ t'.size = t.size + ps.length ∧ ∃ us, us.map Unfolding.id = ids ∧
      (∀ u ∈ us, t'.Shows u) ∧ Forall₂ (fun p u => u = clauseOf arm p u.id) ps us := by
  induction ps generalizing t ids with
  | nil =>
    cases h
    exact ⟨.refl _, rfl, [], rfl, nofun, .nil⟩
  | cons p ps ih =>
    obtain ⟨⟨hc, ha⟩, hps⟩ := forall_mem_cons.mp hps
    simp only [idsOf, map_cons, Alternatives.allocClauses, bind_eq_ok_iff] at h
    obtain ⟨⟨t1, id⟩, halloc, ⟨t2, ids'⟩, hrest, ⟨⟩⟩ := h
    -- a clause has the origin of its condition
    have horigin : ((t.element? p.1.id).map Element.origin).getD origin = p.1.origin := by
      obtain ⟨e, he, hface⟩ := map_eq_some_iff.mp hc.face?
      rw [he]
      exact congrArg Prod.snd hface
    rw [horigin] at halloc
    obtain ⟨hr, hshows, hsize⟩ := shows_alloc [p.1, p.2] halloc (by simpa using ⟨hc, ha⟩) rfl
    have hps' : ∀ q ∈ ps, t1.Shows q.1 ∧ t1.Shows q.2 := fun q hq =>
      ⟨(hps q hq).1.retained hr, (hps q hq).2.retained hr⟩
    obtain ⟨hr', hsize', us, rfl, hus, hrow⟩ := ih hrest hps'
    refine ⟨hr.trans hr', by simp [hsize', hsize]; omega, clauseOf arm p id :: us, rfl, ?_, .cons rfl hrow⟩
    exact forall_mem_cons.mpr ⟨hshows.retained hr', hus⟩

theorem length_clauses {us : List Unfolding} (h : Forall₂ (fun p u => u = clauseOf arm p u.id) ps us) :
    (us.flatMap Unfolding.ids).length = ps.length + (below ps).length := by
  induction h with
  | nil => rfl
  | @cons p u _ _ hu _ ih =>
    rw [flatMap_cons, hu, clauseOf]
    simp [below] at ih ⊢
    omega

theorem draws_build {f : Unfolding} (hps : ∀ p ∈ ps, b.tree.Shows p.1 ∧ b.tree.Shows p.2)
    (hf : b.tree.Shows f) : Draws b (build (complete arm origin (idsOf ps) (some f.id))) fun b' id =>
      ∃ us, Forall₂ (fun p u => u = clauseOf arm p u.id) ps us ∧
        b'.tree.Shows (.node id (arm.construct (us.map Unfolding.id) f.id) origin (us ++ [f])) ∧
        b'.names = b.names ∧ b'.tree.size = b.tree.size + ps.length + 1 := by
  intro id b' hrun
  rw [build_apply] at hrun
  cases ha : (complete arm origin (idsOf ps) (some f.id)).build b.tree with
  | error fault =>
    rw [ha] at hrun
    cases hrun
  | ok r =>
    obtain ⟨t', id', fallback⟩ := r
    rw [ha] at hrun
    cases hrun
    obtain ⟨pairs, t1, ids, hpairs, hfallback, hclauses, hconstruct⟩ := Alternatives.allocAll_of_build ha
    obtain rfl := Alternatives.answered_injective hpairs
    cases hfallback
    obtain ⟨hr, hsize, us, rfl, hus, hrow⟩ := shows_allocClauses hclauses hps
    have hparts : ∀ u ∈ us ++ [f], t1.Shows u := by
      intro u hu
      rcases mem_append.mp hu with hu | hu
      · exact hus u hu
      · exact mem_singleton.mp hu ▸ hf.retained hr
    have hids : (us ++ [f]).map Unfolding.id = (arm.construct (us.map Unfolding.id) f.id).children := by
      rw [Kind.children, Alternatives.slots_construct]
      simp
    obtain ⟨hr', hshows, hsize'⟩ := shows_alloc (us ++ [f]) hconstruct hparts hids
    exact ⟨hr.trans hr', us, hrow, hshows, rfl, by rw [hsize', hsize]⟩

/-! ### Nodes -/

/-- An element and what is below it is what a node becomes, and all that is new. -/
def Drawn (n : Node) (b b' : Builder) (id : ElementId) : Prop :=
  ∃ u : Unfolding, b'.tree.Shows u ∧ u.id = id ∧ Lowered b.names n u b'.names ∧
    b'.tree.size = b.tree.size + u.ids.length

/-- Elements and what is below them are what `R` says, and all that is new. -/
abbrev DrawnRow (R : List Unfolding → Names → Prop) (b b' : Builder) (ids : List ElementId) : Prop :=
  ∃ us : List Unfolding, us.map Unfolding.id = ids ∧ (∀ u ∈ us, b'.tree.Shows u) ∧ R us b'.names ∧
    b'.tree.size = b.tree.size + (us.flatMap Unfolding.ids).length

def IsDrawn (n : Node) : Prop := ∀ b : Builder, Draws b (node n) (Drawn n b)

theorem draws_functionBody (h : IsDrawn body) : Draws b (functionBody body (node body)) fun b' id =>
    ∃ u m, b'.tree.Shows u ∧ u.id = id ∧ Body Lowered body b.names u m ∧ b'.names = m.exit ∧
      b'.tree.size = b.tree.size + u.ids.length := by
  unfold functionBody
  split
  · rename_i hform
    obtain ⟨form, o, parts⟩ := body
    cases hform
    refine (draws_leaving (h b)).imp ?_
    rintro b' id - ⟨b1, ⟨u, hu, rfl, hlowered, hsize⟩, -, htree, hnames⟩
    exact ⟨u, b1.names, htree ▸ hu, rfl, .block hlowered, hnames, htree ▸ hsize⟩
  · rename_i hform
    refine (h b).bind ?_
    rintro b1 _ - ⟨v, hv, rfl, hlowered, hsize1⟩
    refine (draws_alloc (k := .returns (some v.id)) _ [v] (by simpa using hv) rfl).bind ?_
    rintro b2 result - ⟨hresult, hnames2, hsize2⟩
    refine (draws_leaving (draws_alloc (k := .block [result]) _ _
      (forall_mem_singleton.mpr hresult) rfl)).imp ?_
    rintro b3 id - ⟨b', ⟨hblock, hnames', hsize'⟩, -, htree, hnames⟩
    refine ⟨_, b1.names, htree ▸ hblock, rfl, .value hform hlowered, ?_, ?_⟩
    · rw [hnames, hnames', hnames2]
    · rw [htree, hsize', hsize2, hsize1]
      simp
      omega

theorem draws_asFunction {name : String} {params : List String} {isClosure : Bool} (h : IsDrawn body) :
    Draws b (asFunction name params isClosure origin body (node body)) fun b' id =>
      ∃ u m, Body Lowered body (b.names.enter name) u m ∧ b'.names = m.exit ∧
        b'.tree.Shows (.node id (.function name params u.id isClosure []) origin [u]) ∧
        b'.tree.size = b.tree.size + (u.ids.length + 1) := by
  refine (draws_modifyNames _).bind ?_
  rintro b1 _ - ⟨htree, hnames1⟩
  refine (draws_functionBody h).bind ?_
  rintro b2 _ - ⟨u, m, hu, rfl, hbody, hnames2, hsize2⟩
  refine (draws_alloc (k := .function name params u.id isClosure []) origin [u]
    (forall_mem_singleton.mpr hu) rfl).imp ?_
  rintro b' id - ⟨hshows, hnames, hsize⟩
  exact ⟨u, m, hnames1 ▸ hbody, hnames.trans hnames2, hshows, by rw [hsize, hsize2, htree, Nat.add_assoc]⟩

theorem draws_nodes (hns : ∀ n ∈ ns, IsDrawn n) :
    Draws b (nodes ns) (DrawnRow (Row Lowered b.names ns) b) := by
  induction ns generalizing b with
  | nil => exact draws_pure ⟨[], rfl, nofun, .nil, rfl⟩
  | cons n ns ih =>
    obtain ⟨hn, hns⟩ := forall_mem_cons.mp hns
    rw [nodes]
    refine (hn b).bind ?_
    rintro b1 _ - ⟨u, hu, rfl, hlowered, hsize1⟩
    refine (ih hns).bind ?_
    rintro b2 _ hr ⟨us, rfl, hus, hrow, hsize2⟩
    refine draws_pure ⟨u :: us, rfl, forall_mem_cons.mpr ⟨hu.retained hr, hus⟩, .cons hlowered hrow, ?_⟩
    rw [hsize2, hsize1, flatMap_cons, length_append, Nat.add_assoc]

theorem draws_asStatement (hn : IsDrawn n) (hparts : ∀ part ∈ n.parts, IsDrawn part) (ns : List Node) :
    Draws b (asStatement n (node n) (firstPart n)) (DrawnRow (fun us m => ∀ vs m',
      StatementRow Lowered m ns vs m' → StatementRow Lowered b.names (n :: ns) (us ++ vs) m') b) := by
  have hsingle (hform : ∀ p, declaration? n.form = some p → ∀ value ∈ n.parts.head?, value.form ≠ .matchOf) :
      Draws b (do return [← node n]) (DrawnRow (fun us m => ∀ vs m',
        StatementRow Lowered m ns vs m' → StatementRow Lowered b.names (n :: ns) (us ++ vs) m') b) := by
    refine (hn b).bind ?_
    rintro b1 _ - ⟨u, hu, rfl, hlowered, hsize⟩
    exact draws_pure ⟨[u], rfl, forall_mem_singleton.mpr hu, fun vs m hvs => .one hform hlowered hvs,
      by simpa using hsize⟩
  unfold asStatement
  split
  · rename_i hnone
    exact hsingle fun p hp => by
      rw [hnone] at hp
      cases hp
  · rename_i name declaration hform
    split
    · exact draws_malformed
    · rename_i hmatch
      obtain ⟨form, o, parts⟩ := n
      obtain ⟨value, hvalue, hvalueForm⟩ := map_eq_some_iff.mp hmatch
      cases parts with
      | nil => cases hvalue
      | cons part rest =>
        cases hvalue
        refine (draws_alloc (k := .constant .null) o [] (forall_mem_nil _) rfl).bind ?_
        rintro b1 null - ⟨hnull, hnames1, hsize1⟩
        refine (draws_alloc (k := .assignment name (some declaration) null none false) o _
          (forall_mem_singleton.mpr hnull) rfl).bind ?_
        rintro b2 declared - ⟨hdeclared, hnames2, hsize2⟩
        refine (hparts value (.head _) b2).bind ?_
        rintro b3 _ hr3 ⟨v, hv, rfl, hlowered, hsize3⟩
        rw [hnames2, hnames1] at hlowered
        refine (draws_alloc (k := .assignment name none v.id none true) o [v]
          (forall_mem_singleton.mpr hv) rfl).bind ?_
        rintro b4 id hr4 ⟨hid, hnames4, hsize4⟩
        have hshows := forall_mem_cons.mpr
          ⟨(hdeclared.retained hr3).retained hr4, forall_mem_singleton.mpr hid⟩
        refine draws_pure ⟨_, rfl, hshows, fun vs m hvs => ?_, ?_⟩
        · exact .two (c := null) hform hvalueForm hlowered (hnames4 ▸ hvs)
        · rw [hsize4, hsize3, hsize2, hsize1]
          simp
          omega
    · rename_i form hother hform'
      refine hsingle fun p _ value hvalue heq => ?_
      rw [mem_def.mp hvalue, map_some, heq] at hform'
      exact hother (Option.some.inj hform').symm

theorem draws_statements (hns : ∀ n ∈ ns, IsDrawn n) (hparts : ∀ n ∈ ns, ∀ part ∈ n.parts, IsDrawn part) :
    Draws b (statements ns) (DrawnRow (StatementRow Lowered b.names ns) b) := by
  induction ns generalizing b with
  | nil => exact draws_pure ⟨[], rfl, nofun, .nil, rfl⟩
  | cons n ns ih =>
    obtain ⟨hn, hns⟩ := forall_mem_cons.mp hns
    obtain ⟨hpart, hparts⟩ := forall_mem_cons.mp hparts
    rw [statements]
    refine (draws_asStatement hn hpart ns).bind ?_
    rintro b1 _ - ⟨us, rfl, hus, hrow, hsize1⟩
    refine (ih hns hparts).bind ?_
    rintro b2 _ hr ⟨vs, rfl, hvs, hrest, hsize2⟩
    refine draws_pure ⟨us ++ vs, map_append, fun u hu => ?_, hrow vs _ hrest, ?_⟩
    · rcases mem_append.mp hu with hu | hu
      · exact (hus u hu).retained hr
      · exact hvs u hu
    · rw [hsize2, hsize1, flatMap_append, length_append, Nat.add_assoc]

theorem draws_clauses (ids : List (ElementId × ElementId)) (fallback : Option ElementId)
    (hparts : ∀ n ∈ ns, ∀ part ∈ n.parts, IsDrawn part) :
    Draws b (clauses (complete arm origin ids fallback) ns) fun b' a =>
      ∃ ps f, ClauseRow Lowered b.names ns ps f b'.names ∧ (∀ p ∈ ps, b'.tree.Shows p.1 ∧ b'.tree.Shows p.2) ∧
        (∀ u ∈ f, b'.tree.Shows u) ∧ (fallback.isSome = true → f = none) ∧
        a = complete arm origin (ids ++ idsOf ps) (fallback.or (f.map Unfolding.id)) ∧
        b'.tree.size = b.tree.size + (below ps).length + (f.toList.flatMap Unfolding.ids).length := by
  induction ns generalizing b ids fallback with
  | nil =>
    refine draws_pure ⟨[], none, .nil, by simp, by simp, fun _ => rfl, ?_, rfl⟩
    rw [idsOf, map_nil, append_nil, map_none, or_none]
  | cons n ns ih =>
    obtain ⟨hn, hrest⟩ := forall_mem_cons.mp hparts
    unfold clauses
    split
    · contradiction
    · exact draws_malformed
    · rename_i heq
      cases heq
      exact (hn _ (by simp [Node.parts]) b).bind fun _ _ _ _ => draws_malformed
    · rename_i heq
      cases heq
      refine (hn _ (by simp [Node.parts]) b).bind ?_
      rintro b1 _ - ⟨c, hc, rfl, hcondition, hsize1⟩
      refine (draws_asAction (hn _ (by simp [Node.parts]) b1)).bind ?_
      rintro b2 _ hr2 ⟨a, ha, rfl, haction, hsize2⟩
      have hadd : (complete arm origin ids fallback).addClause c.id a.id =
          complete arm origin (ids ++ [(c.id, a.id)]) fallback := by
        simp [complete, Alternatives.addClause]
      rw [hadd]
      refine (ih _ _ hrest).imp ?_
      rintro b' _ hr ⟨ps, f, hrow, hps, hf, hnone, rfl, hsize⟩
      refine ⟨(c, a) :: ps, f, .clause hcondition haction hrow, ?_, hf, hnone, ?_, ?_⟩
      · exact forall_mem_cons.mpr ⟨⟨(hc.retained hr2).retained hr, ha.retained hr⟩, hps⟩
      · rw [append_assoc]
        rfl
      · rw [hsize, hsize2, hsize1]
        simp [below]
        omega
    · exact draws_malformed
    · rename_i heq
      cases heq
      refine (draws_asAction (hn _ (by simp [Node.parts]) b)).bind ?_
      rintro b1 _ - ⟨a, ha, rfl, haction, hsize1⟩
      split
      · rename_i hset
        cases fallback with
        | some f => cases hset
        | none =>
          cases hset
          refine (ih ids (some a.id) hrest).imp ?_
          rintro b' _ hr ⟨ps, f, hrow, hps, hf, hnone, rfl, hsize⟩
          obtain rfl := hnone rfl
          refine ⟨ps, some a, .fallback haction hrow, hps, ?_, by simp, rfl, ?_⟩
          · rintro u ⟨⟩
            exact ha.retained hr
          · rw [hsize, hsize1]
            simp
            omega
      · exact draws_malformed
    · exact draws_malformed

theorem draws_alternatives (hform : form.arm? = some arm) (hparts : ∀ n ∈ ns, ∀ part ∈ n.parts, IsDrawn part) :
    Draws b (clauses { arm, origin } ns >>= finishAlternatives) (Drawn (.mk form origin ns) b) := by
  refine Draws.bind (draws_clauses [] none hparts) ?_
  rintro b1 _ - ⟨ps, f, hrow, hps, hf, -, rfl, hsize1⟩
  unfold finishAlternatives
  split_ifs with hempty hnone
  · exact draws_malformed
  · exact draws_malformed
  · cases f with
    | none => exact absurd rfl hnone
    | some f =>
      refine (draws_build hps (hf f rfl)).imp ?_
      rintro b' id - ⟨us, hus, hshows, hnames, hsize⟩
      refine ⟨_, hshows, rfl, .alternatives hform (hnames ▸ hrow) hus, ?_⟩
      rw [hsize, hsize1, Unfolding.ids_node, length_cons, flatMap_append, length_append,
        length_clauses hus]
      simp
      omega

theorem draws_value {value : Node} {k : ElementId → Kind} (hvalue : IsDrawn value)
    (hids : ∀ id, (k id).children = [id])
    (hlowered : ∀ i v m m', Lowered m value v m' → Lowered m n (.node i (k v.id) o [v]) m') :
    Draws b (node value >>= fun id => alloc (k id) o) (Drawn n b) := by
  refine (hvalue b).bind ?_
  rintro b1 _ - ⟨v, hv, rfl, hv', hsize1⟩
  refine (draws_alloc o [v] (forall_mem_singleton.mpr hv) (hids v.id).symm).imp ?_
  rintro b' id - ⟨hshows, hnames, hsize⟩
  exact ⟨_, hshows, rfl, hlowered id v _ _ (hnames ▸ hv'), by rw [hsize, hsize1]; simp; omega⟩

theorem draws_pair {left right : Node} {k : ElementId → ElementId → Kind} (hleft : IsDrawn left)
    (hright : ∀ b, Draws b step (Drawn right b)) (hids : ∀ l r, (k l r).children = [l, r])
    (hlowered : ∀ i l r m m1 m', Lowered m left l m1 → Lowered m1 right r m' →
      Lowered m n (.node i (k l.id r.id) o [l, r]) m') :
    Draws b (node left >>= fun l => step >>= fun r => alloc (k l r) o) (Drawn n b) := by
  refine (hleft b).bind ?_
  rintro b1 _ - ⟨l, hl, rfl, hl', hsize1⟩
  refine (hright b1).bind ?_
  rintro b2 _ hr2 ⟨r, hr, rfl, hr', hsize2⟩
  refine (draws_alloc o [l, r] (by simpa using ⟨hl.retained hr2, hr⟩) (hids l.id r.id).symm).imp ?_
  rintro b' id - ⟨hshows, hnames, hsize⟩
  exact ⟨_, hshows, rfl, hlowered id l r _ _ _ hl' (hnames ▸ hr'), by rw [hsize, hsize2, hsize1]; simp; omega⟩

theorem draws_leaf (hids : k.children = []) (hlowered : ∀ i m, Lowered m n (.node i k o []) m) :
    Draws b (alloc k o) (Drawn n b) := by
  refine (draws_alloc o [] (forall_mem_nil _) hids.symm).imp ?_
  rintro b' id - ⟨hshows, hnames, hsize⟩
  exact ⟨_, hshows, rfl, hnames ▸ hlowered id _, by simpa using hsize⟩

theorem draws_row (us : List Unfolding) (hids : us.map Unfolding.id = k.children)
    {b1 : Builder} (hus : ∀ u ∈ us, b1.tree.Shows u)
    (hlowered : ∀ i, Lowered b.names n (.node i k o us) b1.names)
    (hsize1 : b1.tree.size = b.tree.size + (us.flatMap Unfolding.ids).length) :
    Draws b1 (alloc k o) (Drawn n b) := by
  refine (draws_alloc o us hus hids).imp ?_
  rintro b' id - ⟨hshows, hnames, hsize⟩
  exact ⟨_, hshows, rfl, hnames ▸ hlowered id, by rw [hsize, hsize1]; simp; omega⟩

theorem drawn_of_node (n : Node) : IsDrawn n ∧ ∀ part ∈ n.parts, IsDrawn part := by
  induction n with
  | mk form origin parts ih =>
    have hparts : ∀ part ∈ parts, IsDrawn part := fun part hm => (ih part hm).1
    have hinner : ∀ part ∈ parts, ∀ p ∈ part.parts, IsDrawn p := fun part hm => (ih part hm).2
    refine ⟨fun b => ?_, hparts⟩
    have hnode : ∀ {part : Node}, part ∈ parts → IsDrawn part := fun hm => hparts _ hm
    unfold node
    split
    -- functions and blocks
    · exact draws_malformed
    · refine (draws_asFunction (hnode (by simp))).imp ?_
      rintro b' id - ⟨u, m, hbody, hnames, hshows, hsize⟩
      exact ⟨_, hshows, rfl, hnames ▸ .function hbody, by simpa using hsize⟩
    · refine (draws_statements hparts hinner).bind ?_
      rintro b1 _ - ⟨us, rfl, hus, hrow, hsize⟩
      exact draws_row us (by simp [Kind.children, Kind.slots]) hus (fun _ => .block hrow) hsize
    -- assignments and returns
    · exact draws_value (hnode (by simp)) (fun _ => rfl) fun _ _ _ _ => .declaration rfl
    · exact draws_value (hnode (by simp)) (fun _ => rfl) fun _ _ _ _ => .declaration rfl
    · exact draws_value (hnode (by simp)) (fun _ => rfl) fun _ _ _ _ => .assign
    · exact draws_leaf rfl fun _ _ => .returnsNothing
    · exact draws_value (hnode (by simp)) (fun _ => rfl) fun _ _ _ _ => .returns
    -- conditionals and loops
    · exact (hnode (by simp) b).bind fun _ _ _ _ => draws_malformed
    · exact draws_pair (hnode (by simp)) (fun b => draws_asBlock (hnode (by simp) b)) (fun _ _ => rfl)
        fun _ _ _ _ _ _ => .conditional
    · refine (hnode (by simp) b).bind ?_
      rintro b1 _ - ⟨c, hc, rfl, hc', hsize1⟩
      refine (draws_asBlock (hnode (by simp) b1)).bind ?_
      rintro b2 _ hr2 ⟨a, ha, rfl, ha', hsize2⟩
      refine (draws_asElse (hnode (by simp) b2)).bind ?_
      rintro b3 _ hr3 ⟨e, he, rfl, he', hsize3⟩
      exact draws_row [c, a, e] rfl (by simpa using ⟨(hc.retained hr2).retained hr3, ha.retained hr3, he⟩)
        (fun _ => .conditionalElse hc' ha' he') (by rw [hsize3, hsize2, hsize1]; simp; omega)
    · exact (hnode (by simp) b).bind fun _ _ _ _ => draws_malformed
    · exact draws_pair (hnode (by simp)) (fun b => draws_asBlock (hnode (by simp) b)) (fun _ _ => rfl)
        fun _ _ _ _ _ _ => .loop
    -- cases and matches
    · exact draws_alternatives rfl hinner
    · exact draws_alternatives rfl hinner
    · exact draws_malformed
    · exact draws_malformed
    -- operators and calls
    · split
      · exact draws_malformed
      · exact draws_malformed
      · exact (hnode (by simp) b).bind fun _ _ _ _ => draws_malformed
      · rename_i hoperator
        exact draws_pair (hnode (by simp)) (hnode (by simp)) (fun _ _ => rfl)
          fun _ _ _ _ _ _ => .binary hoperator
    · split
      · exact draws_malformed
      · exact draws_malformed
      · rename_i hoperator
        exact draws_value (hnode (by simp)) (fun _ => rfl) fun _ _ _ _ => .unary hoperator
    · refine (draws_nodes hparts).bind ?_
      rintro b1 _ - ⟨us, rfl, hus, hrow, hsize⟩
      exact draws_row us (by simp [Kind.children, Kind.slots]) hus (fun _ => .call hrow) hsize
    -- closures
    · exact draws_malformed
    · refine draws_closureName.bind ?_
      rintro b1 name - ⟨htree, rfl, hnames1⟩
      refine (draws_asFunction (hnode (by simp))).bind ?_
      rintro b2 f - ⟨u, m, hbody, hnames2, hshows, hsize2⟩
      rw [hnames1] at hbody
      refine draws_row [_] rfl (forall_mem_singleton.mpr hshows) (fun _ => ?_) ?_
      · rw [hnames2]
        exact .closure hbody
      · rw [hsize2, htree]
        simp
    -- leaves, and what is malformed
    all_goals first | exact draws_malformed | exact draws_leaf rfl fun _ _ => .leaf rfl

theorem change_eq_ok {f : Tree → Except Fault Tree} {a : Unit} (h : change f b = .ok a b') :
    ∃ t, f b.tree = .ok t ∧ b' = { b with tree := t } := by
  rw [change_apply] at h
  cases hf : f b.tree with
  | ok t =>
    rw [hf] at h
    cases h
    exact ⟨t, rfl, rfl⟩
  | error fault =>
    rw [hf] at h
    cases h

theorem unit_eq_ok (hrun : unit u b = .ok t b') :
    ∃ functions b1 id b2, nodes u.functions ⟨.empty u.file, {}, b.journal⟩ = .ok functions b1 ∧
      alloc (.module u.name functions) ⟨u.location, none⟩ b1 = .ok id b2 ∧
      b2.tree.setRoot id = .ok t ∧ t = { b2.tree with root := some id } := by
  unfold unit at hrun
  obtain ⟨_, _, hstart, hrun⟩ := bind_ok_iff.mp hrun
  cases hstart
  obtain ⟨functions, b1, hnodes, hrun⟩ := bind_ok_iff.mp hrun
  obtain ⟨id, b2, halloc, hrun⟩ := bind_ok_iff.mp hrun
  obtain ⟨_, b3, hroot, hrun⟩ := bind_ok_iff.mp hrun
  obtain ⟨t3, hset, rfl⟩ := change_eq_ok hroot
  obtain ⟨_, b4, hvalidate, hrun⟩ := bind_ok_iff.mp hrun
  obtain ⟨t4, hkept, rfl⟩ := change_eq_ok hvalidate
  obtain ⟨-, -, heq⟩ := bind_eq_ok_iff.mp hkept
  cases heq
  cases hrun
  exact ⟨functions, b1, id, b2, hnodes, halloc, hset, eq_of_setRoot hset⟩

theorem unit_owned {b : Builder} (hrun : unit u b = .ok t b') : t.Owned := by
  obtain ⟨functions, b1, id, b2, hnodes, halloc, hset, -⟩ := unit_eq_ok hrun
  obtain ⟨hr, -⟩ := draws_nodes (fun n _ => (drawn_of_node n).1) _ _ hnodes
  obtain ⟨t', ha, rfl⟩ := alloc_eq_ok halloc
  exact ((hr.owned (empty_owned _)).alloc ha).setRoot hset

/-- A unit is lowered to a module with what its functions become, in order, and nothing else.  Every element
holds elements before it, and the module is the last one. -/
theorem unit_drawn {b : Builder} (hrun : unit u b = .ok t b') :
    ∃ i us m, t.unfoldRoot = some (.node i (.module u.name (us.map Unfolding.id)) ⟨u.location, none⟩ us) ∧
      Row Lowered {} u.functions us m ∧ t.size = i + 1 ∧ t.size = (us.flatMap Unfolding.ids).length + 1 ∧
      ∀ o k c, t.kind? o = some k → c ∈ k.children → c < o := by
  have howned := unit_owned hrun
  obtain ⟨functions, b1, id, b2, hnodes, halloc, -, rfl⟩ := unit_eq_ok hrun
  obtain ⟨hr1, us, rfl, hus, hrow, hsize1⟩ := draws_nodes (fun n _ => (drawn_of_node n).1) _ _ hnodes
  obtain ⟨hr2, hshows, -, hsize2⟩ := draws_alloc (k := .module u.name (us.map Unfolding.id)) _ us hus
    (by simp [Kind.children, Kind.slots]) _ _ halloc
  obtain ⟨t', ha, rfl⟩ := alloc_eq_ok halloc
  obtain ⟨-, ⟨⟩⟩ := alloc_eq_ok_iff.mp ha
  refine ⟨_, us, b1.names, howned.unfoldRoot_eq_some_iff.mpr ⟨?_, rfl⟩, hrow, hsize2, ?_, ?_⟩
  · exact hshows.congr fun _ _ => rfl
  · have hempty : (Tree.empty u.file).size = 0 := rfl
    refine hsize2.trans ?_
    rw [hsize1, hempty, Nat.zero_add]
  · intro o k c hk hc
    obtain ⟨e, he, rfl⟩ := map_eq_some_iff.mp hk
    exact (hr1.trans hr2).held o _ (face?_of_element? he) (Nat.zero_le _) c hc

theorem exists_unfoldRoot_of_unit {b : Builder} (hrun : unit u b = .ok t b') :
    ∃ i us, t.unfoldRoot = some (.node i (.module u.name (us.map Unfolding.id)) ⟨u.location, none⟩ us) ∧
      Forall₂ IsLowered u.functions us := by
  obtain ⟨i, us, _, hroot, hrow, -⟩ := unit_drawn hrun
  exact ⟨i, us, hroot, hrow.isLowered⟩

end Lower

end Clausal
