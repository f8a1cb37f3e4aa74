import Clausal.Proofs.Printing.Expressions

/-! # Reading operands and operators

`Reads M L ws n` says that the grammar reads these words at level `M` as the syntax `n`, in front of any text
that starts with no operator of level `L` or tighter.  Such a reading passes to every looser level
(`Reads.descend`).  Operands of one level are read from the left: -/

namespace Clausal.Printing

open Grammar Grammar.Pattern List Cursor
open Ast (Node Reader)

/-! ### The syntax of a parse -/

/-- The parse is read as this syntax, up to the places that it came from. -/
def Denotes (reader : Reader) (p : Parse) (n : Node) : Prop :=
  ∀ file, ∃ n', Ast.read file reader p = .ok n' ∧ n'.bare = n

theorem Denotes.all {reader : Reader} {ps : List Parse} {ns : List Node} (h : Forall₂ (Denotes reader) ps ns)
    (file : String) : ∃ ns', Ast.readAll file reader ps = .ok ns' ∧ Node.bareAll ns' = ns := by
  induction h with
  | nil => exact ⟨[], by rw [Ast.readAll]; rfl, rfl⟩
  | cons hp _ ih =>
    obtain ⟨n', hn', rfl⟩ := hp file
    obtain ⟨ns', hns', rfl⟩ := ih
    exact ⟨n' :: ns', by rw [Ast.readAll, hn', hns']; rfl, rfl⟩

/-- Rules that an expression has no case for. -/
theorem Denotes.rule_ne {p : Parse} {n : Node} (h : Denotes .expression p n) :
    p.rule ≠ .unaryOp ∧ p.rule ≠ .block ∧ p.rule ≠ .paramList := by
  obtain ⟨_, _, _, _⟩ := p
  obtain ⟨n', hn', -⟩ := h ""
  refine ⟨?_, ?_, ?_⟩ <;>
  · rintro ⟨⟩
    simp [Ast.read] at hn'

theorem readChain_nil (file : String) (o : Origin) (n : Node) : Ast.readChain file o n [] = .ok n := by
  rw [Ast.readChain]
  rfl

variable {r : Node}

theorem readChain_cons {file : String} {o : Origin} {right : Parse}
    (h : Ast.read file .expression right = .ok r) (l : Node) (op : Parse) (more : List Parse) :
    Ast.readChain file o l (op :: right :: more) =
      Ast.readChain file o (.mk (.binary op.text) (op.origin file) [l, r]) more := by
  rw [Ast.readChain, h]
  rfl

/-! ### The grammar by levels -/

namespace Tier

def rule : Tier → Rule
  | disjunction => .orExpr
  | conjunction => .andExpr
  | comparison => .comparison
  | sum => .additive
  | product => .multiplicative

def operator : Tier → Rule
  | disjunction => .orOp
  | conjunction => .andOp
  | comparison => .comparisonOp
  | sum => .additiveOp
  | product => .multiplicativeOp

theorem spacing_rule (t : Tier) : t.rule.spacing = .inherited := by cases t <;> rfl

theorem read_rule (t : Tier) (file : String) (start stop : Cursor) (first : Parse) (more : List Parse) :
    Ast.read file .expression (.node t.rule start stop (first :: more)) =
      (Ast.read file .expression first).bind fun n =>
        Ast.readChain file ((Parse.node t.rule start stop []).origin file) n more := by
  cases t <;>
  · simp only [rule, Ast.read]
    rfl

end Tier

def Level.pattern : Level → Pattern
  | whole => .rule .expression
  | binary t => .rule t.rule
  | sign => .rule .unary
  | atom => Rule.primary

namespace Tier

def round (t : Tier) : Pattern := .seq (.rule t.operator) (Level.binary t).next.pattern

theorem body_rule {t : Tier} (h : t ≠ .comparison) :
    t.rule.body = .seq (Level.binary t).next.pattern (.many t.round) := by
  cases t <;> first | rfl | exact absurd rfl h

end Tier

/-- The text starts with no bracket and no operator of this level or tighter. -/
def Level.Blocks (L : Level) (cs : List Char) : Prop :=
  ¬ "(".toList <+: cs ∧ ∀ op : Operator, L ≤ .binary op.tier → ¬ op.symbol.toList <+: cs

variable {L' L M : Level} {cs rest : List Char} {k : Cursor} {w : Word} {ws vs : List Word} {n l : Node}
  {t : Tier} {op : Operator}

theorem Level.Blocks.mono {L : Level} (h : L.Blocks cs) (hle : L ≤ L') : L'.Blocks cs :=
  ⟨h.1, fun op hop => h.2 op (Nat.le_trans hle hop)⟩

/-- Whether a word is neither a bracket nor an operator of this level or tighter. -/
def Level.stops (L : Level) (cs : List Char) : Bool :=
  !"(".toList.isPrefixOf cs && Operator.all.all fun op => !(L ≤ .binary op.tier) || !op.symbol.toList.isPrefixOf cs

theorem Operator.no_blank (op : Operator) : ∀ c ∈ op.symbol.toList, (c != ' ') = true := by
  cases op <;> decide

theorem Level.blocks_of_stops {L : Level} {rest : List Char} (h : L.stops cs = true) :
    L.Blocks (cs ++ ' ' :: rest) := by
  simp only [stops, Bool.and_eq_true, all_eq_true, Bool.or_eq_true, Bool.not_eq_true'] at h
  obtain ⟨hbracket, hops⟩ := h
  have hblank : ∀ c ∈ (' ' :: rest).head?, (c != ' ') = false := by rintro _ ⟨⟩; rfl
  refine ⟨fun hpre => ?_, fun op hop hpre => ?_⟩
  · have := prefix_of_class hpre (by decide) hblank
    cases hbracket.symm.trans <| isPrefixOf_iff_prefix.mpr this
  · have := prefix_of_class hpre op.no_blank hblank
    rcases hops op op.mem_all with hno | hno
    · exact absurd hop (of_decide_eq_false hno)
    · cases hno.symm.trans <| isPrefixOf_iff_prefix.mpr this

theorem Level.blocks_layout {L : Level} {w : Word} (h : L.stops w.chars = true) (ws : List Word) (rest : List Char) :
    L.Blocks (layout (w :: ws) ++ rest) := by
  rw [layout, append_assoc]
  exact blocks_of_stops h

theorem Operator.blocks (op : Operator) (ws : List Word) (rest : List Char) :
    op.rightLevel.Blocks (layout (op.word :: ws) ++ rest) :=
  Level.blocks_layout (by cases op <;> decide) ws rest

/-! ### Operators -/

theorem spans_signs {r : Rule} {u : String} (s : String) (ss : List String) (hbody : r.body = firstOf (word s) (ss.map word))
    (hr : r.spacing = .inherited) (hk : k.At (w :: ws) rest) (hw : w.chars = u.toList)
    (hfind : (s :: ss).find? (·.toList.isPrefixOf (u.toList ++ ' ' :: (layout ws ++ rest))) = some u) :
    Spans (.rule r) {} k (k.after [w]) [.node r k (k.beyond w.chars) []] := by
  have hanswers := answers_firstOf s ss {} k
  rw [hk.head, hw, hfind, ← hbody, ← Mode.inside_of_inherited hr {}, ← Mode.around_of_inherited hr {}] at hanswers
  have hrule := hanswers.rule
  rw [Mode.around_of_inherited hr] at hrule
  rw [hw]
  exact Answers.spans_word (hw.symm ▸ hrule) hk

theorem spans_operator (op : Operator) (hk : k.At (op.word :: ws) rest) :
    Spans (.rule op.tier.operator) {} k (k.after [op.word]) [.node op.tier.operator k (k.beyond op.word.chars) []] := by
  cases op with
  | or => exact spans_readsWhole Rule.readsWhole_orOp (.head _) hk rfl
  | and => exact spans_readsWhole Rule.readsWhole_andOp (.head _) hk rfl
  | equal | unequal | atMost | atLeast | less | greater =>
    exact spans_signs "==" ["!=", "<=", ">=", "<", ">"] rfl rfl hk rfl rfl
  | plus | minus => exact spans_signs "+" ["-"] rfl rfl hk rfl rfl
  | times | divided | modulo => exact spans_signs "*" ["/", "%"] rfl rfl hk rfl rfl

theorem fails_operator (hk : k.At [] rest) (h : (Level.binary t).Blocks rest) : Fails (.rule t.operator) {} k := by
  have hno : ∀ (m : Mode) (op : Operator), op.tier = t → Fails (word op.symbol) m k := fun m op hop =>
    fails_word (by rw [hk.rest_eq]; exact h.2 op (hop ▸ Nat.le_refl _))
  cases t with
  | disjunction => exact Fails.rule (Fails.seq (hno _ .or rfl))
  | conjunction => exact Fails.rule (Fails.seq (hno _ .and rfl))
  | comparison =>
    exact Fails.rule ((hno _ .equal rfl).choice ((hno _ .unequal rfl).choice ((hno _ .atMost rfl).choice
      ((hno _ .atLeast rfl).choice ((hno _ .less rfl).choice (hno _ .greater rfl))))))
  | sum => exact Fails.rule ((hno _ .plus rfl).choice (hno _ .minus rfl))
  | product => exact Fails.rule ((hno _ .times rfl).choice ((hno _ .divided rfl).choice (hno _ .modulo rfl)))

/-! ### Levels of reading -/

/-- At level `M`, the words are read as this syntax in front of every text that starts with no operator of level `L` or
tighter. -/
def Reads (M L : Level) (ws : List Word) (n : Node) : Prop :=
  ∀ ⦃k rest⦄, At k ws rest → L.Blocks rest → ∃ p, Spans M.pattern {} k (k.after ws) [p] ∧ Denotes .expression p n

theorem Reads.mono (h : Reads M L' ws n) (hle : L ≤ L') : Reads M L ws n := fun _ _ hk hrest =>
  h hk (hrest.mono hle)

theorem Reads.whole (h : Reads (.binary .disjunction) L ws n) : Reads .whole L ws n := by
  intro k rest hk hrest
  obtain ⟨p, hp, hn⟩ := h hk hrest
  obtain ⟨stop, hrule⟩ := Spans.exists_node (r := .expression) rfl hp
  refine ⟨_, hrule, fun file => ?_⟩
  simp only [Ast.read]
  exact hn file

theorem fails_round (hk : k.At [] rest) (h : (Level.binary t).Blocks rest) : Fails t.round {} k :=
  Fails.seq (fails_operator hk h)

theorem Reads.binary (h : Reads (Level.binary t).next L ws n) (hle : L ≤ .binary t) : Reads (.binary t) L ws n := by
  intro k rest hk hrest
  obtain ⟨p, hp, hn⟩ := h hk hrest
  have hend := hk.nil
  have hfails := fails_round hend (hrest.mono hle)
  have hbody : Spans t.rule.body {} k (k.after ws) [p] := by
    by_cases ht : t = .comparison
    · subst ht
      exact hp.seq (hfails.spans_optional hend.skip_eq)
    · rw [Tier.body_rule ht]
      exact hp.seq (hfails.spans_many hend.skip_eq)
  obtain ⟨stop, hrule⟩ := Spans.exists_node t.spacing_rule hbody
  refine ⟨_, hrule, fun file => ?_⟩
  obtain ⟨n', hn', hbare⟩ := hn file
  refine ⟨n', ?_, hbare⟩
  simp only [Tier.read_rule, hn', Except.bind, readChain_nil]

theorem bare_binary (file : String) {l' r' : Node} {opNode : Parse} (htext : opNode.text = op.symbol)
    (hl : l'.bare = l) (hr : r'.bare = r) :
    (Node.mk (.binary opNode.text) (opNode.origin file) [l', r']).bare = built (.binary op.symbol) [l, r] := by
  rw [htext, ← hl, ← hr]
  rfl

theorem text_operator (op : Operator) (hk : k.At (op.word :: ws) rest) :
    (Parse.node op.tier.operator k (k.beyond op.word.chars) []).text = op.symbol := by
  rw [Parse.text_node hk.head]
  exact String.ofList_toList

theorem spans_round (h : Reads op.rightLevel op.rightLevel ws n) (hk : k.At (op.word :: ws) rest)
    (hrest : op.rightLevel.Blocks rest) : ∃ opNode right, opNode.text = op.symbol ∧
      Spans op.tier.round {} k (k.after (op.word :: ws)) [opNode, right] ∧ Denotes .expression right n := by
  obtain ⟨right, hright, hn⟩ := h hk.next hrest
  refine ⟨_, right, text_operator op hk, ?_, hn⟩
  rw [after_cons]
  exact (spans_operator op hk).seq hright

/-- The words are a chain of operands of one level, grouped to the left, and further operands can follow. -/
def Chained (t : Tier) (ws : List Word) (n : Node) : Prop :=
  ∀ ⦃k rest⦄, At k ws rest → (Level.binary t).next.Blocks rest → ∃ k1 first rounds,
    Spans (Level.binary t).next.pattern {} k k1 [first] ∧
    (∀ ⦃k2 more⦄, Spans (.many t.round) {} (k.after ws) k2 more → Spans (.many t.round) {} k1 k2 (rounds ++ more)) ∧
    ∀ file, ∃ n1 n', Ast.read file .expression first = .ok n1 ∧ n'.bare = n ∧
      ∀ o more, Ast.readChain file o n1 (rounds ++ more) = Ast.readChain file o n' more

theorem Reads.chained (h : Reads (Level.binary t).next (Level.binary t).next ws n) : Chained t ws n := by
  intro k rest hk hrest
  obtain ⟨p, hp, hn⟩ := h hk hrest
  refine ⟨k.after ws, p, [], hp, fun _ _ => id, fun file => ?_⟩
  obtain ⟨n', hn', hbare⟩ := hn file
  exact ⟨n', n', hn', hbare, fun _ _ => rfl⟩

theorem Chained.binary (hl : Chained op.tier vs l) (hr : Reads op.rightLevel op.rightLevel ws r) :
    Chained op.tier (vs ++ op.word :: ws) (built (.binary op.symbol) [l, r]) := by
  intro k rest hk hrest
  obtain ⟨k1, first, rounds, hfirst, hgoes, hchain⟩ := hl hk.left (op.blocks ws rest)
  obtain ⟨opNode, right, htext, hround, hright⟩ := spans_round hr hk.after hrest
  rw [← after_append] at hround
  refine ⟨k1, first, rounds ++ [opNode, right], hfirst, fun _ _ hmore => ?_, fun file => ?_⟩
  · rw [append_assoc]
    exact hgoes (hround.many hmore)
  · obtain ⟨n1, l', hn1, hl', hleft⟩ := hchain file
    obtain ⟨r', hr', hbare⟩ := hright file
    refine ⟨n1, _, hn1, bare_binary file htext hl' hbare, fun o more => ?_⟩
    rw [append_assoc, hleft]
    exact readChain_cons hr' l' opNode more

theorem Chained.reads (h : Chained t ws n) (ht : t ≠ .comparison) : Reads (.binary t) (.binary t) ws n := by
  intro k rest hk hrest
  have hend := hk.nil
  have hnext : (Level.binary t).next.Blocks rest := hrest.mono (by cases t <;> decide)
  obtain ⟨k1, first, rounds, hfirst, hgoes, hchain⟩ := h hk hnext
  have hrounds := hgoes ((fails_round hend hrest).spans_many hend.skip_eq)
  have hbody : Spans t.rule.body {} k (k.after ws) (first :: (rounds ++ [])) := by
    rw [Tier.body_rule ht]
    exact hfirst.seq hrounds
  obtain ⟨stop, hrule⟩ := Spans.exists_node t.spacing_rule hbody
  refine ⟨_, hrule, fun file => ?_⟩
  obtain ⟨n1, n', hn1, hbare, hall⟩ := hchain file
  refine ⟨n', ?_, hbare⟩
  simp only [Tier.read_rule, hn1, Except.bind, hall, readChain_nil]

theorem Reads.comparison (ht : op.tier = .comparison) (hl : Reads op.rightLevel op.rightLevel vs l)
    (hr : Reads op.rightLevel op.rightLevel ws r) :
    Reads (.binary op.tier) (.binary op.tier) (vs ++ op.word :: ws) (built (.binary op.symbol) [l, r]) := by
  intro k rest hk hrest
  have hnext : op.rightLevel.Blocks rest := hrest.mono (by rw [Operator.rightLevel]; cases op.tier <;> decide)
  obtain ⟨first, hfirst, hleft⟩ := hl hk.left (op.blocks ws rest)
  obtain ⟨opNode, right, htext, hround, hright⟩ := spans_round hr hk.after hnext
  rw [← after_append] at hround
  have hbody : Spans op.tier.rule.body {} k (k.after (vs ++ op.word :: ws)) [first, opNode, right] := by
    rw [Operator.rightLevel, ht] at hfirst
    rw [ht] at hround ⊢
    exact hfirst.seq hround.optional
  obtain ⟨stop, hrule⟩ := Spans.exists_node op.tier.spacing_rule hbody
  refine ⟨_, hrule, fun file => ?_⟩
  obtain ⟨l', hl', hbare⟩ := hleft file
  obtain ⟨r', hr', hbare'⟩ := hright file
  refine ⟨_, ?_, bare_binary file htext hbare hbare'⟩
  simp only [Tier.read_rule, hl', Except.bind, readChain_cons hr', readChain_nil]

/-! ### Operators in front of an operand -/

/-- The words start with no operator and are read as an expression without operators. -/
def Atomic (L : Level) (ws : List Word) (n : Node) : Prop :=
  ∀ ⦃k rest⦄, At k ws rest → L.Blocks rest →
    Fails (.rule .unaryOp) {} k ∧ ∃ p, Spans Rule.primary {} k (k.after ws) [p] ∧ Denotes .expression p n

def Signed (L : Level) (ws : List Word) (n : Node) : Prop :=
  ∀ ⦃k rest⦄, At k ws rest → L.Blocks rest → ∃ k1 operators operand,
    Spans (.many (.rule .unaryOp)) {} k k1 operators ∧ Spans Rule.primary {} k1 (k.after ws) [operand] ∧
    ∀ file o before, ∃ n', Ast.readUnary file o before none (operators ++ [operand]) =
      .ok (Ast.prefixed file n' before) ∧ n'.bare = n

theorem Atomic.signed (h : Atomic L ws n) : Signed L ws n := by
  intro k rest hk hrest
  obtain ⟨hnone, p, hp, hn⟩ := h hk hrest
  refine ⟨k, [], p, hnone.spans_many hk.skip_eq, hp, fun file o before => ?_⟩
  obtain ⟨n', hn', hbare⟩ := hn file
  refine ⟨n', ?_, hbare⟩
  simp only [nil_append, Ast.readUnary, if_neg hn.rule_ne.1, hn']
  rfl

theorem spans_sign_operator (s : Sign) (hk : k.At (s.word :: ws) rest) :
    ∃ op : Parse, Spans (.rule .unaryOp) {} k (k.after [s.word]) [op] ∧ op.rule = .unaryOp ∧ op.text = s.symbol := by
  have hbody : ∃ parts, Answers Rule.unaryOp.body {} k (.matched (k.beyond s.word.chars) parts) := by
    cases s with
    | minus => exact ⟨[], (answers_word (s := "-") hk.head).choice_left⟩
    | not =>
      have hminus : Fails (word "-") {} k := fails_word (by rw [hk.head]; rintro ⟨_, h⟩; cases h)
      have hnot := Rule.readsWhole_notOp.answers {} (.head _) hk.head (by rintro _ ⟨⟩; rfl)
      exact ⟨_, hminus.choice hnot⟩
  obtain ⟨parts, hbody⟩ := hbody
  refine ⟨.node .unaryOp k (k.beyond s.word.chars) parts, Answers.spans_word (Answers.rule hbody) hk, rfl, ?_⟩
  rw [Parse.text_node hk.head]
  exact String.ofList_toList

theorem Signed.mono (h : Signed L' ws n) (hle : L ≤ L') : Signed L ws n := fun _ _ hk hrest =>
  h hk (hrest.mono hle)

theorem Signed.unary (h : Signed L ws n) (s : Sign) : Signed L (s.word :: ws) (built (.unary s.symbol) [n]) := by
  intro k rest hk hrest
  obtain ⟨k1, operators, operand, hops, hoperand, hn⟩ := h hk.next hrest
  obtain ⟨op, hop, hrule, htext⟩ := spans_sign_operator s hk
  rw [← after_cons] at hoperand
  refine ⟨k1, op :: operators, operand, hop.many hops, hoperand, fun file o before => ?_⟩
  obtain ⟨n', hn', hbare⟩ := hn file o (before ++ [op])
  refine ⟨.mk (.unary op.text) (op.origin file) [n'], ?_, ?_⟩
  · rw [cons_append, Ast.readUnary, if_pos hrule, hn', Ast.prefixed, Ast.prefixed, foldr_append]
    rfl
  · rw [htext, ← hbare]
    rfl

theorem Signed.reads (h : Signed L ws n) : Reads .sign L ws n := by
  intro k rest hk hrest
  obtain ⟨k1, operators, operand, hops, hoperand, hn⟩ := h hk hrest
  obtain ⟨stop, hrule⟩ := Spans.exists_node (r := .unary) rfl (hops.seq hoperand)
  refine ⟨_, hrule, fun file => ?_⟩
  obtain ⟨n', hn', hbare⟩ := hn file ((Parse.node .unary k stop []).origin file) []
  refine ⟨n', ?_, hbare⟩
  simp only [Ast.read]
  exact hn'

theorem Reads.descend {H : Level} (h : Reads H L ws n) (hlow : L ≤ M) (hle : M ≤ H) (hhigh : H ≤ .sign) :
    Reads M L ws n := by
  refine Level.descend (P := fun M => Reads M L ws n) hle h fun M' hM' hlt hnext => ?_
  cases M' with
  | whole => exact hnext.whole
  | binary t => exact hnext.binary (Nat.le_trans hlow hM')
  | sign => exact absurd hhigh hlt
  | atom => exact absurd (Nat.le_trans hhigh (by decide)) hlt

theorem Reads.loosen (h : Reads M M ws n) (hle : L ≤ M) (hM : M ≤ .sign) : Reads L L ws n :=
  (h.mono hle).descend (Nat.le_refl _) hle hM

end Clausal.Printing
