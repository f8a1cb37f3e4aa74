import Clausal.Proofs.Printing.Operands

/-! # Reading what was printed -/

namespace Clausal.Printing

open Grammar Grammar.Pattern List Fails Rule Cursor
open Ast (Node Reader)

variable {k k' stop start : Cursor} {w : Word} {ws : List Word} {rest cs : List Char} {n : Node} {L M : Level}
  {c : Char} {m : Mode} {ps parts : List Parse} {form : Ast.Form} {ns : List Node} {i : Nat} {xs : List Name}
  {r : Rule} {s : String} {es : List Expr} {e : Expr} {t : Tier}

/-! ### How expressions start -/

theorem not_prefix_of_head (s : String) (hcs : cs.head? = some c) (hs : s.toList.head? ≠ some c)
    (hne : s.toList ≠ []) : ¬ s.toList <+: cs := by
  obtain ⟨d, ds, hd⟩ := exists_cons_of_ne_nil hne
  rw [hd] at hs ⊢
  rintro ⟨r, rfl⟩
  exact hs hcs

theorem not_prefix_word (s : String) (hk : k.At (w :: ws) rest) (hblank : ∀ c ∈ s.toList, (c != ' ') = true)
    (h : s.toList.isPrefixOf w.chars = false) : ¬ s.toList <+: k.rest := fun hpre => by
  rw [hk.head] at hpre
  have hword := prefix_of_class hpre hblank (by rintro _ ⟨⟩; rfl)
  cases h.symm.trans <| isPrefixOf_iff_prefix.mpr hword

/-- No name and no keyword stands there. -/
structure NoName (k : Cursor) : Prop where
  identifier : Fails (.rule .identifier) {} k
  matchExpr : Fails (.rule .matchExpr) {} k
  boolean : Fails (.rule .boolean) {} k
  null : Fails (.rule .null) {} k
  notOp : Fails (.rule .notOp) {} k

theorem noName_of_head (hskip : ({} : Mode).skip k = k) (hk : k.rest.head? = some c)
    (hc : (c.isAlpha || c == '_') = false) : NoName k where
  identifier := fails_identifier {} (by rw [hk]; rintro _ ⟨⟩; exact hc)
  matchExpr := rule (seq (fails_keyword_word hskip fun ⟨_, h⟩ => by
    rw [← h] at hk
    cases hk
    cases hc))
  boolean := by
    have hno : ∀ s ∈ ["true", "false"], Fails (word s) { spacing := .token } k := by
      intro s hs
      simp only [mem_cons, not_mem_nil, or_false] at hs
      rcases hs with rfl | rfl <;>
      · refine fails_word (not_prefix_of_head _ hk ?_ (by decide))
        rintro ⟨⟩
        cases hc
    exact rule (seq ((hno _ (by simp)).choice (hno _ (by simp))))
  null := rule (seq (fails_word (not_prefix_of_head _ hk (by rintro ⟨⟩; cases hc) (by decide))))
  notOp := rule (seq (fails_word (not_prefix_of_head _ hk (by rintro ⟨⟩; cases hc) (by decide))))

theorem fails_unaryOp (hminus : ¬ "-".toList <+: k.rest) (hnot : Fails (.rule .notOp) {} k) :
    Fails (.rule .unaryOp) {} k := rule ((fails_word hminus).choice hnot)

theorem not_letter_of_isDigit (h : c.isDigit = true) : (c.isAlpha || c == '_') = false := by
  have hle : c.toNat ≤ 57 := by
    simp only [Char.isDigit, Bool.and_eq_true, decide_eq_true_eq] at h
    exact h.2
  refine Bool.or_eq_false_iff.mpr ⟨Bool.or_eq_false_iff.mpr ⟨decide_eq_false fun hupper => ?_, ?_⟩, ?_⟩
  · have hge : 65 ≤ c.toNat := hupper.1
    omega
  · refine Bool.and_eq_false_iff.mpr (.inl (decide_eq_false fun hlower => ?_))
    have hge : 97 ≤ c.toNat := hlower
    omega
  · refine beq_false_of_ne ?_
    rintro rfl
    cases h

/-! ### Constants and names -/

theorem head?_of_at (hk : k.At (w :: ws) rest) (hw : w.chars = c :: cs) : k.rest.head? = some c := by
  rw [hk.head, hw]
  rfl

theorem fails_closure (h : ¬ "|".toList <+: k.rest) : Fails (.rule .closure) {} k :=
  rule (r := .closure) (seq (fails_word h))

theorem fails_call (h : Fails (.rule .identifier) {} k) : Fails (.rule .call) {} k :=
  rule (r := .call) (seq h)

theorem spans_constant (hmatch : Fails (.rule .matchExpr) {} k) (hclosure : ¬ "|".toList <+: k.rest)
    (hname : Fails (.rule .identifier) {} k) (h : Spans constant {} k k' ps) :
    Spans primary {} k k' ps :=
  hmatch.choice_right ((fails_closure hclosure).choice_right ((fails_call hname).choice_right h.choice_left))

theorem denotes_node {reader : Reader} (h : ∀ file, ∃ ns', Ast.read file reader (.node r start stop parts) =
      .ok (.mk form ((Parse.node r start stop []).origin file) ns') ∧ Node.bareAll ns' = ns) :
    Denotes reader (.node r start stop parts) (built form ns) := by
  intro file
  obtain ⟨ns', hns', rfl⟩ := h file
  exact ⟨_, hns', rfl⟩

/-- Nodes that have the same parts as their syntax. -/
theorem denotes_parts {reader inner : Reader} (h : Forall₂ (Denotes inner) parts ns)
    (hread : ∀ file, Ast.read file reader (.node r start stop parts) = do
      return .mk form ((Parse.node r start stop []).origin file) (← Ast.readAll file inner parts)) :
    Denotes reader (.node r start stop parts) (built form ns) := by
  refine denotes_node fun file => ?_
  obtain ⟨ns', hns', hbare⟩ := Denotes.all h file
  refine ⟨ns', ?_, hbare⟩
  rw [hread, hns']
  rfl

theorem denotes_integer (hi : i ≤ Ast.maxInteger) (hk : k.rest = Nat.toDigits 10 i ++ rest) :
    Denotes .expression (.node .integer k (k.beyond (Nat.toDigits 10 i)) []) (built (.integer (.ofInt i)) []) := by
  have hvalue : Decimal.valueOf (Nat.toDigits 10 i) = i := Nat.ofDigitChars_ten_toDigits
  refine denotes_node fun file => ⟨[], ?_, rfl⟩
  simp only [Ast.read, Parse.text_node hk, String.toList_ofList, hvalue, if_pos hi]
  rfl

theorem atomic_integer (hi : i ≤ Ast.maxInteger) :
    Atomic .atom [digitsWord i] (built (.integer (.ofInt i)) []) := by
  intro k rest hk hrest
  obtain ⟨c, cs, hdigits⟩ := exists_toDigits i
  have hc : c.isDigit = true := isDigit_of_mem_toDigits c (by rw [hdigits]; exact .head _)
  have hhead : k.rest.head? = some c := head?_of_at hk hdigits
  have hno := noName_of_head hk.skip_eq hhead (not_letter_of_isDigit hc)
  have hminus := not_prefix_of_head "-" hhead (by rintro ⟨⟩; cases hc) (by decide)
  have hbar := not_prefix_of_head "|" hhead (by rintro ⟨⟩; cases hc) (by decide)
  have hspans : Spans constant {} k _ _ := (fails_float {} hk).choice_right (spans_integer hk).choice_left
  exact ⟨fails_unaryOp hminus hno.notOp, _, spans_constant hno.matchExpr hbar hno.identifier hspans,
    denotes_integer hi hk.head⟩

theorem unescape_spelled (gs : List Glyph) : Ast.unescape (Glyph.spelled gs) = gs.map Glyph.value := by
  induction gs with
  | nil => rfl
  | cons g gs ih =>
    cases g with
    | raw c h =>
      rw [map_cons, ← ih]
      show Ast.unescape (c :: Glyph.spelled gs) = c :: Ast.unescape (Glyph.spelled gs)
      rw [Ast.unescape]
      · exact fun hslash => absurd hslash h.2
      · exact fun _ _ hslash => absurd hslash h.2
    | escaped e =>
      rw [map_cons, ← ih]
      show Ast.unescape ('\\' :: e.letter :: Glyph.spelled gs) = _
      cases e <;> rfl

theorem denotes_string {gs : List Glyph} (hk : k.rest = Glyph.spelled gs ++ rest) (start : Cursor) :
    Denotes .expression (.node .string start stop [.node .stringInner k (k.beyond (Glyph.spelled gs)) []])
      (built (.string (String.ofList (gs.map Glyph.value))) []) := by
  refine denotes_node fun file => ⟨[], ?_, rfl⟩
  simp only [Ast.read, Ast.innerText, head?_cons, Option.map_some, Option.getD_some, Parse.text_node hk,
    String.toList_ofList, unescape_spelled]
  rfl

theorem atomic_string (gs : List Glyph) :
    Atomic .atom [Glyph.word gs] (built (.string (String.ofList (gs.map Glyph.value))) []) := by
  intro k rest hk hrest
  have hhead : k.rest.head? = some '"' := head?_of_at hk rfl
  have hno := noName_of_head hk.skip_eq hhead rfl
  have hminus := not_prefix_of_head "-" hhead (by decide) (by decide)
  have hbar := not_prefix_of_head "|" hhead (by decide) (by decide)
  have hdigits := fails_digits {} (k := k) (by rw [hhead]; rintro _ ⟨⟩; rfl)
  have hspans : Spans constant {} k _ _ :=
    hdigits.1.choice_right (hdigits.2.choice_right (spans_string gs hk).choice_left)
  have hinside : (k.beyond ['"']).rest = Glyph.spelled gs ++ ('"' :: ' ' :: (layout [] ++ rest)) :=
    rest_beyond_singleton (hk.head.trans (by simp [Glyph.word]))
  exact ⟨fails_unaryOp hminus hno.notOp, _, spans_constant hno.matchExpr hbar hno.identifier hspans,
    denotes_string hinside k⟩

theorem spans_keyword_constant {h : isSolid s.toList = true} (hs : s ∈ keywords) (hk : k.At [fixed s h] rest)
    (hstart : ∀ t ∈ ["-", "not", "match", "|", "\""], t.toList.isPrefixOf s.toList = false)
    (hspans : Spans (.choice (.rule .boolean) (.rule .null)) {} k k' ps) :
    Fails (.rule .unaryOp) {} k ∧ Spans primary {} k k' ps := by
  have hblank : ∀ t ∈ ["-", "not", "match", "|", "\""], ∀ c ∈ t.toList, (c != ' ') = true := by decide
  have hno : ∀ t ∈ ["-", "not", "match", "|", "\""], ¬ t.toList <+: k.rest := fun t ht =>
    not_prefix_word t hk (hblank t ht) (hstart t ht)
  have hletter : ∀ t ∈ keywords, ∀ c ∈ t.toList.head?, c.isDigit = false := by decide
  have hdigits := fails_digits {} (k := k) (by
    intro c hc
    rw [hk.head, head?_append] at hc
    rcases Option.or_eq_some_iff.mp hc with hc | ⟨-, hc⟩
    · exact hletter s hs c hc
    · cases hc
      rfl)
  refine ⟨fails_unaryOp (hno "-" (by simp)) (rule (seq (fails_word (hno "not" (by simp))))), ?_⟩
  refine spans_constant ?_ (hno "|" (by simp)) (fails_identifier_keyword {} hs hk rfl) ?_
  · exact rule (r := .matchExpr) (seq (fails_keyword_word hk.skip_eq (hno "match" (by simp))))
  · exact hdigits.1.choice_right (hdigits.2.choice_right ((fails_string {} (hno "\"" (by simp))).choice_right hspans))

theorem denotes_boolean (hk : k.rest = s.toList ++ rest) :
    Denotes .expression (.node .boolean k (k.beyond s.toList) []) (built (.boolean (s = "true")) []) := by
  refine denotes_node fun file => ⟨[], ?_, rfl⟩
  simp only [Ast.read, Parse.text_node hk, String.ofList_toList]
  rfl

theorem atomic_true : Atomic .atom [fixed "true" rfl] (built (.boolean true) []) := by
  intro k rest hk hrest
  have hspans := spans_readsWhole readsWhole_boolean (.head _) hk rfl
  obtain ⟨hunary, hprimary⟩ := spans_keyword_constant (by decide) hk (by decide) hspans.choice_left
  exact ⟨hunary, _, hprimary, denotes_boolean hk.head⟩

theorem atomic_false : Atomic .atom [fixed "false" rfl] (built (.boolean false) []) := by
  intro k rest hk hrest
  have hspans := spans_readsWhole readsWhole_boolean (.tail _ (.head _)) hk rfl
  obtain ⟨hunary, hprimary⟩ := spans_keyword_constant (by decide) hk (by decide) hspans.choice_left
  exact ⟨hunary, _, hprimary, denotes_boolean hk.head⟩

theorem atomic_null : Atomic .atom [fixed "null" rfl] (built .null []) := by
  intro k rest hk hrest
  have hspans := spans_readsWhole readsWhole_null (.head _) hk rfl
  have hboolean : Fails (.rule .boolean) {} k :=
    readsWhole_boolean.fails {} (by decide) hk.head (by decide) (by rintro _ ⟨⟩; rfl)
  obtain ⟨hunary, hprimary⟩ := spans_keyword_constant (by decide) hk (by decide) (hboolean.choice_right hspans)
  refine ⟨hunary, _, hprimary, denotes_node fun file => ⟨[], ?_, rfl⟩⟩
  simp only [Ast.read]
  rfl

/-! ### Names, calls, closures and brackets -/

theorem noMatch_of_name (x : Name) (hk : k.At (x.word :: ws) rest) : Fails (.rule .matchExpr) {} k :=
  rule (r := .matchExpr) (seq (seq
    (fails_readsWhole_name readsWhole_keyword (fun _ => id) _ x hk).ahead))

theorem not_prefix_name (s : String) (x : Name) (hk : k.At (x.word :: ws) rest)
    (hs : ∀ c ∈ s.toList.head?, (c.isAlpha || c == '_') = false) (hne : s.toList ≠ []) : ¬ s.toList <+: k.rest := by
  obtain ⟨c, cs, hx, hc, -⟩ := x.exists_chars
  refine not_prefix_of_head s (head?_of_at hk hx) (fun h => ?_) hne
  rw [hs c h] at hc
  cases hc

theorem fails_unaryOp_name (x : Name) (hk : k.At (x.word :: ws) rest) : Fails (.rule .unaryOp) {} k :=
  fails_unaryOp (not_prefix_name "-" x hk (by decide) (by decide))
    (fails_readsWhole_name readsWhole_notOp (by decide) {} x hk)

theorem text_identifier (x : Name) (hk : k.At (x.word :: ws) rest) (parts : List Parse) :
    (Parse.node .identifier k (k.beyond x.chars) parts).text = x.text := Parse.text_node hk.head _ _

theorem denotes_identifier (x : Name) (hk : k.At (x.word :: ws) rest) :
    Denotes .expression (.node .identifier k (k.beyond x.chars) []) (built (.identifier x.text) []) := by
  refine denotes_node fun file => ⟨[], ?_, rfl⟩
  simp only [Ast.read, text_identifier x hk]
  rfl

theorem atomic_identifier (x : Name) : Atomic .atom [x.word] (built (.identifier x.text) []) := by
  intro k rest hk hrest
  have hname := spans_identifier x hk
  have hbracket : Fails (word "(") {} (k.after [x.word]) := fails_word (by rw [hk.nil.rest_eq]; exact hrest.1)
  have hdigits := fails_digits {} (k := k) (by
    obtain ⟨c, cs, hx, hc, -⟩ := x.exists_chars
    rw [head?_of_at hk hx]
    rintro _ ⟨⟩
    refine eq_false_of_ne_true fun hdigit => ?_
    rw [not_letter_of_isDigit hdigit] at hc
    cases hc)
  have hconstant : Fails constant {} k := hdigits.1.choice (hdigits.2.choice
    ((fails_string {} (not_prefix_name "\"" x hk (by decide) (by decide))).choice
    ((fails_readsWhole_name readsWhole_boolean (by decide) {} x hk).choice
      (fails_readsWhole_name readsWhole_null (by decide) {} x hk))))
  refine ⟨fails_unaryOp_name x hk, _, ?_, denotes_identifier x hk⟩
  exact (noMatch_of_name x hk).choice_right
    ((fails_closure (not_prefix_name "|" x hk (by decide) (by decide))).choice_right
    ((rule (r := .call) (hname.fails_seq (seq hbracket))).choice_right
    (hconstant.choice_right hname.choice_left)))

theorem only_brackets (hskip : ({} : Mode).skip k = k) (hk : k.rest.head? = some c)
    (hc : (c.isAlpha || c == '_') = false) (hdigit : c.isDigit = false) (hsign : c ∉ ['-', '|', '"']) :
    Fails (.rule .unaryOp) {} k ∧ ∀ {o}, Answers (sequence (word "(") [.rule .expression, word ")"]) {} k o →
      Answers primary {} k o := by
  have hno := noName_of_head hskip hk hc
  simp only [List.mem_cons, List.not_mem_nil, or_false, not_or] at hsign
  have hminus := not_prefix_of_head "-" hk (fun h => hsign.1 (Option.some.inj h).symm) (by decide)
  have hbar := not_prefix_of_head "|" hk (fun h => hsign.2.1 (Option.some.inj h).symm) (by decide)
  have hquote := not_prefix_of_head "\"" hk (fun h => hsign.2.2 (Option.some.inj h).symm) (by decide)
  have hdigits := fails_digits {} (k := k) (by rw [hk]; rintro _ ⟨⟩; exact hdigit)
  have hconstant : Fails constant {} k := hdigits.1.choice (hdigits.2.choice
    ((fails_string {} hquote).choice (hno.boolean.choice hno.null)))
  refine ⟨fails_unaryOp hminus hno.notOp, fun h => ?_⟩
  exact hno.matchExpr.choice ((fails_closure hbar).choice ((fails_call hno.identifier).choice
    (hconstant.choice (hno.identifier.choice h))))

theorem fails_expression (hskip : ({} : Mode).skip k = k) (hk : k.rest.head? = some c)
    (hc : (c.isAlpha || c == '_') = false) (hdigit : c.isDigit = false) (hsign : c ∉ ['-', '|', '"', '(']) :
    Fails (.rule .expression) {} k := by
  have hopen : ¬ "(".toList <+: k.rest :=
    not_prefix_of_head "(" hk (fun h => hsign (by rw [← Option.some.inj h]; decide)) (by decide)
  obtain ⟨hunaryOp, hprimary⟩ := only_brackets hskip hk hc hdigit fun h => hsign (mem_append_left ['('] h)
  have hunary : Fails (.rule .unary) {} k := rule (r := .unary)
    ((hunaryOp.spans_many hskip).fails_seq (hprimary (seq (fails_word hopen))))
  exact rule (r := .expression) (rule (r := .orExpr) (seq (rule (r := .andExpr)
    (seq (rule (r := .comparison) (seq (rule (r := .additive)
    (seq (rule (r := .multiplicative) (seq hunary))))))))))

theorem Reads.bracketed (h : Reads .whole .whole ws n) :
    Atomic .atom (fixed "(" rfl :: (ws ++ [fixed ")" rfl])) n := by
  intro k rest hk hrest
  obtain ⟨p, hp, hn⟩ := h hk.next.left (Level.blocks_layout (by decide) [] rest)
  have hopen : Spans (word "(") {} k _ [] := spans_sign hk rfl
  have hclose : Spans (word ")") {} _ _ [] := spans_sign hk.next.after rfl
  obtain ⟨hunaryOp, hprimary⟩ := only_brackets hk.skip_eq (head?_of_at hk rfl) rfl rfl (by decide)
  obtain ⟨stop, hanswers, hstop⟩ := hopen.seq (hp.seq hclose)
  rw [after_cons, after_append]
  exact ⟨hunaryOp, p, ⟨stop, hprimary hanswers, hstop⟩, hn⟩

/-! ### Calls -/

/-- Every expression of a list is read where an expression is expected. -/
def AllRead (es : List Expr) : Prop := ∀ e ∈ es, Reads .whole .whole e.words e.node

theorem blocks_further (es : List Expr) (rest : List Char) :
    Level.whole.Blocks (layout (furtherWords es ++ [fixed ")" rfl]) ++ rest) := by
  cases es with
  | nil => exact Level.blocks_layout (by decide) [] rest
  | cons e es => exact Level.blocks_layout (by decide) _ rest

theorem spans_further (hes : AllRead es) (hk : k.At (furtherWords es ++ [fixed ")" rfl]) rest) :
    ∃ ps, Spans (.many (.seq (word ",") (.rule .expression))) {} k (k.after (furtherWords es)) ps ∧
      List.Forall₂ (Denotes .expression) ps (nodesOf es) := by
  induction es generalizing k with
  | nil =>
    have hcomma := not_prefix_word "," hk (by decide) rfl
    exact ⟨[], (seq (fails_word hcomma)).spans_many hk.skip_eq, .nil⟩
  | cons e es ih =>
    rw [furtherWords, cons_append, append_assoc] at hk
    have hcomma : Spans (word ",") {} k _ [] := spans_sign hk rfl
    obtain ⟨p, hp, hn⟩ := hes e (.head _) hk.next.left (blocks_further es rest)
    obtain ⟨ps, hps, hns⟩ := ih (fun e' he' => hes e' (.tail _ he')) hk.next.after
    refine ⟨p :: ps, ?_, .cons hn hns⟩
    rw [furtherWords, after_cons, after_append]
    exact (hcomma.seq hp).many hps

theorem spans_arguments (hes : AllRead es) (hk : k.At (argumentsWords es ++ [fixed ")" rfl]) rest) : ∃ parts,
      Spans (.optional (.rule .argList)) {} k (k.after (argumentsWords es)) parts ∧
      (es = [] ∧ parts = [] ∨ ∃ stop ps, parts = [.node .argList k stop ps] ∧
        List.Forall₂ (Denotes .expression) ps (nodesOf es)) := by
  cases es with
  | nil =>
    have hfails := fails_expression hk.skip_eq (head?_of_at hk rfl) rfl rfl (by decide)
    exact ⟨[], (rule (r := .argList) (seq hfails)).spans_optional hk.skip_eq, .inl ⟨rfl, rfl⟩⟩
  | cons e es =>
    rw [argumentsWords, append_assoc] at hk
    obtain ⟨p, hp, hn⟩ := hes e (.head _) hk.left (blocks_further es rest)
    obtain ⟨ps, hps, hns⟩ := spans_further (fun e' he' => hes e' (.tail _ he')) hk.after
    obtain ⟨stop, hrule⟩ := Spans.exists_node (r := .argList) rfl (hp.seq hps)
    rw [argumentsWords, after_append]
    exact ⟨_, hrule.optional, .inr ⟨stop, _, rfl, .cons hn hns⟩⟩

theorem atomic_call (f : Name) (hes : AllRead es) :
    Atomic .atom (f.word :: fixed "(" rfl :: (argumentsWords es ++ [fixed ")" rfl]))
      (built (.call f.text) (nodesOf es)) := by
  intro k rest hk hrest
  have hname := spans_identifier f hk
  have hopen : Spans (word "(") {} _ _ [] := spans_sign hk.next rfl
  obtain ⟨parts, harguments, hparts⟩ := spans_arguments hes hk.next.next
  have hclose : Spans (word ")") {} _ _ [] := spans_sign hk.next.next.after rfl
  obtain ⟨stop, hcall⟩ := Spans.exists_node (r := .call) rfl (hname.seq (hopen.seq (harguments.seq hclose)))
  have hprimary : Spans primary {} k _ _ := (noMatch_of_name f hk).choice_right
    ((fails_closure (not_prefix_name "|" f hk (by decide) (by decide))).choice_right hcall.choice_left)
  rw [after_cons, after_cons, after_append]
  refine ⟨fails_unaryOp_name f hk, _, hprimary, denotes_node fun file => ?_⟩
  rcases hparts with ⟨rfl, rfl⟩ | ⟨stop', ps, rfl, hns⟩
  · refine ⟨[], ?_, rfl⟩
    show Ast.read file .expression (.node .call k stop [_]) = _
    simp only [Ast.read, text_identifier f hk]
    rfl
  · obtain ⟨ns', hns', hbare⟩ := Denotes.all hns file
    refine ⟨ns', ?_, hbare⟩
    show Ast.read file .expression (.node .call k stop [_, .node .argList _ stop' ps]) = _
    simp only [Ast.read, text_identifier f hk, hns']
    rfl

/-! ### Closures -/

theorem spans_furtherNames (hk : k.At (furtherNames xs ++ fixed "|" rfl :: ws) rest) :
    ∃ ps, Spans (.many (.seq (word ",") (.rule .identifier))) {} k (k.after (furtherNames xs)) ps ∧
      ps.map Parse.text = xs.map Name.text := by
  induction xs generalizing k with
  | nil =>
    have hcomma := not_prefix_word "," hk (by decide) rfl
    exact ⟨[], (seq (fails_word hcomma)).spans_many hk.skip_eq, rfl⟩
  | cons x xs ih =>
    have hcomma : Spans (word ",") {} k _ [] := spans_sign hk rfl
    have hname := spans_identifier x hk.next
    obtain ⟨ps, hps, htexts⟩ := ih hk.next.next
    rw [furtherNames, after_cons, after_cons]
    refine ⟨_, (hcomma.seq hname).many hps, ?_⟩
    exact congrArg₂ List.cons (text_identifier x hk.next []) htexts

theorem fails_paramList (hk : k.At (fixed "|" rfl :: ws) rest) : Fails (.rule .paramList) {} k :=
  rule (r := .paramList) (seq (fails_identifier {} (by rw [head?_of_at hk rfl]; rintro _ ⟨⟩; rfl)))

theorem spans_params (hk : k.At (namesWords xs ++ fixed "|" rfl :: ws) rest) : ∃ parts,
    Spans (.optional (.rule .paramList)) {} k (k.after (namesWords xs)) parts ∧
    (xs = [] ∧ parts = [] ∨ ∃ list, parts = [list] ∧ list.rule = .paramList ∧
      Ast.paramsOf list = xs.map Name.text) := by
  cases xs with
  | nil => exact ⟨[], (fails_paramList hk).spans_optional hk.skip_eq, .inl ⟨rfl, rfl⟩⟩
  | cons x xs =>
    obtain ⟨ps, hps, htexts⟩ := spans_furtherNames hk.next
    obtain ⟨stop, hrule⟩ := Spans.exists_node (r := .paramList) rfl ((spans_identifier x hk).seq hps)
    rw [namesWords, after_cons]
    exact ⟨_, hrule.optional, .inr ⟨_, rfl, rfl, congrArg₂ List.cons (text_identifier x hk []) htexts⟩⟩

theorem atomic_closure (xs : List Name) (h : Reads .whole .whole ws n) :
    Atomic .whole (fixed "|" rfl :: (namesWords xs ++ fixed "|" rfl :: fixed "->" rfl :: ws))
      (built (.closure (xs.map Name.text)) [n]) := by
  intro k rest hk hrest
  have hhead : k.rest.head? = some '|' := head?_of_at hk rfl
  have hno := noName_of_head hk.skip_eq hhead rfl
  have hopen : Spans (word "|") {} k _ [] := spans_sign hk rfl
  obtain ⟨parts, hparams, hparts⟩ := spans_params hk.next
  have hclose : Spans (word "|") {} _ _ [] := spans_sign hk.next.after rfl
  have harrow : Spans (word "->") {} _ _ [] := spans_sign hk.next.after.next rfl
  obtain ⟨body, hbody, hn⟩ := h hk.next.after.next.next hrest
  have hall : Spans closure.body {} k _ _ := hopen.seq (hparams.seq (hclose.seq (harrow.seq hbody).choice_left))
  obtain ⟨stop, hclosure⟩ := Spans.exists_node (r := .closure) rfl hall
  have hprimary : Spans primary {} k _ _ := hno.matchExpr.choice_right hclosure.choice_left
  rw [after_cons, after_append, after_cons, after_cons]
  refine ⟨fails_unaryOp (not_prefix_of_head "-" hhead (by decide) (by decide)) hno.notOp, _, hprimary,
    denotes_node fun file => ?_⟩
  obtain ⟨n', hn', hbare⟩ := hn file
  refine ⟨[n'], ?_, congrArg (fun n => [n]) hbare⟩
  obtain ⟨-, hblock, hparamList⟩ := hn.rule_ne
  have hreader : Reader.expression.body body.rule = .expression := by
    unfold Reader.body
    split <;> simp_all
  rcases hparts with ⟨rfl, rfl⟩ | ⟨list, rfl, hrule, hlist⟩
  · show Ast.read file .expression (.node .closure k stop [body]) = _
    simp only [Ast.read, Ast.readBody, if_neg hparamList, hreader, hn']
    rfl
  · show Ast.read file .expression (.node .closure k stop [list, body]) = _
    simp only [Ast.read, Ast.readBody, if_pos hrule, hreader, hn', hlist]
    rfl

/-! ### Matches -/

def Clauses.AreRead (cs : Clauses) : Prop :=
  ∀ ⦃k rest⦄, At k (cs.words ++ [fixed "\x7d" (.refl true)]) rest → ∃ k1 whens others,
    Spans (.many (.rule .matchWhen)) {} k k1 whens ∧
    Spans (.optional (.rule .matchOtherwise)) {} k1 (k.after cs.words) others ∧
    List.Forall₂ (Denotes .matchClause) (whens ++ others) cs.nodes

theorem fails_clause {p : Pattern} (hbody : r.body = .seq (keyword s) p)
    (hr : r.spacing = .inherited) (hk : k.At (w :: ws) rest) (hblank : ∀ c ∈ s.toList, (c != ' ') = true)
    (h : s.toList.isPrefixOf w.chars = false) : Fails (.rule r) {} k := by
  refine rule ?_
  rw [Mode.around_of_inherited hr, Mode.inside_of_inherited hr, hbody]
  exact seq (fails_keyword_word hk.skip_eq (not_prefix_word s hk hblank h))

theorem Clauses.areRead_done : Clauses.done.AreRead := by
  intro k rest hk
  have hwhen : Fails (.rule .matchWhen) {} k := fails_clause rfl rfl hk (by decide) rfl
  have hotherwise : Fails (.rule .matchOtherwise) {} k := fails_clause rfl rfl hk (by decide) rfl
  exact ⟨k, [], [], hwhen.spans_many hk.skip_eq, hotherwise.spans_optional hk.skip_eq, .nil⟩

theorem Clauses.areRead_otherwise (h : Reads .whole .whole e.words e.node) : (Clauses.otherwise e).AreRead := by
  intro k rest hk
  have hwhen : Fails (.rule .matchWhen) {} k := fails_clause rfl rfl hk (by decide) rfl
  have hkeyword : Spans (keyword "otherwise") {} k _ [] := spans_keyword (by decide) hk rfl
  obtain ⟨p, hp, hn⟩ := h hk.next.left (Level.blocks_layout (by decide) [] rest)
  obtain ⟨stop, hrule⟩ := Spans.exists_node (r := .matchOtherwise) rfl (hkeyword.seq hp)
  exact ⟨k, [], _, hwhen.spans_many hk.skip_eq, hrule.optional,
    .cons (denotes_parts (.cons hn .nil) fun file => by simp [Ast.read, Ast.readAll]) .nil⟩

theorem Clauses.blocks (cs : Clauses) (rest : List Char) :
    Level.whole.Blocks (layout (cs.words ++ [fixed "\x7d" rfl]) ++ rest) := by
  cases cs <;> exact Level.blocks_layout (by decide) _ rest

theorem Clauses.areRead_when {c : Expr} {cs : Clauses} (hc : Reads .whole .whole c.words c.node)
    (he : Reads .whole .whole e.words e.node) (hcs : cs.AreRead) : (Clauses.when c e cs).AreRead := by
  intro k rest hk
  rw [Clauses.words, cons_append, append_assoc, cons_append, append_assoc] at hk
  have hwhen : Spans (keyword "when") {} k _ [] := spans_keyword (by decide) hk rfl
  obtain ⟨p, hp, hn⟩ := hc hk.next.left (Level.blocks_layout (by decide) _ rest)
  have hthen : Spans (keyword "then") {} _ _ [] := spans_keyword (by decide) hk.next.after rfl
  obtain ⟨q, hq, hn'⟩ := he hk.next.after.next.left (cs.blocks rest)
  obtain ⟨stop, hrule⟩ := Spans.exists_node (r := .matchWhen) rfl (hwhen.seq (hp.seq (hthen.seq hq)))
  obtain ⟨k1, whens, others, hwhens, hothers, hns⟩ := hcs hk.next.after.next.after
  rw [Clauses.words, after_cons, after_append, after_cons, after_append]
  refine ⟨k1, _, others, hrule.many hwhens, hothers, .cons (denotes_parts (.cons hn (.cons hn' .nil)) fun file => ?_) hns⟩
  simp [Ast.read, Ast.readAll]

theorem atomic_matchOf {cs : Clauses} (h : cs.AreRead) :
    Atomic .atom (fixed "match" rfl :: fixed "\x7b" rfl :: (cs.words ++ [fixed "\x7d" rfl])) (built .matchOf cs.nodes) := by
  intro k rest hk hrest
  have hminus := not_prefix_word "-" hk (by decide) rfl
  have hnot := not_prefix_word "not" hk (by decide) rfl
  have hkeyword : Spans (keyword "match") {} k _ [] := spans_keyword (by decide) hk rfl
  have hopen : Spans (word "\x7b") {} _ _ [] := spans_sign hk.next rfl
  obtain ⟨k1, whens, others, hwhens, hothers, hns⟩ := h hk.next.next
  have hclose : Spans (word "\x7d") {} _ _ [] := spans_sign hk.next.next.after rfl
  obtain ⟨stop, hrule⟩ := Spans.exists_node (r := .matchExpr) rfl
    (hkeyword.seq (hopen.seq (hwhens.seq (hothers.seq hclose))))
  have hprimary : Spans primary {} k _ _ := hrule.choice_left
  rw [after_cons, after_cons, after_append]
  refine ⟨fails_unaryOp hminus (rule (seq (fails_word hnot))), _, hprimary,
    denotes_parts (?_ : List.Forall₂ (Denotes .matchClause) (whens ++ (others ++ [])) _) fun file => ?_⟩
  · rw [append_nil]
    exact hns
  · simp [Ast.read]

/-! ### All expressions -/

def Level.Sound : Level → List Word → Node → Prop
  | .whole, ws, n => Atomic .whole ws n
  | .binary .comparison, ws, n => Reads (.binary .comparison) (.binary .comparison) ws n
  | .binary t, ws, n => Chained t ws n
  | .sign, ws, n => Signed .sign ws n
  | .atom, ws, n => Atomic .atom ws n

theorem Level.Sound.chained (h : (Level.binary t).Sound ws n) (ht : t ≠ .comparison) : Chained t ws n := by
  cases t <;> first | exact h | exact absurd rfl ht

theorem Level.Sound.reads (h : L.Sound ws n) (hle : M ≤ L) (hM : M ≤ .sign) : Reads M M ws n := by
  cases L with
  | whole =>
    obtain rfl : M = .whole := Level.rank_injective (Nat.le_zero.mp hle)
    exact (Atomic.signed h).reads.descend (Nat.le_refl _) (by decide) (by decide)
  | binary t =>
    have hown : Reads (.binary t) (.binary t) ws n := by
      by_cases ht : t = .comparison
      · subst ht
        exact h
      · exact (h.chained ht).reads ht
    exact hown.loosen hle (by cases t <;> decide)
  | sign => exact (Signed.reads h).loosen hle (by decide)
  | atom => exact ((Atomic.signed h).mono (by decide)).reads.loosen hM (by decide)

theorem Level.Sound.signed_brackets (h : L.Sound ws n) : Signed .sign (fixed "(" rfl :: (ws ++ [fixed ")" rfl])) n :=
  (h.reads (Nat.zero_le _) (by decide)).bracketed.signed.mono (by decide)

theorem Level.Sound.reads_bracketed (h : L.Sound ws n) (hM : M ≤ .sign) : Reads M M (bracketed M L ws) n := by
  unfold bracketed
  split_ifs with hle
  · exact h.reads hle hM
  · exact h.signed_brackets.reads.loosen hM (by decide)

theorem Level.Sound.chained_bracketed (h : L.Sound ws n) (ht : t ≠ .comparison) :
    Chained t (bracketed (.binary t) L ws) n := by
  have hnext : (Level.binary t).next ≤ .sign := by cases t <;> decide
  unfold bracketed
  split_ifs with hle
  · by_cases heq : L = .binary t
    · subst heq
      exact h.chained ht
    · refine (h.reads ?_ hnext).chained
      have hne : (Level.binary t).rank ≠ L.rank := fun h => heq (Level.rank_injective h).symm
      have hrank := Level.rank_next (a := .binary t) (by cases t <;> decide)
      rw [Level.le_iff] at hle ⊢
      omega
  · exact (h.signed_brackets.reads.loosen hnext (by decide)).chained

theorem Level.Sound.signed_bracketed (h : L.Sound ws n) : Signed .sign (bracketed .sign L ws) n := by
  unfold bracketed
  split_ifs with hle
  · cases L with
    | whole => exact absurd hle (by decide)
    | binary t => exact absurd hle (by cases t <;> decide)
    | sign => exact h
    | atom => exact (Atomic.signed h).mono (by decide)
  · exact h.signed_brackets

theorem sound_binary {op : Operator} {l r : Expr} (hl : l.level.Sound l.words l.node) (hr : r.level.Sound r.words r.node) :
    (Expr.binary op l r).level.Sound (Expr.binary op l r).words (Expr.binary op l r).node := by
  have hnext : op.rightLevel ≤ .sign := by cases op <;> decide
  have hright := hr.reads_bracketed hnext
  rw [Expr.words, Expr.node]
  by_cases ht : op.tier = .comparison
  · have hleft : op.leftLevel = op.rightLevel := if_pos ht
    have hreads := Reads.comparison ht (hl.reads_bracketed hnext) hright
    rw [Expr.level, hleft]
    rw [ht] at hreads ⊢
    exact hreads
  · have hleft : op.leftLevel = .binary op.tier := if_neg ht
    have hchained := (hl.chained_bracketed ht).binary hright
    rw [Expr.level, hleft]
    revert hchained ht
    cases op.tier <;> intro ht hchained <;> first | exact hchained | exact absurd rfl ht

mutual

theorem sound : ∀ e : Expr, e.level.Sound e.words e.node
  | .integer _ h => by
    rw [Expr.words, Expr.node]
    exact atomic_integer h
  | .string gs => by
    rw [Expr.words, Expr.node]
    exact atomic_string gs
  | .boolean true => by
    rw [Expr.words, Expr.node]
    exact atomic_true
  | .boolean false => by
    rw [Expr.words, Expr.node]
    exact atomic_false
  | .null => by
    rw [Expr.words, Expr.node]
    exact atomic_null
  | .identifier x => by
    rw [Expr.words, Expr.node]
    exact atomic_identifier x
  | .call f es => by
    rw [Expr.words, Expr.node]
    exact atomic_call f (sound_all es)
  | .unary op e => by
    rw [Expr.words, Expr.node]
    exact (sound e).signed_bracketed.unary op
  | .binary op l r => sound_binary (sound l) (sound r)
  | .closure xs e => by
    rw [Expr.words, Expr.node]
    exact atomic_closure xs ((sound e).reads (Nat.zero_le _) (by decide))
  | .matchOf cs => by
    rw [Expr.words, Expr.node]
    exact atomic_matchOf (sound_clauses cs)

theorem sound_all : ∀ es : List Expr, AllRead es
  | [] => fun _ => nofun
  | e :: es => forall_mem_cons.mpr ⟨(sound e).reads (Nat.zero_le _) (by decide), sound_all es⟩

theorem sound_clauses : ∀ cs : Clauses, cs.AreRead
  | .done => Clauses.areRead_done
  | .otherwise e => Clauses.areRead_otherwise ((sound e).reads (Nat.zero_le _) (by decide))
  | .when c e cs => Clauses.areRead_when ((sound c).reads (Nat.zero_le _) (by decide))
      ((sound e).reads (Nat.zero_le _) (by decide)) (sound_clauses cs)

end

end Clausal.Printing
