import Clausal.Proofs.Grammar.Derivations

/-! # The nodes that a rule leaves

The nodes in a parse are of the rules that the pattern of their owner names, in the order in which it names
them.  `Pattern.Row p rs` says that a pattern can leave nodes of the rules `rs`, and a parse in which every
node has such a row below it is `Formed`. -/

namespace Clausal.Grammar

open List

@[elab_as_elim, induction_eliminator]
theorem Parse.inductOn {P : Parse → Prop}
    (node : ∀ r start stop parts, (∀ p ∈ parts, P p) → P (.node r start stop parts)) : ∀ p, P p
  | .node r start stop parts => node r start stop parts fun p _ => inductOn node p

def Pattern.Row : Pattern → List Rule → Prop
  | .text _, rs | .one _, rs | .start, rs | .finish, rs | .ahead _, rs | .notAhead _, rs => rs = []
  | .rule r, rs => rs = [r]
  | .seq p q, rs => ∃ ps qs, p.Row ps ∧ q.Row qs ∧ rs = ps ++ qs
  | .choice p q, rs => p.Row rs ∨ q.Row rs
  | .optional p, rs => rs = [] ∨ p.Row rs
  | .many p, rs => ∃ rows : List (List Rule), (∀ row ∈ rows, p.Row row) ∧ rs = rows.flatten

def Rule.operators? : Rule → Option (List String)
  | orOp => some ["or"]
  | andOp => some ["and"]
  | comparisonOp => some ["==", "!=", "<=", ">=", "<", ">"]
  | additiveOp => some ["+", "-"]
  | multiplicativeOp => some ["*", "/", "%"]
  | unaryOp => some ["-", "not"]
  | _ => none

/-- Every node has the nodes in it that its rule can leave, unless it is a token. -/
inductive Parse.Formed : Parse → Prop
  | node {r start stop parts} :
      (∀ words, r.operators? = some words → (Parse.node r start stop parts).text ∈ words) →
      (r.spacing ≠ .token → r.body.Row (parts.map Parse.rule)) →
      (r.spacing ≠ .token → ∀ p ∈ parts, Formed p) → Formed (.node r start stop parts)

theorem Parse.Formed.text_mem {p : Parse} {words : List String} (h : p.Formed) (hr : p.rule.operators? = some words) :
    p.text ∈ words := by
  cases h with
  | node hoperator _ _ => exact hoperator words hr

namespace Pattern

variable {p : Pattern} {m : Mode} {k k' : Cursor} {nodes : List Parse} {r : Rule} {s : String}

/-! ### Operators -/

theorem Derives.of_word (h : Derives (word s) m k k' nodes) : k.Reads s.toList k' := by
  cases h with
  | text hread => exact Cursor.reads_of_readAll? hread

theorem Derives.of_words (s : String) (ss : List String)
    (h : Derives (firstOf (word s) (ss.map word)) m k k' nodes) : ∃ t ∈ s :: ss, k.Reads t.toList k' := by
  induction ss generalizing s with
  | nil => exact ⟨s, .head _, Derives.of_word h⟩
  | cons s' ss ih =>
    cases h with
    | choiceLeft h => exact ⟨s, .head _, h.of_word⟩
    | choiceRight h =>
      obtain ⟨t, ht, hreads⟩ := ih s' h
      exact ⟨t, .tail _ ht, hreads⟩

theorem Derives.of_wholeWord (h : Derives (wholeWord s) m k k' nodes)
    (hm : m.spacing ≠ .inherited) : k.Reads s.toList k' := by
  obtain ⟨k1, _, _, hword, hend, -⟩ := h.of_seq
  rw [skip_of_ne hm] at hend
  cases hend
  exact hword.of_word

theorem Derives.of_operator {words : List String} (hr : r.operators? = some words)
    (h : Derives r.body ((m.around r).inside r) k k' nodes) : ∃ s ∈ words, k.Reads s.toList k' := by
  cases r with
  | orOp | andOp =>
    cases hr
    exact ⟨_, .head _, h.of_wholeWord nofun⟩
  | comparisonOp =>
    cases hr
    exact h.of_words "==" ["!=", "<=", ">=", "<", ">"]
  | additiveOp =>
    cases hr
    exact h.of_words "+" ["-"]
  | multiplicativeOp =>
    cases hr
    exact h.of_words "*" ["/", "%"]
  | unaryOp =>
    cases hr
    cases h with
    | choiceLeft h => exact ⟨"-", .head _, h.of_word⟩
    | choiceRight h =>
      cases h with
      | rule hbody => exact ⟨"not", by simp, Derives.of_wholeWord hbody nofun⟩
  | _ => cases hr

/-! ### Rows -/

theorem leavesNodes_around (hm : m.leavesNodes = true) (r : Rule) : (m.around r).leavesNodes = true := by
  simp only [Mode.leavesNodes, Bool.and_eq_true, decide_eq_true_eq] at hm
  unfold Mode.around
  split_ifs <;> simp [Mode.leavesNodes, hm]

theorem leavesNodes_inside (hm : m.leavesNodes = true) (hr : r.spacing ≠ .token) :
    (m.inside r).leavesNodes = true := by
  simp only [Mode.leavesNodes, Bool.and_eq_true, decide_eq_true_eq] at hm
  unfold Mode.inside
  split
  · simp [Mode.leavesNodes, hm]
  · simp [Mode.leavesNodes, hm, hr]

theorem Derives.formed (h : Derives p m k k' nodes) (hm : m.leavesNodes = true) :
    p.Row (nodes.map Parse.rule) ∧ ∀ n ∈ nodes, n.Formed := by
  induction h with
  | text | one | start | finish | ahead | notAhead => exact ⟨rfl, forall_mem_nil _⟩
  | @rule r m k k' nodes hbody ih =>
    have haround := leavesNodes_around hm r
    rw [if_pos haround]
    refine ⟨rfl, forall_mem_singleton.mpr (.node ?_ ?_ ?_)⟩
    · intro words hr
      obtain ⟨s, hs, hreads⟩ := hbody.of_operator hr
      rw [Parse.text, Parse.start, Parse.stop, hreads.textTo_eq, String.ofList_toList]
      exact hs
    · exact fun hr => (ih (leavesNodes_inside haround hr)).1
    · exact fun hr => (ih (leavesNodes_inside haround hr)).2
  | seq _ _ ihp ihq =>
    obtain ⟨hprow, hpformed⟩ := ihp hm
    obtain ⟨hqrow, hqformed⟩ := ihq hm
    exact ⟨⟨_, _, hprow, hqrow, map_append⟩, forall_mem_append.mpr ⟨hpformed, hqformed⟩⟩
  | choiceLeft _ ih => exact ⟨.inl (ih hm).1, (ih hm).2⟩
  | choiceRight _ ih => exact ⟨.inr (ih hm).1, (ih hm).2⟩
  | optionalNone => exact ⟨.inl rfl, forall_mem_nil _⟩
  | optionalSome _ ih => exact ⟨.inr (ih hm).1, (ih hm).2⟩
  | manyNone => exact ⟨⟨[], forall_mem_nil _, rfl⟩, forall_mem_nil _⟩
  | manyLast _ ih =>
    obtain ⟨hrow, hformed⟩ := ih hm
    exact ⟨⟨[_], forall_mem_singleton.mpr hrow, (flatten_singleton ..).symm⟩, hformed⟩
  | manyMore _ _ ihp ihq =>
    obtain ⟨hrow, hformed⟩ := ihp hm
    obtain ⟨⟨rows, hrows, heq⟩, hrest⟩ := ihq hm
    refine ⟨⟨_ :: rows, forall_mem_cons.mpr ⟨hrow, hrows⟩, ?_⟩, forall_mem_append.mpr ⟨hformed, hrest⟩⟩
    rw [map_append, heq, flatten_cons]

end Pattern

/-! ### The rows of the grammar -/

namespace Rule

def statements : List Rule :=
  [letStmt, varStmt, returnStmt, ifStmt, whileStmt, caseStmt, assignStmt, expressionStmt]

def primaries : List Rule :=
  [matchExpr, closure, call, float, integer, string, boolean, null, identifier, expression]

/-- The rules of the nodes that a rule leaves, as far as they matter for the syntax. -/
def Leaves : Rule → List Rule → Prop
  | functionDecl, rs => rs = [identifier, block] ∨ rs = [identifier, paramList, block]
  | block, rs => ∀ r ∈ rs, r ∈ statements
  | letStmt, rs | varStmt, rs | assignStmt, rs => rs = [identifier, expression]
  | returnStmt, rs => rs = [] ∨ rs = [expression]
  | ifStmt, rs =>
    rs = [expression, block] ∨ rs = [expression, block, ifStmt] ∨ rs = [expression, block, block]
  | whileStmt, rs | whenClause, rs => rs = [expression, block]
  | expressionStmt, rs | matchOtherwise, rs => rs = [expression]
  | otherwiseClause, rs => rs = [block]
  | caseStmt, rs =>
    ∃ n, rs = replicate n whenClause ∨ rs = replicate n whenClause ++ [otherwiseClause]
  | matchExpr, rs =>
    ∃ n, rs = replicate n matchWhen ∨ rs = replicate n matchWhen ++ [matchOtherwise]
  | matchWhen, rs => rs = [expression, expression]
  | expression, rs => rs = [orExpr]
  | orExpr, rs => ∃ n, rs = andExpr :: (replicate n [orOp, andExpr]).flatten
  | andExpr, rs => ∃ n, rs = comparison :: (replicate n [andOp, comparison]).flatten
  | comparison, rs => ∃ n, rs = additive :: (replicate n [comparisonOp, additive]).flatten
  | additive, rs => ∃ n, rs = multiplicative :: (replicate n [additiveOp, multiplicative]).flatten
  | multiplicative, rs => ∃ n, rs = unary :: (replicate n [multiplicativeOp, unary]).flatten
  | unary, rs => ∃ n, ∃ r ∈ primaries, rs = replicate n unaryOp ++ [r]
  | closure, rs =>
    (rs = [expression] ∨ rs = [block]) ∨ rs = [paramList, expression] ∨ rs = [paramList, block]
  | call, rs => rs = [identifier] ∨ rs = [identifier, argList]
  | argList, rs => ∀ r ∈ rs, r = expression
  | string, rs => rs = [stringInner]
  | _, _ => True

theorem exists_rounds_iff {α : Type} {P : List α → Prop} {x : α} :
    (∃ rows : List α, (∀ row ∈ rows, row = x) ∧ P rows) ↔ ∃ n, P (replicate n x) := by
  constructor
  · rintro ⟨rows, hrows, h⟩
    rw [eq_replicate_of_mem hrows] at h
    exact ⟨_, h⟩
  · rintro ⟨n, h⟩
    exact ⟨_, fun row hrow => eq_of_mem_replicate hrow, h⟩

open Pattern in
theorem leaves_of_row {r : Rule} {rs : List Rule} (h : r.body.Row rs) : r.Leaves rs := by
  cases r with
  | functionDecl | letStmt | varStmt | assignStmt | returnStmt | whileStmt | expressionStmt | whenClause
  | otherwiseClause | matchWhen | matchOtherwise | expression | call | string =>
    simpa [Leaves, body, Row, Pattern.sequence, Pattern.keyword, word, or_and_right, exists_or] using h
  | ifStmt =>
    simpa [Leaves, body, elseClause, Row, Pattern.sequence, Pattern.keyword, word, or_and_right,
      exists_or] using h
  | closure =>
    simpa [Leaves, body, Row, Pattern.sequence, word, or_and_right, exists_or] using h
  | caseStmt | matchExpr =>
    simp only [body, Row, Pattern.sequence, Pattern.keyword, word, exists_and_left, exists_eq_left,
      exists_rounds_iff, or_and_right, exists_or, nil_append, append_nil] at h
    simpa [Leaves, flatten_replicate_singleton, exists_or] using h
  | orExpr | andExpr | additive | multiplicative =>
    simpa [Leaves, body, chain, Row, exists_rounds_iff] using h
  | comparison =>
    have hrow : rs = [additive] ∨ rs = [additive, comparisonOp, additive] := by
      simpa [body, Row, or_and_right, exists_or] using h
    rcases hrow with rfl | rfl
    · exact ⟨0, rfl⟩
    · exact ⟨1, rfl⟩
  | unary =>
    obtain ⟨_, last, ⟨rows, hrows, rfl⟩, hlast, rfl⟩ := h
    rw [eq_replicate_of_mem hrows, flatten_replicate_singleton]
    have hprimary : ∃ r ∈ primaries, last = [r] := by
      simpa [primary, Row, firstOf, Rule.constant, Pattern.sequence, word, primaries, or_assoc] using hlast
    obtain ⟨r, hr, rfl⟩ := hprimary
    exact ⟨_, r, hr, rfl⟩
  | block =>
    have hrow : ∃ rows : List (List Rule), (∀ row ∈ rows, ∃ r ∈ statements, row = [r]) ∧
        rs = rows.flatten := by
      simpa [body, Row, Pattern.sequence, word, statement, firstOf, statements] using h
    obtain ⟨rows, hrows, rfl⟩ := hrow
    intro r hr
    obtain ⟨row, hmem, hr⟩ := mem_flatten.mp hr
    obtain ⟨r', hr', rfl⟩ := hrows row hmem
    rwa [mem_singleton.mp hr]
  | argList =>
    have hrow : ∃ n, rs = expression :: replicate n expression := by
      simpa [body, separated, Row, word, exists_rounds_iff, flatten_replicate_singleton] using h
    obtain ⟨n, rfl⟩ := hrow
    intro r hr
    exact (mem_cons.mp hr).elim id eq_of_mem_replicate
  | _ => trivial

end Rule

end Clausal.Grammar
