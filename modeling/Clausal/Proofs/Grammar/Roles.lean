import Clausal.Proofs.Grammar.Rows

/-! # The syntax of parsed files

A syntax node may have any parts, but those that are read from a file have the parts that their form needs
(`fills_of_parse`).  The nodes of a parse have the parts that their rules leave (`Parse.Formed`), so an integer
that is too large is the only thing that can stop a reader (`converted_of_formed`). -/

namespace Clausal

open List

open Grammar (Parse Rule)

/-! ### Integers in a parse -/

namespace Grammar.Parse

mutual

/-- The integers in a parse, from left to right.  A token has no nodes in it. -/
def integers : Parse → List Parse
  | .node r start stop parts =>
    if r = .integer then [.node r start stop parts]
    else if r.spacing = .token then []
    else integersAll parts

def integersAll : List Parse → List Parse
  | [] => []
  | p :: ps => integers p ++ integersAll ps

end

variable {r : Rule} {start stop : Cursor} {p : Parse} {ps : List Parse}

theorem integers_node (hr : r.spacing ≠ .token) : (Parse.node r start stop ps).integers = integersAll ps := by
  rw [integers, if_neg (by rintro rfl; exact hr rfl), if_neg hr]

theorem integers_token (hr : r.spacing = .token) (hne : r ≠ .integer) : (Parse.node r start stop ps).integers = [] := by
  rw [integers, if_neg hne, if_pos hr]

theorem integersAll_eq_nil (h : ∀ p ∈ ps, p.integers = []) : integersAll ps = [] := by
  induction ps with
  | nil => rw [integersAll]
  | cons p ps ih =>
    obtain ⟨hp, hps⟩ := forall_mem_cons.mp h
    rw [integersAll, hp, ih hps]
    rfl

end Grammar.Parse

def Grammar.Rule.isSilent : Rule → Bool
  | endOfInput | keyword | identifier | qualifiedName | moduleDecl | paramList | orOp | andOp | notOp | comparisonOp
  | additiveOp | multiplicativeOp | unaryOp | stringInner => true
  | _ => false

theorem Grammar.Rule.tokens_of_row {r : Rule} {rs : List Rule} (hr : r.isSilent = true) (hspacing : r.spacing ≠ .token)
    (h : r.body.Row rs) : ∀ r' ∈ rs, r'.spacing = .token ∧ r' ≠ .integer := by
  cases r with
  | endOfInput => cases h; exact forall_mem_nil _
  | moduleDecl =>
    have hrow : rs = [qualifiedName] := by simpa [body, Pattern.Row, Pattern.keyword, Pattern.word] using h
    rw [hrow]
    decide
  | paramList =>
    have hrow : ∃ n, rs = identifier :: replicate n identifier := by
      simpa [body, Pattern.separated, Pattern.Row, Pattern.word, exists_rounds_iff, flatten_replicate_singleton]
        using h
    obtain ⟨n, rfl⟩ := hrow
    intro r' hr'
    obtain rfl : r' = identifier := (mem_cons.mp hr').elim id eq_of_mem_replicate
    decide
  | comparisonOp | additiveOp | multiplicativeOp =>
    have hrow : rs = [] := by simpa [body, Pattern.Row, Pattern.firstOf, Pattern.word] using h
    rw [hrow]
    exact forall_mem_nil _
  | unaryOp =>
    have hrow : rs = [] ∨ rs = [notOp] := by simpa [body, Pattern.Row, Pattern.word] using h
    rcases hrow with rfl | rfl <;> decide
  | keyword | identifier | qualifiedName | orOp | andOp | notOp | stringInner => exact absurd rfl hspacing
  | _ => cases hr

theorem Grammar.Parse.Formed.integers_eq_nil {p : Parse} (h : p.Formed) (hp : p.rule.isSilent = true) :
    p.integers = [] := by
  cases h with
  | @node r start stop parts _ hrow _ =>
    by_cases hr : r.spacing = .token
    · exact Parse.integers_token hr (by rintro rfl; cases hp)
    · rw [Parse.integers_node hr]
      refine Parse.integersAll_eq_nil fun q hq => ?_
      obtain ⟨htoken, hne⟩ := Rule.tokens_of_row hp hr (hrow hr) q.rule (mem_map_of_mem hq)
      cases q
      exact Parse.integers_token htoken hne

namespace Ast

def fallbackPart (fallback : Option (Origin × Node)) : List Node :=
  fallback.toList.map fun p => .mk .otherwise p.1 [p.2]

/-- The syntax node and all nodes in it have the parts that they need to fill a role. -/
inductive Fills : Role → Node → Prop
  | function {o name params body} : Fills .block body →
      Fills .function (.mk (.function name params) o [body])
  | block {o statements} : (∀ n ∈ statements, Fills .statement n) →
      Fills .block (.mk .block o statements)
  | letDecl {o x value} : Fills .expression value →
      Fills .statement (.mk (.letDecl x) o [value])
  | varDecl {o x value} : Fills .expression value →
      Fills .statement (.mk (.varDecl x) o [value])
  | assign {o x value} : Fills .expression value →
      Fills .statement (.mk (.assign x) o [value])
  | returns {o : Origin} {value : Option Node} : (∀ n ∈ value, Fills .expression n) →
      Fills .statement (.mk .returns o value.toList)
  | conditional {o : Origin} {condition action : Node} {other : Option Node} :
      Fills .expression condition → Fills .block action → (∀ n ∈ other, Fills .elseBranch n) →
      Fills .statement (.mk .conditional o (condition :: action :: other.toList))
  | loop {o condition body} : Fills .expression condition → Fills .block body →
      Fills .statement (.mk .loop o [condition, body])
  | caseOf {o clauses fallback} :
      (∀ n ∈ clauses, Fills (.clause .statement) n) → (∀ p ∈ fallback, Fills .block p.2) →
      Fills .statement (.mk .caseOf o (clauses ++ fallbackPart fallback))
  | matchOf {o clauses fallback} :
      (∀ n ∈ clauses, Fills (.clause .value) n) → (∀ p ∈ fallback, Fills .expression p.2) →
      Fills .expression (.mk .matchOf o (clauses ++ fallbackPart fallback))
  | whenClause {o arm condition action} : Fills .expression condition →
      Fills arm.actionRole action → Fills (.clause arm) (.mk .whenClause o [condition, action])
  | elseBlock {n} : Fills .block n → Fills .elseBranch n
  | elseIf {n} : n.form = .conditional → Fills .statement n → Fills .elseBranch n
  | expression {n} : Fills .expression n → Fills .statement n
  | binary {o symbol left right} :
      (BinaryOperator.ofSymbol? symbol).isSome = true → Fills .expression left → Fills .expression right →
      Fills .expression (.mk (.binary symbol) o [left, right])
  | unary {o symbol operand} : (UnaryOperator.ofSymbol? symbol).isSome = true → Fills .expression operand →
      Fills .expression (.mk (.unary symbol) o [operand])
  | call {o name arguments} : (∀ n ∈ arguments, Fills .expression n) →
      Fills .expression (.mk (.call name) o arguments)
  | closure {o params role body} : role = .block ∨ role = .expression → Fills role body →
      Fills .expression (.mk (.closure params) o [body])
  | identifier {o name} : Fills .expression (.mk (.identifier name) o [])
  | integer {o value} : Fills .expression (.mk (.integer value) o [])
  | float {o value} : Fills .expression (.mk (.float value) o [])
  | string {o value} : Fills .expression (.mk (.string value) o [])
  | boolean {o value} : Fills .expression (.mk (.boolean value) o [])
  | null {o} : Fills .expression (.mk .null o [])

def Makes : Rule → Node → Prop
  | .functionDecl, n => Fills .function n
  | .block, n => Fills .block n
  | .ifStmt, n => n.form = .conditional ∧ Fills .statement n
  | .letStmt, n | .varStmt, n | .assignStmt, n | .returnStmt, n | .whileStmt, n | .caseStmt, n
  | .expressionStmt, n => Fills .statement n
  | .whenClause, n => Fills (.clause .statement) n
  | .matchWhen, n => Fills (.clause .value) n
  | .otherwiseClause, n => ∃ o action, n = .mk .otherwise o [action] ∧ Fills .block action
  | .matchOtherwise, n => ∃ o action, n = .mk .otherwise o [action] ∧ Fills .expression action
  | .matchExpr, n | .expression, n | .orExpr, n | .andExpr, n | .comparison, n | .additive, n
  | .multiplicative, n | .unary, n | .closure, n | .call, n | .float, n | .integer, n | .string, n
  | .boolean, n | .null, n | .identifier, n => Fills .expression n
  | _, _ => True

/-! ### What a conversion comes to -/

def isTooLarge (p : Parse) : Bool := maxInteger < Decimal.valueOf p.text.toList

/-- The step comes to the first of these integers that is too large.  If there is none it succeeds with
something of the kind `P`. -/
def Converts {α : Type} (file : String) (integers : List Parse) (P : α → Prop) (step : Except SyntaxError α) :
    Prop :=
  match integers.find? isTooLarge with
  | none => ∃ a, step = .ok a ∧ P a
  | some q => step = .error (.integerTooLarge q.text (q.origin file))

section
variable {α β : Type} {file : String} {ps qs : List Parse} {x : Except SyntaxError α} {P : α → Prop} {Q : β → Prop}

theorem converts_pure {a : α} (h : P a) : Converts file [] P (pure a : Except SyntaxError α) := ⟨a, rfl, h⟩

theorem Converts.bind {f : α → Except SyntaxError β} (hx : Converts file ps P x)
    (hf : ∀ a, P a → Converts file qs Q (f a)) : Converts file (ps ++ qs) Q (x >>= f) := by
  unfold Converts at *
  rw [find?_append]
  cases hps : ps.find? isTooLarge with
  | some q =>
    rw [hps] at hx
    rw [hx]
    rfl
  | none =>
    rw [hps] at hx
    obtain ⟨a, rfl, ha⟩ := hx
    exact hf a ha

theorem Converts.map {f : α → β} (hx : Converts file ps P x) (hf : ∀ a, P a → Q (f a)) :
    Converts file ps Q (do return f (← x)) := by
  have := hx.bind fun a ha => (converts_pure (hf a ha) : Converts file [] Q _)
  rwa [append_nil] at this

theorem Converts.mono {Q : α → Prop} (hx : Converts file ps P x) (h : ∀ a, P a → Q a) : Converts file ps Q x := by
  unfold Converts at *
  split at hx
  · exact hx.imp fun a ha => ⟨ha.1, h a ha.2⟩
  · exact hx

theorem Converts.of_ok {a : α} (h : Converts file ps P x) (hx : x = .ok a) : P a := by
  unfold Converts at h
  split at h
  · obtain ⟨_, rfl, ha⟩ := h
    cases hx
    exact ha
  · rw [h] at hx
    cases hx

end

/-! ### Conversion of a parse -/

/-- The reader that takes nodes of a rule. -/
def readerOf : Rule → Reader
  | .functionDecl => .function
  | .block => .block
  | .letStmt | .varStmt | .assignStmt | .returnStmt | .ifStmt | .whileStmt | .caseStmt | .expressionStmt =>
    .statement
  | .whenClause | .otherwiseClause => .caseClause
  | .matchWhen | .matchOtherwise => .matchClause
  | _ => .expression

def isSyntax (r : Rule) : Bool := r = .identifier || !r.isSilent && r ≠ .compilationUnit && r ≠ .argList

/-- The reader of a node makes of it what its rule asks for, unless an integer in it is too large. -/
structure Converted (file : String) (p : Parse) : Prop where
  node : isSyntax p.rule = true → Converts file p.integers (Makes p.rule) (read file (readerOf p.rule) p)
  arguments : p.rule = .argList →
    Converts file p.integers (fun ns => ∀ n ∈ ns, Fills .expression n) (readAll file .expression p.children)

section
variable {file : String} {p : Parse} {ps operators : List Parse} {r r' : Rule} {ns : List Node} {rs : List Rule}
  {count : Nat} {o : Origin}

theorem Converted.of_rule (h : Converted file p) (hp : p.rule = r) (hr : isSyntax r = true) :
    Converts file p.integers (Makes r) (read file (readerOf r) p) := by
  subst hp
  exact h.node hr

theorem converts_readAll {reader : Reader} (h : ∀ p ∈ ps, Converted file p)
    (hps : ∀ r ∈ ps.map Parse.rule, isSyntax r = true ∧ readerOf r = reader) :
    Converts file (Parse.integersAll ps) (Forall₂ Makes (ps.map Parse.rule)) (readAll file reader ps) := by
  induction ps with
  | nil =>
    rw [Parse.integersAll, readAll]
    exact converts_pure .nil
  | cons p ps ih =>
    obtain ⟨hp, hrest⟩ := forall_mem_cons.mp h
    obtain ⟨⟨hr, rfl⟩, hrs⟩ := forall_mem_cons.mp hps
    rw [Parse.integersAll, readAll]
    exact (hp.node hr).bind fun n hn => (ih hrest hrs).map fun ns hns => .cons hn hns

theorem exists_fallback (clause otherwise : Rule) {role : Role}
    (hotherwise : ∀ n, Makes otherwise n → ∃ o action, n = .mk .otherwise o [action] ∧ Fills role action)
    (hrs : rs = replicate count clause ∨ rs = replicate count clause ++ [otherwise])
    (h : Forall₂ Makes rs ns) :
    ∃ clauses fallback, ns = clauses ++ fallbackPart fallback ∧ (∀ n ∈ clauses, Makes clause n) ∧
      ∀ p ∈ fallback, Fills role p.2 := by
  induction count generalizing rs ns with
  | zero =>
    rcases hrs with rfl | rfl
    · cases h
      exact ⟨[], none, rfl, forall_mem_nil _, nofun⟩
    · rcases h with _ | ⟨hn, _ | _⟩
      obtain ⟨o, action, rfl, haction⟩ := hotherwise _ hn
      refine ⟨[], some (o, action), rfl, forall_mem_nil _, ?_⟩
      rintro p ⟨⟩
      exact haction
  | succ count ih =>
    obtain ⟨rest, rfl, hrest⟩ : ∃ rest, rs = clause :: rest ∧
        (rest = replicate count clause ∨ rest = replicate count clause ++ [otherwise]) := by
      rcases hrs with rfl | rfl
      · exact ⟨_, rfl, .inl rfl⟩
      · exact ⟨_, rfl, .inr rfl⟩
    obtain ⟨n, ns, hn, hns, rfl⟩ := forall₂_cons_left_iff.mp h
    obtain ⟨clauses, fallback, rfl, hclauses, hfallback⟩ := ih hrest hns
    exact ⟨n :: clauses, fallback, rfl, forall_mem_cons.mpr ⟨hn, hclauses⟩, hfallback⟩

theorem converts_readChain {operator operand : Rule} {words : List String}
    (hoperator : operator.operators? = some words) (hsilent : operator.isSilent = true)
    (hwords : ∀ s ∈ words, (BinaryOperator.ofSymbol? s).isSome = true)
    (hoperand : ∀ p ∈ ps, p.rule = operand → Converts file p.integers (Fills .expression) (read file .expression p))
    (hrules : ps.map Parse.rule = (replicate count [operator, operand]).flatten) (hformed : ∀ p ∈ ps, p.Formed)
    {left : Node} (hleft : Fills .expression left) :
    Converts file (Parse.integersAll ps) (Fills .expression) (readChain file o left ps) := by
  induction count generalizing ps left with
  | zero =>
    obtain rfl := map_eq_nil_iff.mp hrules
    rw [Parse.integersAll, readChain]
    exact converts_pure hleft
  | succ count ih =>
    obtain ⟨op, _, rfl, hop, hrules⟩ := map_eq_cons_iff.mp hrules
    obtain ⟨right, rest, rfl, hright, hrules⟩ := map_eq_cons_iff.mp hrules
    simp only [forall_mem_cons] at hoperand hformed
    have hnone : op.integers = [] := hformed.1.integers_eq_nil (hop.symm ▸ hsilent)
    have hsymbol := hwords _ (hformed.1.text_mem (hop ▸ hoperator))
    rw [Parse.integersAll, hnone, nil_append, Parse.integersAll, readChain]
    exact (hoperand.2.1 hright).bind fun n hn => ih hoperand.2.2 hrules hformed.2.2 (.binary hsymbol hleft hn)

theorem converts_chain {operator operand : Rule} {words : List String}
    (hleaves : ∃ count, ps.map Parse.rule = operand :: (replicate count [operator, operand]).flatten)
    (hformed : ∀ p ∈ ps, p.Formed)
    (hoperand : ∀ p ∈ ps, p.rule = operand → Converts file p.integers (Fills .expression) (read file .expression p))
    (hoperator : operator.operators? = some words) (hsilent : operator.isSilent = true)
    (hwords : ∀ s ∈ words, (BinaryOperator.ofSymbol? s).isSome = true) :
    ∃ first rest, ps = first :: rest ∧ ∀ o, Converts file (Parse.integersAll ps) (Fills .expression)
      (do readChain file o (← read file .expression first) rest) := by
  obtain ⟨count, hrules⟩ := hleaves
  obtain ⟨first, rest, rfl, hfirst, hrest⟩ := map_eq_cons_iff.mp hrules
  obtain ⟨hpfirst, hprest⟩ := forall_mem_cons.mp hoperand
  refine ⟨first, rest, rfl, fun o => ?_⟩
  rw [Parse.integersAll]
  exact (hpfirst hfirst).bind fun left hleft =>
    converts_readChain hoperator hsilent hwords hprest hrest (forall_mem_cons.mp hformed).2 hleft

theorem fills_prefixed {operand : Node}
    (hoperators : ∀ p ∈ operators, (UnaryOperator.ofSymbol? p.text).isSome = true)
    (hoperand : Fills .expression operand) : Fills .expression (prefixed file operand operators) := by
  induction operators with
  | nil => exact hoperand
  | cons op operators ih =>
    obtain ⟨hop, hoperators⟩ := forall_mem_cons.mp hoperators
    exact .unary hop (ih hoperators)

theorem isSome_ofSymbol?_unary {s : String} (h : s ∈ ["-", "not"]) :
    (UnaryOperator.ofSymbol? s).isSome = true := by
  simp only [mem_cons, not_mem_nil, or_false] at h
  rcases h with rfl | rfl <;> decide

theorem converts_readUnary {before : List Parse} {operand : Parse}
    (hbefore : ∀ p ∈ before, (UnaryOperator.ofSymbol? p.text).isSome = true)
    (hoperators : ∀ p ∈ operators, p.Formed ∧ p.rule = .unaryOp) (hrule : operand.rule ≠ .unaryOp)
    (hoperand : Converts file operand.integers (Fills .expression) (read file .expression operand)) :
    Converts file (Parse.integersAll (operators ++ [operand])) (Fills .expression)
      (readUnary file o before none (operators ++ [operand])) := by
  induction operators generalizing before with
  | nil =>
    rw [nil_append, Parse.integersAll, Parse.integersAll, append_nil, readUnary, if_neg hrule]
    simp only [readUnary]
    exact hoperand.map fun n hn => fills_prefixed hbefore hn
  | cons op operators ih =>
    obtain ⟨⟨hformed, hop⟩, hoperators⟩ := forall_mem_cons.mp hoperators
    have hnone : op.integers = [] := hformed.integers_eq_nil (hop.symm ▸ rfl)
    have hword : op.rule.operators? = some ["-", "not"] := hop ▸ rfl
    have hsymbol := isSome_ofSymbol?_unary (hformed.text_mem hword)
    rw [cons_append, Parse.integersAll, hnone, nil_append, readUnary, if_pos hop]
    exact ih (forall_mem_append.mpr ⟨hbefore, forall_mem_singleton.mpr hsymbol⟩) hoperators

theorem eq_one_of_map (h : ps.map Parse.rule = [r]) : ∃ p, ps = [p] ∧ p.rule = r :=
  map_eq_singleton_iff.mp h

theorem eq_two_of_map (h : ps.map Parse.rule = [r, r']) :
    ∃ p p', ps = [p, p'] ∧ p.rule = r ∧ p'.rule = r' := by
  obtain ⟨p, _, rfl, hp, hrest⟩ := map_eq_cons_iff.mp h
  obtain ⟨p', rfl, hp'⟩ := eq_one_of_map hrest
  exact ⟨p, p', rfl, hp, hp'⟩

theorem exists_operators (h : Rule.unary.Leaves (ps.map Parse.rule)) :
    ∃ operators operand, ps = operators ++ [operand] ∧ (∀ p ∈ operators, p.rule = .unaryOp) ∧
      operand.rule ∈ Rule.primaries := by
  obtain ⟨count, r, hr, hrules⟩ := h
  obtain ⟨operators, last, rfl, hoperators, hlast⟩ := map_eq_append_iff.mp hrules
  obtain ⟨operand, rfl, rfl⟩ := eq_one_of_map hlast
  exact ⟨operators, operand, rfl, fun p hp => eq_of_mem_replicate (hoperators ▸ mem_map_of_mem hp), hr⟩

theorem exists_functions (h : Rule.compilationUnit.body.Row (ps.map Parse.rule)) :
    ∃ module functions, ps = module :: functions ∧ module.rule = .moduleDecl ∧
      ∀ p ∈ functions, p.rule = .functionDecl ∨ p.rule = .endOfInput := by
  obtain ⟨count, hrules⟩ : ∃ count, ps.map Parse.rule =
      Rule.moduleDecl :: (replicate count Rule.functionDecl ++ [Rule.endOfInput]) := by
    simpa [Rule.body, Grammar.Pattern.Row, Grammar.Pattern.sequence, Rule.exists_rounds_iff,
      flatten_replicate_singleton] using h
  obtain ⟨module, functions, rfl, hmodule, hfunctions⟩ := map_eq_cons_iff.mp hrules
  refine ⟨module, functions, rfl, hmodule, fun p hp => ?_⟩
  rcases mem_append.mp (hfunctions ▸ mem_map_of_mem hp) with hmem | hmem
  · exact .inl (eq_of_mem_replicate hmem)
  · exact .inr (mem_singleton.mp hmem)

theorem Parse.integersAll_silent (silent : List Parse) {p : Parse} (h : ∀ q ∈ silent, q.integers = []) :
    Parse.integersAll (silent ++ [p]) = p.integers := by
  induction silent with
  | nil => rw [nil_append, Parse.integersAll, Parse.integersAll, append_nil]
  | cons q silent ih =>
    obtain ⟨hq, hsilent⟩ := forall_mem_cons.mp h
    rw [cons_append, Parse.integersAll, hq, ih hsilent, nil_append]

/-- Parameters and a body of the rule `r`. -/
theorem converts_readBody {reader : Reader} {P : Node → Prop}
    (hrules : ps.map Parse.rule = [r] ∨ ps.map Parse.rule = [.paramList, r]) (hr : r ≠ .paramList)
    (hformed : ∀ p ∈ ps, p.Formed)
    (hbody : ∀ p ∈ ps, p.rule = r → Converts file p.integers P (read file (reader.body r) p)) :
    Converts file (Parse.integersAll ps) (fun b => P b.2) (readBody file reader o ps) := by
  rcases hrules with hrules | hrules
  · obtain ⟨body, rfl, rfl⟩ := eq_one_of_map hrules
    rw [Parse.integersAll, Parse.integersAll, append_nil, readBody, if_neg hr]
    exact (hbody body (.head _) rfl).map fun n hn => hn
  · obtain ⟨params, body, rfl, hparams, rfl⟩ := eq_two_of_map hrules
    have hnone := (hformed params (.head _)).integers_eq_nil (hparams.symm ▸ rfl)
    rw [Parse.integersAll, hnone, nil_append, Parse.integersAll, Parse.integersAll, append_nil, readBody,
      if_pos hparams]
    exact (hbody body (by simp) rfl).map fun n hn => hn

end

theorem fills_of_makes_statement {r : Rule} (hr : r ∈ Rule.statements) {n : Node} (h : Makes r n) :
    Fills .statement n := by
  simp only [Rule.statements, mem_cons, not_mem_nil, or_false] at hr
  rcases hr with rfl | rfl | rfl | rfl | rfl | rfl | rfl | rfl
  case inr.inr.inr.inl => exact h.2
  all_goals exact h

theorem fills_of_makes_primary {r : Rule} (hr : r ∈ Rule.primaries) {n : Node} (h : Makes r n) :
    Fills .expression n := by
  simp only [Rule.primaries, mem_cons, not_mem_nil, or_false] at hr
  rcases hr with rfl | rfl | rfl | rfl | rfl | rfl | rfl | rfl | rfl | rfl <;> exact h

section
variable {file : String} {r : Rule} {start stop : Grammar.Cursor} {parts : List Parse}

theorem converts_token (hr : r.spacing = .token) (hnode : isSyntax r = true) :
    Converts file (Parse.node r start stop parts).integers (Makes r)
      (read file (readerOf r) (.node r start stop parts)) := by
  cases r with
  | integer =>
    simp only [Parse.integers, if_pos, readerOf, read, Converts, find?_singleton]
    by_cases hlarge : isTooLarge (.node .integer start stop parts) = true
    · rw [if_pos hlarge]
      exact if_neg (Nat.not_le.mpr (of_decide_eq_true hlarge))
    · rw [if_neg hlarge]
      exact ⟨_, if_pos (Nat.not_lt.mp (of_decide_eq_false (eq_false_of_ne_true hlarge))), .integer⟩
  | identifier | float | boolean | null =>
    rw [Parse.integers_token hr (by decide)]
    simp only [readerOf, read]
    exact converts_pure (by constructor)
  | keyword | qualifiedName | orOp | andOp | notOp | stringInner => cases hnode
  | _ => cases hr

/-- Rules that make syntax of all their nodes. -/
theorem converts_row {reader : Reader} {P : Node → Prop} {make : List Node → Node}
    (hparts : ∀ p ∈ parts, Converted file p)
    (hreader : ∀ r ∈ parts.map Parse.rule, isSyntax r = true ∧ readerOf r = reader)
    (hmake : ∀ ns, Forall₂ Makes (parts.map Parse.rule) ns → P (make ns)) :
    Converts file (Parse.integersAll parts) P (do return make (← readAll file reader parts)) :=
  (converts_readAll hparts hreader).map hmake

/-- Rules that make syntax of their last node. -/
theorem converts_last (silent : List Parse) {p : Parse} {reader : Reader} {P Q : Node → Prop} {make : Node → Node}
    (hsilent : ∀ q ∈ silent, q.integers = []) (h : Converts file p.integers P (read file reader p))
    (hmake : ∀ n, P n → Q (make n)) :
    Converts file (Parse.integersAll (silent ++ [p])) Q (do return make (← read file reader p)) := by
  rw [Parse.integersAll_silent silent hsilent]
  exact h.map hmake

/-- Rules that make syntax of two nodes. -/
theorem converts_two {p q : Parse} {reader reader' : Reader} {P P' Q : Node → Prop} {make : Node → Node → Node}
    (hp : Converts file p.integers P (read file reader p)) (hq : Converts file q.integers P' (read file reader' q))
    (hmake : ∀ n m, P n → P' m → Q (make n m)) :
    Converts file (Parse.integersAll [p, q]) Q
      (do return make (← read file reader p) (← read file reader' q)) := by
  rw [Parse.integersAll, Parse.integersAll, Parse.integersAll, append_nil]
  exact hp.bind fun n hn => hq.map fun m hm => hmake n m hn hm

theorem syntax_of_clauses {clause otherwise : Rule} {reader : Reader} {rs : List Rule}
    (hclause : isSyntax clause = true ∧ readerOf clause = reader)
    (hotherwise : isSyntax otherwise = true ∧ readerOf otherwise = reader)
    (h : ∃ n, rs = replicate n clause ∨ rs = replicate n clause ++ [otherwise]) :
    ∀ r ∈ rs, isSyntax r = true ∧ readerOf r = reader := by
  obtain ⟨n, rfl | rfl⟩ := h
  · exact fun r hr => eq_of_mem_replicate hr ▸ hclause
  · refine forall_mem_append.mpr ⟨fun r hr => eq_of_mem_replicate hr ▸ hclause, ?_⟩
    exact forall_mem_singleton.mpr hotherwise

theorem converts_leaves (hr : r.spacing ≠ .token) (hnode : isSyntax r = true)
    (hleaves : r.Leaves (parts.map Parse.rule)) (hformed : ∀ p ∈ parts, p.Formed)
    (hparts : ∀ p ∈ parts, Converted file p) :
    Converts file (Parse.integersAll parts) (Makes r) (read file (readerOf r) (.node r start stop parts)) := by
  have hsilent : ∀ {p : Parse} {r' : Rule}, p ∈ parts → p.rule = r' → r'.isSilent = true → p.integers = [] :=
    fun hp hr' hs => (hformed _ hp).integers_eq_nil (hr' ▸ hs)
  have hpart : ∀ {p : Parse} {r' : Rule}, p ∈ parts → p.rule = r' → isSyntax r' = true →
      Converts file p.integers (Makes r') (read file (readerOf r') p) :=
    fun hp hr' hs => (hparts _ hp).of_rule hr' hs
  cases r with
  | functionDecl =>
    obtain ⟨name, rest, rfl, hname, hrest⟩ : ∃ name rest, parts = name :: rest ∧ name.rule = .identifier ∧
        (rest.map Parse.rule = [.block] ∨ rest.map Parse.rule = [.paramList, .block]) := by
      rcases hleaves with hrules | hrules <;>
      · obtain ⟨name, rest, rfl, hname, hrest⟩ := map_eq_cons_iff.mp hrules
        exact ⟨name, rest, rfl, hname, by simp [hrest]⟩
    have hbody : ∀ o, Converts file (Parse.integersAll rest) (fun b => Fills .block b.2)
        (readBody file .function o rest) := fun o =>
      converts_readBody hrest (by decide) (forall_mem_cons.mp hformed).2 fun p hp hp' => hpart (.tail _ hp) hp' rfl
    rw [Parse.integersAll, hsilent (.head _) hname rfl, nil_append]
    simp only [readerOf, read]
    exact (hbody _).map fun b hb => .function hb
  | block =>
    have hstatements : ∀ r ∈ Rule.statements, isSyntax r = true ∧ readerOf r = .statement := by decide
    simp only [readerOf, read]
    refine converts_row hparts (fun r hr => hstatements r (hleaves r hr)) fun ns hns => .block fun m hm => ?_
    obtain ⟨r, hr, hmakes⟩ := exists_of_mem_right hns hm
    exact fills_of_makes_statement (hleaves r hr) hmakes
  | letStmt | varStmt | assignStmt =>
    obtain ⟨name, value, rfl, hname, hvalue⟩ := eq_two_of_map hleaves
    simp only [readerOf, read]
    refine converts_last [name] (forall_mem_singleton.mpr (hsilent (by simp) hname rfl))
      (hpart (by simp) hvalue rfl) fun n hn => ?_
    constructor
    exact hn
  | returnStmt =>
    rcases hleaves with hrules | hrules
    · obtain rfl := map_eq_nil_iff.mp hrules
      rw [Parse.integersAll]
      simp only [readerOf, read]
      exact converts_pure (@Fills.returns _ none (by simp))
    · obtain ⟨value, rfl, hvalue⟩ := eq_one_of_map hrules
      simp only [readerOf, read]
      exact converts_last [] (forall_mem_nil _) (hpart (by simp) hvalue rfl) fun n hn =>
        @Fills.returns _ (some n) fun m hm => Option.some.inj hm ▸ hn
  | ifStmt =>
    rcases hleaves with hrules | hrules | hrules
    · obtain ⟨condition, action, rfl, hcondition, haction⟩ := eq_two_of_map hrules
      simp only [readerOf, read]
      exact converts_two (hpart (by simp) hcondition rfl) (hpart (by simp) haction rfl) fun n m hn hm =>
        ⟨rfl, @Fills.conditional _ _ _ none hn hm (by simp)⟩
    all_goals
      obtain ⟨condition, _, rfl, hcondition, hrest⟩ := map_eq_cons_iff.mp hrules
      obtain ⟨action, other, rfl, haction, hother⟩ := eq_two_of_map hrest
      have hlast := hpart (by simp) hother rfl
      rw [Parse.integersAll, Parse.integersAll, Parse.integersAll, Parse.integersAll, append_nil]
      simp only [readerOf, read, hother]
      refine (hpart (by simp) hcondition rfl).bind fun n hn => (hpart (by simp) haction rfl).bind fun m hm =>
        hlast.map fun x hx => ⟨rfl, @Fills.conditional _ _ _ (some x) hn hm fun y hy => Option.some.inj hy ▸ ?_⟩
    · exact .elseIf hx.1 hx.2
    · exact .elseBlock hx
  | whileStmt =>
    obtain ⟨condition, body, rfl, hcondition, hbody⟩ := eq_two_of_map hleaves
    simp only [readerOf, read]
    exact converts_two (hpart (by simp) hcondition rfl) (hpart (by simp) hbody rfl) fun n m hn hm => .loop hn hm
  | whenClause | matchWhen =>
    obtain ⟨condition, action, rfl, hcondition, haction⟩ := eq_two_of_map hleaves
    simp only [readerOf, read]
    exact converts_two (hpart (by simp) hcondition rfl) (hpart (by simp) haction rfl) fun n m hn hm =>
      .whenClause hn hm
  | otherwiseClause | matchOtherwise =>
    obtain ⟨action, rfl, haction⟩ := eq_one_of_map hleaves
    simp only [readerOf, read]
    exact converts_last [] (forall_mem_nil _) (hpart (by simp) haction rfl) fun n hn => ⟨_, n, rfl, hn⟩
  | caseStmt =>
    simp only [readerOf, read]
    refine converts_row hparts (syntax_of_clauses (by decide) (by decide) hleaves) fun ns hns => ?_
    obtain ⟨count, hrules⟩ := hleaves
    obtain ⟨clauses, fallback, rfl, hclauses, hfallback⟩ :=
      exists_fallback .whenClause .otherwiseClause (fun _ h => h) hrules hns
    exact .caseOf hclauses hfallback
  | matchExpr =>
    simp only [readerOf, read]
    refine converts_row hparts (syntax_of_clauses (by decide) (by decide) hleaves) fun ns hns => ?_
    obtain ⟨count, hrules⟩ := hleaves
    obtain ⟨clauses, fallback, rfl, hclauses, hfallback⟩ :=
      exists_fallback .matchWhen .matchOtherwise (fun _ h => h) hrules hns
    exact .matchOf hclauses hfallback
  | expressionStmt =>
    obtain ⟨inner, rfl, hinner⟩ := eq_one_of_map hleaves
    rw [Parse.integersAll, Parse.integersAll, append_nil]
    simp only [readerOf, read]
    exact (hpart (by simp) hinner rfl).mono fun n hn => .expression hn
  | expression =>
    obtain ⟨inner, rfl, hinner⟩ := eq_one_of_map hleaves
    have hpart := hpart (by simp) hinner rfl
    rw [Parse.integersAll, Parse.integersAll, append_nil]
    simp only [readerOf, read]
    exact hpart
  | orExpr | andExpr | comparison | additive | multiplicative =>
    obtain ⟨first, rest, rfl, hchain⟩ := converts_chain hleaves hformed (fun p hp hp' => hpart hp hp' rfl) rfl rfl
      (by decide)
    simp only [readerOf, read]
    exact hchain _
  | unary =>
    obtain ⟨operators, operand, rfl, hoperators, hoperand⟩ := exists_operators hleaves
    have hprimary : ∀ r ∈ Rule.primaries, isSyntax r = true ∧ readerOf r = .expression ∧ r ≠ .unaryOp := by decide
    obtain ⟨hnode', hreader, hne⟩ := hprimary _ hoperand
    have hlast := (hparts operand (by simp)).node hnode'
    rw [hreader] at hlast
    simp only [readerOf, read]
    exact converts_readUnary (forall_mem_nil _)
      (fun p hp => ⟨hformed p (mem_append_left _ hp), hoperators p hp⟩) hne
      (hlast.mono fun n hn => fills_of_makes_primary hoperand hn)
  | closure =>
    simp only [readerOf, read]
    have hbody {r' : Rule} {role : Role} (hrules : parts.map Parse.rule = [r'] ∨ parts.map Parse.rule = [.paramList, r'])
        (hne : r' ≠ .paramList) (hrole : role = .block ∨ role = .expression)
        (hread : ∀ p ∈ parts, p.rule = r' →
          Converts file p.integers (Fills role) (read file (Reader.expression.body r') p)) (o : Origin) :=
      (@converts_readBody _ _ _ o _ _ hrules hne hformed hread).map fun b hb => @Fills.closure o b.1 _ _ hrole hb
    rcases hleaves with (hrules | hrules) | hrules | hrules
    · exact hbody (.inl hrules) (by decide) (.inr rfl) (fun p hp hp' => hpart hp hp' rfl) _
    · exact hbody (.inl hrules) (by decide) (.inl rfl) (fun p hp hp' => hpart hp hp' rfl) _
    · exact hbody (.inr hrules) (by decide) (.inr rfl) (fun p hp hp' => hpart hp hp' rfl) _
    · exact hbody (.inr hrules) (by decide) (.inl rfl) (fun p hp hp' => hpart hp hp' rfl) _
  | call =>
    rcases hleaves with hrules | hrules
    · obtain ⟨name, rfl, hname⟩ := eq_one_of_map hrules
      rw [Parse.integersAll_eq_nil (forall_mem_singleton.mpr (hsilent (by simp) hname rfl))]
      simp only [readerOf, read]
      exact converts_pure (.call (forall_mem_nil _))
    · obtain ⟨name, list, rfl, hname, hlist⟩ := eq_two_of_map hrules
      have harguments := (hparts list (by simp)).arguments hlist
      obtain ⟨_, _, _, arguments⟩ := list
      rw [Parse.integersAll, hsilent (p := name) (by simp) hname rfl, nil_append, Parse.integersAll,
        Parse.integersAll, append_nil]
      simp only [readerOf, read]
      exact harguments.map fun ns hns => .call hns
  | string =>
    obtain ⟨inner, rfl, hinner⟩ := eq_one_of_map hleaves
    rw [Parse.integersAll_eq_nil (forall_mem_singleton.mpr (hsilent (by simp) hinner rfl))]
    simp only [readerOf, read]
    exact converts_pure .string
  | identifier | integer | float | boolean | null => exact absurd rfl hr
  | _ => cases hnode

end

variable {file : String} {p : Parse} {ps : List Parse}

theorem converted_of_formed (h : p.Formed) : Converted file p := by
  induction p with
  | node r start stop parts ih =>
    cases h with
    | node _ hrow hformed =>
      by_cases hr : r.spacing = .token
      · refine ⟨fun hnode => converts_token hr hnode, ?_⟩
        rintro rfl
        cases hr
      · have hleaves := Rule.leaves_of_row (hrow hr)
        have hparts : ∀ p ∈ parts, Converted file p := fun p hp => ih p hp (hformed hr p hp)
        refine ⟨fun hnode => ?_, ?_⟩
        · rw [Parse.integers_node hr]
          exact converts_leaves hr hnode hleaves (hformed hr) hparts
        · rintro rfl
          rw [Parse.integers_node hr]
          refine (converts_readAll hparts fun r' hr' => hleaves r' hr' ▸ ⟨rfl, rfl⟩).mono fun ns hns n hn => ?_
          obtain ⟨r', hr', hmakes⟩ := exists_of_mem_right hns hn
          obtain rfl := hleaves r' hr'
          exact hmakes

/-! ### Whole files -/

theorem converts_functionsOf (hformed : ∀ p ∈ ps, p.Formed)
    (hrules : ∀ p ∈ ps, p.rule = .functionDecl ∨ p.rule = .endOfInput) :
    Converts file (Parse.integersAll ps) (fun ns => ∀ n ∈ ns, Fills .function n) (functionsOf file ps) := by
  induction ps with
  | nil =>
    rw [Parse.integersAll, functionsOf]
    exact converts_pure (forall_mem_nil _)
  | cons p ps ih =>
    obtain ⟨hp, hps⟩ := forall_mem_cons.mp hformed
    obtain ⟨hr, hrs⟩ := forall_mem_cons.mp hrules
    rw [Parse.integersAll, functionsOf]
    rcases hr with hr | hr
    · rw [if_pos hr]
      exact ((converted_of_formed hp).of_rule hr rfl).bind fun n hn =>
        (ih hps hrs).map fun ns hns => forall_mem_cons.mpr ⟨hn, hns⟩
    · rw [if_neg (by rw [hr]; decide), if_pos hr, hp.integers_eq_nil (hr.symm ▸ rfl), nil_append]
      exact ih hps hrs

theorem converts_unitOf (h : p.Formed) (hp : p.rule = .compilationUnit) :
    Converts file p.integers (fun unit => ∀ n ∈ unit.functions, Fills .function n) (unitOf file p) := by
  cases h with
  | @node r start stop parts _ hrow hformed =>
    obtain rfl : r = .compilationUnit := hp
    have hformed := hformed (by decide)
    obtain ⟨module, functions, rfl, hmodule, hfunctions⟩ := exists_functions (hrow (by decide))
    obtain ⟨hmformed, hfformed⟩ := forall_mem_cons.mp hformed
    have hnone : module.integers = [] := hmformed.integers_eq_nil (hmodule.symm ▸ rfl)
    rw [Parse.integers_node (by decide), Parse.integersAll, hnone, nil_append, unitOf, Parse.children]
    exact (converts_functionsOf hfformed hfunctions).map fun ns hns => hns

theorem exists_formed {text : String} {nodes : List Parse} (h : Grammar.parse .compilationUnit text = .ok nodes) :
    ∃ p, nodes = [p] ∧ p.Formed ∧ p.rule = .compilationUnit := by
  obtain ⟨stop, hderives⟩ := Grammar.derives_of_parse h
  have hformed := (hderives.formed rfl).2
  obtain ⟨parts, -, rfl⟩ := hderives.of_rule rfl
  exact ⟨_, rfl, forall_mem_singleton.mp hformed, rfl⟩

theorem fills_of_parse {source : SourceFile} {unit : CompilationUnit} (h : parse source = .ok unit) :
    ∀ n ∈ unit.functions, Fills .function n := by
  unfold parse at h
  split_ifs at h
  split at h
  · rename_i p rest hparse
    obtain ⟨_, ⟨⟩, hformed, hrule⟩ := exists_formed hparse
    exact (converts_unitOf hformed hrule).of_ok h
  · cases h
  · cases h

end Ast

end Clausal
