import Clausal.Proofs.Printing.Phrases

/-! # Reading a printed file

A function that returns an expression is printed as a source file, with single blanks between the words.  Parsing the
file gives the expression back (`parse_printed`): the printed brackets are enough, and none of them leaves a trace. -/

namespace Clausal.Printing

open Grammar Grammar.Pattern Fails
open Ast (Node)

/-! ### The text of a file -/

def joined (ws : List Word) : List Char := [' '].intercalate (ws.map Word.chars)

def Expr.text (e : Expr) : String := String.ofList (joined e.words)

def fileOf (m f : Name) (e : Expr) : String :=
  "module " ++ m.text ++ " function " ++ f.text ++ " = | | \x7b return " ++ e.text ++ " \x7d"

def opening (m f : Name) : List Word :=
  [fixed "module" rfl, m.word, fixed "function" rfl, f.word, fixed "=" rfl, fixed "|" (.refl true),
    fixed "|" (.refl true), fixed "\x7b" (.refl true), fixed "return" rfl]

theorem joined_append_blank {ws : List Word} (h : ws ≠ []) : joined ws ++ [' '] = layout ws := by
  induction ws with
  | nil => exact absurd rfl h
  | cons w ws ih =>
    cases ws with
    | nil => simp [joined, layout]
    | cons v ws =>
      rw [layout, ← ih (by simp)]
      simp [joined, List.intercalate_cons_cons]

theorem Expr.words_ne_nil (e : Expr) : e.words ≠ [] := by
  cases e with
  | boolean b => cases b <;> simp [Expr.words]
  | _ => simp [Expr.words]

theorem toList_fileOf (m f : Name) (e : Expr) :
    (fileOf m f e).toList = layout (opening m f ++ e.words) ++ ['\x7d'] := by
  rw [layout_append, ← joined_append_blank e.words_ne_nil]
  simp [fileOf, opening, layout, Expr.text, Name.text, Name.word, fixed]

/-! ### Statements -/

variable {k : Cursor} {ws : List Word} {rest : List Char} {n : Node}

theorem blocks_brace : Level.whole.Blocks ['\x7d'] := by
  refine ⟨by decide, fun op _ => ?_⟩
  cases op <;> decide

theorem clear_brace : Clear ['\x7d'] := by
  rintro _ ⟨⟩
  decide

theorem fails_expression_brace (hk : k.At [] ['\x7d']) : Fails (.rule .expression) {} k :=
  fails_expression hk.skip_eq (by rw [hk.rest_eq]; rfl) rfl rfl (by decide)

theorem fails_statement (hk : k.At [] ['\x7d']) : Fails Rule.statement {} k := by
  have hkeyword : ∀ s : String, ¬ s.toList <+: ['\x7d'] → Fails (keyword s) {} k := fun s hs =>
    fails_keyword_word hk.skip_eq (by rw [hk.rest_eq]; exact hs)
  have hname : Fails (.rule .identifier) {} k := fails_identifier {} (by rw [hk.rest_eq]; rintro _ ⟨⟩; rfl)
  exact (rule (r := .letStmt) (hkeyword "let" (by decide)).seq).choice
    ((rule (r := .varStmt) (hkeyword "var" (by decide)).seq).choice
    ((rule (r := .returnStmt) (hkeyword "return" (by decide)).seq).choice
    ((rule (r := .ifStmt) (hkeyword "if" (by decide)).seq).choice
    ((rule (r := .whileStmt) (hkeyword "while" (by decide)).seq).choice
    ((rule (r := .caseStmt) (hkeyword "case" (by decide)).seq).choice
    ((rule (r := .assignStmt) hname.seq).choice
    (rule (r := .expressionStmt) (fails_expression_brace hk))))))))

theorem spans_return (h : Reads .whole .whole ws n) (hk : k.At (fixed "return" rfl :: ws) ['\x7d']) :
    ∃ p, Spans Rule.statement {} k (k.after (fixed "return" rfl :: ws)) [p] ∧ Denotes .statement p (built .returns [n]) := by
  have hlet : Fails (.rule .letStmt) {} k := fails_clause rfl rfl hk (by decide) rfl
  have hvar : Fails (.rule .varStmt) {} k := fails_clause rfl rfl hk (by decide) rfl
  have hreturn : Spans (keyword "return") {} k _ [] := spans_keyword (by decide) hk rfl
  obtain ⟨p, hp, hn⟩ := h hk.next blocks_brace
  have hbrace : Fails (word "\x7d") { lookahead := .negative } (k.after [fixed "return" rfl]) := by
    refine fails_word fun ⟨r, hr⟩ => ?_
    obtain ⟨stop, hanswers, -⟩ := hp
    have hfails := fails_expression (c := '\x7d') hk.next.skip_eq (by rw [← hr]; rfl) rfl rfl (by decide)
    cases hanswers.unique hfails
  have hahead : Spans (.notAhead (word "\x7d")) {} (k.after [fixed "return" rfl]) _ [] :=
    ⟨_, hbrace.notAhead, hk.next.skip_eq⟩
  obtain ⟨stop, hrule⟩ := Spans.exists_node (r := .returnStmt) rfl (hreturn.seq (hahead.seq hp).optional)
  rw [Cursor.after_cons]
  exact ⟨_, hlet.choice_right (hvar.choice_right hrule.choice_left),
    denotes_parts (.cons hn .nil) fun file => by simp [Ast.read, Ast.readAll]⟩

/-! ### The file -/

theorem spans_lastBrace (hk : k.At [] ['\x7d']) :
    Spans (word "\x7d") {} k (k.beyond ['\x7d']) [] ∧ (k.beyond ['\x7d']).At [] [] := by
  have hrest : (k.beyond ['\x7d']).rest = [] := Cursor.rest_beyond_singleton hk.rest_eq
  have hend : (k.beyond ['\x7d']).At [] [] := ⟨hrest, fun _ => nofun⟩
  exact ⟨⟨_, answers_word (s := "\x7d") hk.rest_eq, hend.skip_eq⟩, hend⟩

theorem spans_qualifiedName (x : Name) (hk : k.At (x.word :: ws) rest) :
    Spans (.rule .qualifiedName) {} k (k.after [x.word]) [.node .qualifiedName k (k.beyond x.chars) []] := by
  refine Spans.token (w := x.word) rfl ?_ hk
  have hname : Spans (.rule .identifier) { spacing := .token } k _ [] :=
    Answers.spans_of_ne (answers_identifier { spacing := .token } x hk) nofun
  have hdot : Fails (word ".") { spacing := .token } (k.beyond x.chars) := fails_word (by
    rw [Cursor.rest_beyond (show k.rest = x.chars ++ _ from hk.head)]
    rintro ⟨_, h⟩
    cases h)
  exact hname.seq (hdot.seq.spans_many rfl)

theorem spans_block (h : Reads .whole .whole ws n) (hk : k.At (fixed "\x7b" rfl :: fixed "return" rfl :: ws) ['\x7d']) :
    ∃ k' p, Spans (.rule .block) {} k k' [p] ∧ k'.At [] [] ∧ p.rule = .block ∧
      Denotes .block p (built .block [built .returns [n]]) := by
  have hopen : Spans (word "\x7b") {} k _ [] := spans_sign hk rfl
  obtain ⟨p, hp, hn⟩ := spans_return h hk.next
  have hend := hk.next.nil
  have hstatements := hp.many ((fails_statement hend).spans_many hend.skip_eq)
  obtain ⟨hclose, hlast⟩ := spans_lastBrace hend
  obtain ⟨stop, hrule⟩ := Spans.exists_node (r := .block) rfl (hopen.seq (hstatements.seq hclose))
  exact ⟨_, _, hrule, hlast, rfl, denotes_parts (.cons hn .nil) fun file => by simp only [Ast.read]⟩

theorem spans_function (f : Name) (h : Reads .whole .whole ws n)
    (hk : k.At (fixed "function" rfl :: f.word :: fixed "=" rfl :: fixed "|" rfl :: fixed "|" rfl ::
      fixed "\x7b" rfl :: fixed "return" rfl :: ws) ['\x7d']) :
    ∃ k' p, Spans (.rule .functionDecl) {} k k' [p] ∧ k'.At [] [] ∧ p.rule = .functionDecl ∧
      Denotes .function p (built (.function f.text []) [built .block [built .returns [n]]]) := by
  have hfunction : Spans (keyword "function") {} k _ [] := spans_keyword (by decide) hk rfl
  have hname := spans_identifier f hk.next
  have hequals : Spans (word "=") {} _ _ [] := spans_sign hk.next.next rfl
  have hopen : Spans (word "|") {} _ _ [] := spans_sign hk.next.next.next rfl
  have hbar := hk.next.next.next.next
  have hparams := (fails_paramList hbar).spans_optional hbar.skip_eq
  have hclose : Spans (word "|") {} _ _ [] := spans_sign hbar rfl
  obtain ⟨k', body, hbody, hlast, hblock, hn⟩ := spans_block h hbar.next
  obtain ⟨stop, hrule⟩ := Spans.exists_node (r := .functionDecl) rfl
    (hfunction.seq (hname.seq (hequals.seq (hopen.seq (hparams.seq (hclose.seq hbody))))))
  refine ⟨k', _, hrule, hlast, rfl, denotes_node fun file => ?_⟩
  obtain ⟨b, hb, hbare⟩ := hn file
  refine ⟨[b], ?_, congrArg (fun n => [n]) hbare⟩
  show Ast.read file .function (.node .functionDecl k stop [_, body]) = _
  have hreader : Ast.Reader.function.body .block = .block := rfl
  simp only [Ast.read, Ast.readBody, hblock, hreader, hb, text_identifier f hk.next]
  rfl

theorem answers_file (m f : Name) (h : Reads .whole .whole ws n) (hk : k.At (opening m f ++ ws) ['\x7d'])
    (hstart : k.offset = 0) : ∃ stop module function finish,
      Answers (.rule .compilationUnit) {} k
        (.matched stop [.node .compilationUnit k stop [module, function, finish]]) ∧
      Ast.innerText module.children = m.text ∧
      (function.rule = .functionDecl ∧
        Denotes .function function (built (.function f.text []) [built .block [built .returns [n]]])) ∧
      finish.rule = .endOfInput := by
  have hfirst : Spans .start {} k k [] := ⟨k, answers_start {} hstart, hk.skip_eq⟩
  have hmodule : Spans (keyword "module") {} k _ [] := spans_keyword (by decide) hk rfl
  obtain ⟨stop1, hdecl⟩ := Spans.exists_node (r := .moduleDecl) rfl (hmodule.seq (spans_qualifiedName m hk.next))
  obtain ⟨k1, function, hfunction, hlast, hrule, hn⟩ := spans_function f h hk.next.next
  have hnone : Fails (.rule .functionDecl) {} k1 := rule (r := .functionDecl)
    (fails_keyword_word hlast.skip_eq (by rw [hlast.rest_eq]; decide)).seq
  have hfunctions := hfunction.many (hnone.spans_many hlast.skip_eq)
  have hfinish : Spans .finish {} k1 k1 [] := ⟨k1, answers_finish {} hlast.rest_eq, hlast.skip_eq⟩
  obtain ⟨stop2, hend⟩ := Spans.exists_node (r := .endOfInput) rfl hfinish
  obtain ⟨stop, hanswers, -⟩ := hfirst.seq (hdecl.seq (hfunctions.seq hend))
  refine ⟨stop, _, function, _, Answers.rule (r := .compilationUnit) hanswers, ?_, ⟨hrule, hn⟩, rfl⟩
  exact Parse.text_node hk.next.head _ _

theorem not_isEmpty_fileOf (m f : Name) (e : Expr) (file : String) :
    (SourceFile.ofText file (fileOf m f e)).isEmpty = false := by
  simp [SourceFile.isEmpty, SourceFile.ofText, toList_fileOf, opening, layout, fixed, Text.isBlank, Text.blankRanges]

/-- A file that returns an expression is parsed, and the function of its syntax returns the same expression. -/
theorem parse_printed (m f : Name) (e : Expr) (file : String) : ∃ unit,
    Ast.parse (.ofText file (fileOf m f e)) = .ok unit ∧ unit.name = m.text ∧
    Node.bareAll unit.functions = [built (.function f.text []) [built .block [built .returns [e.node]]]] := by
  have hk : (Cursor.ofText (fileOf m f e)).At (opening m f ++ e.words) ['\x7d'] := ⟨toList_fileOf m f e, clear_brace⟩
  obtain ⟨stop, module, function, finish, hanswers, hname, ⟨hrule, hn⟩, hfinish⟩ :=
    answers_file m f ((sound e).reads (Nat.zero_le _) (by decide)) hk rfl
  obtain ⟨n, hread, hbare⟩ := hn file
  have hfunctions : Ast.functionsOf file [function, finish] = .ok [n] := by
    rw [Ast.functionsOf, if_pos hrule, hread, Ast.functionsOf, hfinish, if_neg (by simp), if_pos rfl, Ast.functionsOf]
    rfl
  refine ⟨⟨file, Ast.innerText module.children, [n], some ((Cursor.ofText (fileOf m f e)).location file)⟩, ?_, hname,
    congrArg (fun n => [n]) hbare⟩
  rw [Ast.parse, not_isEmpty_fileOf]
  simp only [SourceFile.ofText, parse_of_answers hanswers, Ast.unitOf, Parse.children, hfunctions]
  rfl

end Clausal.Printing
