import Clausal.Proofs.Grammar.Answers

/-! # Words in a text

A text that is written word by word, with a blank behind each word, is read word by word.  `Cursor.At` places
a cursor in front of some words. -/

namespace Clausal.Grammar

open List Rule

/-! ### Cursors behind a text -/

namespace Cursor

variable {k : Cursor} {c : Char} {cs ds r : List Char} {accepts : Char → Bool}

def beyond (k : Cursor) (cs : List Char) : Cursor := cs.foldl (fun k c => k.past c k.rest.tail) k

@[simp]
theorem beyond_append (k : Cursor) (cs ds : List Char) : k.beyond (cs ++ ds) = (k.beyond cs).beyond ds :=
  foldl_append

theorem reads_beyond (h : k.rest = cs ++ r) : k.Reads cs (k.beyond cs) := by
  induction cs generalizing k with
  | nil => exact .refl k
  | cons c cs ih =>
    have htail : k.rest.tail = cs ++ r := congrArg List.tail h
    have hpast : k.Reads [c] (k.past c k.rest.tail) := reads_past (htail ▸ h)
    exact hpast.trans (ih ((k.rest_past c _).trans htail))

theorem rest_beyond (h : k.rest = cs ++ r) : (k.beyond cs).rest = r :=
  (append_cancel_left (h.symm.trans (reads_beyond h).rest)).symm

theorem rest_beyond_singleton (h : k.rest = c :: r) : (k.beyond [c]).rest = r :=
  rest_beyond (r := r) (show k.rest = [c] ++ r from h)

theorem read?_of_rest (h : k.rest = c :: r) :
    k.read? accepts = if accepts c then some (k.beyond [c]) else none := by
  have hbeyond : k.beyond [c] = k.past c r := congrArg (k.past c) (congrArg List.tail h)
  rw [hbeyond, read?, h]

theorem readAll?_of_rest (h : k.rest = cs ++ r) : k.readAll? cs = some (k.beyond cs) := by
  induction cs generalizing k with
  | nil => rfl
  | cons c cs ih =>
    rw [readAll?, read?_of_rest h, if_pos (beq_self_eq_true c)]
    exact (ih (rest_beyond_singleton h)).trans (congrArg some (beyond_append k [c] cs).symm)

theorem readAll?_eq_none (h : ¬ cs <+: k.rest) : k.readAll? cs = none := by
  cases hread : k.readAll? cs with
  | none => rfl
  | some k' => exact absurd ⟨_, (reads_of_readAll? hread).rest.symm⟩ h

theorem read?_eq_none (h : ∀ c ∈ k.rest.head?, accepts c = false) : k.read? accepts = none := by
  unfold read?
  cases hk : k.rest with
  | nil => rfl
  | cons c cs =>
    rw [hk] at h
    exact if_neg (by rw [h c rfl]; nofun)

end Cursor

variable {rest cs : List Char}

theorem Parse.text_node {k : Cursor} (h : k.rest = cs ++ rest) (r : Rule)
    (parts : List Parse) : (Parse.node r k (k.beyond cs) parts).text = String.ofList cs := by
  unfold Parse.text Parse.start Parse.stop
  rw [(Cursor.reads_beyond h).textTo_eq]

namespace Pattern

variable {p q : Pattern} {m : Mode} {k k' : Cursor} {cs rest : List Char} {nodes : List Parse}
  {C : Char → Bool} {s : String}

theorem answers_word (h : k.rest = s.toList ++ rest) :
    Answers (word s) m k (.matched (k.beyond s.toList) []) := by
  have := answers_text s.toList m k
  rwa [Cursor.readAll?_of_rest h] at this

theorem fails_word (h : ¬ s.toList <+: k.rest) : Fails (word s) m k := by
  have := answers_text s.toList m k
  rwa [Cursor.readAll?_eq_none h] at this

/-! ### Characters of a class -/

/-- The pattern reads one character of a class. -/
structure Takes (p : Pattern) (C : Char → Bool) : Prop where
  answers : ∀ {m : Mode} {k : Cursor} {c : Char} {r : List Char}, k.rest = c :: r → C c = true →
    Answers p m k (.matched (k.beyond [c]) [])
  fails : ∀ {m : Mode} {k : Cursor}, (∀ c ∈ k.rest.head?, C c = false) → Fails p m k

theorem takes_one (C : Char → Bool) : Takes (.one C) C where
  answers {m k _ _} hk hc := by
    have := answers_one C m k
    rwa [Cursor.read?_of_rest hk, if_pos hc] at this
  fails {m k} h := by
    have := answers_one C m k
    rwa [Cursor.read?_eq_none h] at this

theorem takes_underscore : Takes (word "_") (· == '_') where
  answers {m k c r} hk hc := by
    obtain rfl := eq_of_beq hc
    exact answers_word (s := "_") hk
  fails {m k} h := by
    refine fails_word fun ⟨r, hr⟩ => ?_
    have := h '_' (by rw [← hr]; rfl)
    cases this

theorem Takes.choice {D : Char → Bool} (hp : Takes p C) (hq : Takes q D) :
    Takes (.choice p q) fun c => C c || D c where
  answers {m k c r} hk hc := by
    cases hC : C c with
    | true => exact (hp.answers hk hC).choice_left
    | false =>
      rw [hC] at hc
      have hfirst : Fails p m k := hp.fails fun d hd => by
        rw [hk] at hd
        cases hd
        exact hC
      exact hfirst.choice (hq.answers hk hc)
  fails {m k} h :=
    (hp.fails fun c hc => (Bool.or_eq_false_iff.mp (h c hc)).1).choice
      (hq.fails fun c hc => (Bool.or_eq_false_iff.mp (h c hc)).2)

theorem takes_nameChar : Takes nameChar isNameChar := (takes_one _).choice takes_underscore

theorem Takes.many (h : Takes p C) (hm : m.spacing ≠ .inherited) (hk : k.rest = cs ++ rest)
    (hcs : ∀ c ∈ cs, C c = true) (hrest : ∀ c ∈ rest.head?, C c = false) :
    Spans (.many p) m k (k.beyond cs) [] := by
  induction cs generalizing k with
  | nil =>
    refine (h.fails fun c hc => ?_).spans_many (skip_of_ne hm k)
    rw [hk] at hc
    exact hrest c hc
  | cons c cs ih =>
    have hfirst := (h.answers (m := m) hk (hcs c (.head _))).spans
    rw [skip_of_ne hm] at hfirst
    have hothers := ih (Cursor.rest_beyond_singleton hk) fun d hd => hcs d (.tail _ hd)
    rw [← Cursor.beyond_append] at hothers
    exact hfirst.many hothers

end Pattern

/-! ### Words -/

/-- A text that starts with a character other than a blank or the sign of a comment. -/
def isSolid : List Char → Bool
  | [] => false
  | c :: _ => !Cursor.isSpace c && c != '#'

theorem isSolid_of_isNameChar {c : Char} (hc : isNameChar c = true) (cs : List Char) : isSolid (c :: cs) = true := by
  unfold isSolid
  by_cases hspace : Cursor.isSpace c = true
  · simp only [Cursor.isSpace, Bool.or_eq_true, beq_iff_eq] at hspace
    rcases hspace with ((rfl | rfl) | rfl) | rfl <;> cases hc
  · by_cases hmark : c = '#'
    · rw [hmark] at hc
      cases hc
    · simp [hspace, hmark]

/-- A word of a text. -/
structure Word where
  chars : List Char
  solid : isSolid chars = true

def layout : List Word → List Char
  | [] => []
  | w :: ws => w.chars ++ ' ' :: layout ws

theorem layout_append (vs ws : List Word) : layout (vs ++ ws) = layout vs ++ layout ws := by
  induction vs with
  | nil => rfl
  | cons w vs ih => simp [layout, ih]

theorem Word.clear (w : Word) (cs : List Char) : Clear (w.chars ++ cs) := by
  obtain ⟨_ | ⟨c, _⟩, hsolid⟩ := w
  · cases hsolid
  · rintro d ⟨⟩
    simpa [isSolid] using hsolid

theorem clear_layout (ws : List Word) (h : Clear rest) : Clear (layout ws ++ rest) := by
  cases ws with
  | nil => exact h
  | cons w ws =>
    rw [layout, append_assoc]
    exact w.clear _

namespace Cursor

variable {k : Cursor} {w : Word} {vs ws : List Word} {rest : List Char}

def after (k : Cursor) (ws : List Word) : Cursor := k.beyond (layout ws)

theorem after_append (k : Cursor) (vs ws : List Word) : k.after (vs ++ ws) = (k.after vs).after ws := by
  rw [after, layout_append, beyond_append]
  rfl

theorem after_cons (k : Cursor) (w : Word) (ws : List Word) : k.after (w :: ws) = (k.after [w]).after ws :=
  after_append k [w] ws

/-- The cursor stands in front of these words, and behind them is a text. -/
structure At (k : Cursor) (ws : List Word) (rest : List Char) : Prop where
  rest_eq : k.rest = layout ws ++ rest
  clear : Clear rest

theorem At.skip_eq (h : k.At ws rest) : ({} : Mode).skip k = k :=
  skip_of_clear (h.rest_eq ▸ clear_layout ws h.clear)

theorem At.left (h : k.At (vs ++ ws) rest) : k.At vs (layout ws ++ rest) where
  rest_eq := by rw [h.rest_eq, layout_append, append_assoc]
  clear := clear_layout ws h.clear

theorem At.after (h : k.At (vs ++ ws) rest) : (k.after vs).At ws rest where
  rest_eq := rest_beyond h.left.rest_eq
  clear := h.clear

theorem At.nil (h : k.At ws rest) : (k.after ws).At [] rest :=
  At.after (show k.At (ws ++ []) rest from (append_nil ws).symm ▸ h)

theorem At.next (h : k.At (w :: ws) rest) : (k.after [w]).At ws rest :=
  At.after (show k.At ([w] ++ ws) rest from h)

theorem At.head (h : k.At (w :: ws) rest) : k.rest = w.chars ++ ' ' :: (layout ws ++ rest) := by
  rw [h.rest_eq, layout, append_assoc]
  rfl

theorem skip_of_blank {r : List Char} (hk : k.rest = ' ' :: r) (hr : Clear r) : k.skip = k.beyond [' '] := by
  have hbeyond : (k.beyond [' ']).rest = r := rest_beyond_singleton hk
  calc k.skip = (k.past ' ' r).skipFrom false r := by rw [skip, hk]; rfl
    _ = (k.beyond [' ']).skip := by
        rw [skip, hbeyond]
        exact congrArg (fun cs => (k.past ' ' cs).skipFrom false r) (congrArg List.tail hk).symm
    _ = k.beyond [' '] := skip_of_clear (hbeyond ▸ hr)

end Cursor

def keywords : List String := "module" :: furtherKeywords

theorem prefix_of_class {C : Char → Bool} {ds : List Char} (h : cs <+: ds ++ rest)
    (hcs : ∀ c ∈ cs, C c = true) (hrest : ∀ c ∈ rest.head?, C c = false) : cs <+: ds := by
  rcases prefix_or_prefix_of_prefix h (prefix_append ds rest) with h' | ⟨es, rfl⟩
  · exact h'
  · obtain ⟨rest', hrest'⟩ := h
    rw [append_assoc, append_cancel_left_eq] at hrest'
    cases es with
    | nil => exact ⟨[], by simp⟩
    | cons c es =>
      have hc := hrest c (by rw [← hrest']; rfl)
      rw [hcs c (by simp)] at hc
      cases hc

namespace Pattern

variable {p : Pattern} {m : Mode} {k : Cursor} {w : Word} {ws : List Word} {rest : List Char} {nodes : List Parse}

theorem Answers.spans_word (h : Answers p {} k (.matched (k.beyond w.chars) nodes)) (hk : k.At (w :: ws) rest) :
    Spans p {} k (k.after [w]) nodes := by
  refine ⟨_, h, ?_⟩
  have hskip : (k.beyond w.chars).skip = (k.beyond w.chars).beyond [' '] :=
    Cursor.skip_of_blank (Cursor.rest_beyond hk.head) (clear_layout ws hk.clear)
  rw [← Cursor.beyond_append] at hskip
  exact hskip

theorem spans_sign {s : String} (hk : k.At (w :: ws) rest) (hw : w.chars = s.toList) :
    Spans (word s) {} k (k.after [w]) [] :=
  Answers.spans_word (hw ▸ answers_word (hw ▸ hk.head)) hk

/-! ### Keywords -/

theorem answers_firstOf (s : String) (ss : List String) (m : Mode) (k : Cursor) :
    Answers (firstOf (word s) (ss.map word)) m k
      (.ofCursor (((s :: ss).find? (·.toList.isPrefixOf k.rest)).map fun t => k.beyond t.toList)) := by
  have hfirst : s.toList.isPrefixOf k.rest = true →
      Answers (word s) m k (.matched (k.beyond s.toList) []) := fun h => by
    obtain ⟨r, hr⟩ := isPrefixOf_iff_prefix.mp h
    exact answers_word hr.symm
  have hfails : s.toList.isPrefixOf k.rest = false → Fails (word s) m k := fun h =>
    fails_word fun hprefix => by
      cases h.symm.trans <| isPrefixOf_iff_prefix.mpr hprefix
  cases h : s.toList.isPrefixOf k.rest with
  | true =>
    rw [find?_cons, h]
    cases ss with
    | nil => exact hfirst h
    | cons s' ss => exact (hfirst h).choice_left
  | false =>
    rw [find?_cons, h]
    cases ss with
    | nil => exact hfails h
    | cons s' ss => exact (hfails h).choice (answers_firstOf s' ss m k)

end Pattern

open Pattern in
/-- The rule reads one of these words, as a whole.  Of the words that one of them starts with, it is the first. -/
structure Rule.ReadsWhole (r : Rule) (s : String) (ss : List String) : Prop where
  body_eq : r.body = .seq (firstOf (word s) (ss.map word)) (.notAhead nameChar)
  spacing_eq : r.spacing = .token
  find?_eq : ∀ t ∈ s :: ss, (s :: ss).find? (·.toList.isPrefixOf t.toList) = some t
  spelled : ∀ t ∈ s :: ss, ∀ c ∈ t.toList, isNameChar c = true

theorem Rule.readsWhole_keyword : Rule.keyword.ReadsWhole "module" furtherKeywords :=
  ⟨rfl, rfl, by decide, by decide⟩

theorem Rule.readsWhole_boolean : boolean.ReadsWhole "true" ["false"] := ⟨rfl, rfl, by decide, by decide⟩

theorem Rule.readsWhole_null : null.ReadsWhole "null" [] := ⟨rfl, rfl, by decide, by decide⟩

theorem Rule.readsWhole_orOp : orOp.ReadsWhole "or" [] := ⟨rfl, rfl, by decide, by decide⟩

theorem Rule.readsWhole_andOp : andOp.ReadsWhole "and" [] := ⟨rfl, rfl, by decide, by decide⟩

theorem Rule.readsWhole_notOp : notOp.ReadsWhole "not" [] := ⟨rfl, rfl, by decide, by decide⟩

section whole

variable {r : Rule} {s t : String} {ss : List String} {m : Mode} {k : Cursor} {cs rest : List Char}

theorem Rule.ReadsWhole.find?_rest (h : r.ReadsWhole s ss) (hk : k.rest = cs ++ rest)
    (hrest : ∀ c ∈ rest.head?, isNameChar c = false) :
    (s :: ss).find? (·.toList.isPrefixOf k.rest) = (s :: ss).find? (·.toList.isPrefixOf cs) := by
  refine find?_congr fun t ht => ?_
  rw [Bool.eq_iff_iff, isPrefixOf_iff_prefix, isPrefixOf_iff_prefix, hk]
  exact ⟨fun h' => prefix_of_class h' (h.spelled t ht) hrest, fun h' => h'.trans (prefix_append ..)⟩

theorem Mode.around_of_token (hr : r.spacing = .token) (m : Mode) : m.around r = m := by
  simp [Mode.around, hr]

theorem Mode.inside_of_token (hr : r.spacing = .token) (m : Mode) :
    (m.around r).inside r = { m with spacing := .token } := by
  simp [Mode.around, Mode.inside, hr]

theorem Rule.ReadsWhole.answers (h : r.ReadsWhole s ss) (m : Mode) (ht : t ∈ s :: ss) (hk : k.rest = t.toList ++ rest)
    (hrest : ∀ c ∈ rest.head?, isNameChar c = false) :
    Pattern.Answers (.rule r) m k ((Outcome.matched (k.beyond t.toList) []).named (m.around r) r k) := by
  have hfirst := Pattern.answers_firstOf s ss { m with spacing := .token } k
  rw [h.find?_rest hk hrest, h.find?_eq t ht] at hfirst
  have hend : ∀ m, Pattern.Fails .nameChar m (k.beyond t.toList) := fun m =>
    Pattern.takes_nameChar.fails (by rw [Cursor.rest_beyond hk]; exact hrest)
  refine Pattern.Answers.rule ?_
  rw [h.body_eq, Mode.inside_of_token h.spacing_eq]
  exact hfirst.seq (hend _).notAhead

theorem Rule.ReadsWhole.fails (h : r.ReadsWhole s ss) (m : Mode) (hno : ∀ t ∈ s :: ss, t.toList ≠ cs)
    (hk : k.rest = cs ++ rest) (hcs : ∀ c ∈ cs, isNameChar c = true) (hrest : ∀ c ∈ rest.head?, isNameChar c = false) :
    Pattern.Fails (.rule r) m k := by
  have hfirst := Pattern.answers_firstOf s ss { m with spacing := .token } k
  refine Pattern.Fails.rule ?_
  rw [h.body_eq, Mode.inside_of_token h.spacing_eq]
  cases hfind : (s :: ss).find? (·.toList.isPrefixOf k.rest) with
  | none =>
    rw [hfind] at hfirst
    exact Pattern.Fails.seq hfirst
  | some t =>
    rw [hfind] at hfirst
    rw [h.find?_rest hk hrest] at hfind
    obtain ⟨ds, rfl⟩ :=
      isPrefixOf_iff_prefix.mp (find?_some (p := fun t : String => t.toList.isPrefixOf cs) hfind)
    rw [append_assoc] at hk
    -- a character of a name follows, as the word is not the whole text
    cases ds with
    | nil => exact absurd (append_nil _).symm (hno t (mem_of_find?_eq_some hfind))
    | cons c ds =>
      have hmore : ∀ m, Pattern.Answers .nameChar m (k.beyond t.toList) _ := fun m =>
        Pattern.takes_nameChar.answers (Cursor.rest_beyond hk) (hcs c (by simp))
      exact hfirst.seq (hmore _).fails_notAhead

end whole

namespace Pattern

variable {p : Pattern} {m : Mode} {k k' : Cursor} {w : Word} {ws : List Word} {rest : List Char}
  {nodes : List Parse} {s : String} {r : Rule}

theorem exists_answers (r : Rule) (m : Mode) (k : Cursor) :
    Fails (.rule r) m k ∨ ∃ k' nodes, Answers (.rule r) m k (.matched k' nodes) := by
  have hreached := outcome_fuelFor r m k
  have hanswers : Answers (.rule r) m k (outcome (fuelFor k.rest.length) (.rule r) m k) :=
    ⟨_, fun _ hle => outcome_of_le hle hreached⟩
  cases h : outcome (fuelFor k.rest.length) (.rule r) m k with
  | exhausted => exact absurd h hreached
  | failed =>
    rw [h] at hanswers
    exact .inl hanswers
  | matched k' nodes =>
    rw [h] at hanswers
    exact .inr ⟨k', nodes, hanswers⟩

theorem spans_keyword (hs : s ∈ keywords) (hk : k.At (w :: ws) rest) (hw : w.chars = s.toList) :
    Spans (keyword s) {} k (k.after [w]) [] := by
  have hkeyword := readsWhole_keyword.answers { lookahead := .positive } hs (hw ▸ hk.head) (by rintro _ ⟨⟩; rfl)
  have hahead : Spans (.ahead (.rule .keyword)) {} k k [] := ⟨k, hkeyword.ahead, hk.skip_eq⟩
  exact hahead.seq (spans_sign hk hw)

theorem fails_keyword_word (hk : m.skip k = k) (h : ¬ s.toList <+: k.rest) : Fails (keyword s) m k := by
  have hword : Fails (word s) m (m.skip k) := hk.symm ▸ fails_word h
  rcases exists_answers .keyword { m with lookahead := m.lookahead.affirm } k with hno | ⟨k', nodes, hyes⟩
  · exact hno.ahead.seq
  · exact hyes.ahead.seq hword

theorem Answers.spans_of_ne (h : Answers p m k (.matched k' nodes)) (hm : m.spacing ≠ .inherited) :
    Spans p m k k' nodes := ⟨k', h, skip_of_ne hm k'⟩

theorem Spans.answers (h : Spans p m k k' nodes) (hm : m.spacing ≠ .inherited) :
    Answers p m k (.matched k' nodes) := by
  obtain ⟨stop, hp, rfl⟩ := h
  rwa [skip_of_ne hm]

theorem Spans.token (hr : r.spacing = .token)
    (h : Spans r.body { spacing := .token } k (k.beyond w.chars) nodes) (hk : k.At (w :: ws) rest) :
    Spans (.rule r) {} k (k.after [w]) [.node r k (k.beyond w.chars) nodes] := by
  have hbody := h.answers nofun
  rw [← Mode.inside_of_token hr {}] at hbody
  have hrule := hbody.rule
  rw [Mode.around_of_token hr] at hrule
  exact Answers.spans_word hrule hk

theorem spans_readsWhole {t : String} {ss : List String} (h : r.ReadsWhole s ss) (ht : t ∈ s :: ss)
    (hk : k.At (w :: ws) rest) (hw : w.chars = t.toList) :
    Spans (.rule r) {} k (k.after [w]) [.node r k (k.beyond w.chars) []] := by
  have hrule := h.answers {} ht (hw ▸ hk.head) (by rintro _ ⟨⟩; rfl)
  rw [Mode.around_of_token h.spacing_eq, ← hw] at hrule
  exact Answers.spans_word hrule hk

end Pattern

/-! ### Names -/

/-- Letters, digits and underscores that do not start with a digit and are no keyword. -/
def isName : List Char → Bool
  | [] => false
  | c :: cs => (c.isAlpha || c == '_') && cs.all isNameChar && keywords.all (·.toList != c :: cs)

/-- A name. -/
structure Name where
  chars : List Char
  spelled : isName chars = true

namespace Name

variable (x : Name)

def text : String := String.ofList x.chars

theorem exists_chars : ∃ c cs, x.chars = c :: cs ∧ (c.isAlpha || c == '_') = true ∧ ∀ d ∈ cs, isNameChar d = true := by
  obtain ⟨_ | ⟨c, cs⟩, h⟩ := x
  · cases h
  · simp only [isName, Bool.and_eq_true] at h
    exact ⟨c, cs, rfl, h.1.1, all_eq_true.mp h.1.2⟩

theorem isNameChar_of_mem : ∀ c ∈ x.chars, isNameChar c = true := by
  obtain ⟨c, cs, hx, hc, hcs⟩ := x.exists_chars
  rw [hx]
  refine forall_mem_cons.mpr ⟨?_, hcs⟩
  rcases Bool.or_eq_true_iff.mp hc with hc | hc <;> simp [isNameChar, Char.isAlphanum, hc]

theorem ne_keyword : ∀ s ∈ keywords, s.toList ≠ x.chars := by
  obtain ⟨_ | ⟨c, cs⟩, h⟩ := x
  · cases h
  · simp only [isName, Bool.and_eq_true] at h
    intro s hs
    exact bne_iff_ne.mp (all_eq_true.mp h.2 s hs)

theorem isSolid_chars : isSolid x.chars = true := by
  obtain ⟨c, cs, hx, -, -⟩ := x.exists_chars
  have hc := x.isNameChar_of_mem c (by rw [hx]; exact .head _)
  rw [hx]
  exact isSolid_of_isNameChar hc cs

def word : Word := ⟨x.chars, x.isSolid_chars⟩

end Name

namespace Pattern

variable {m : Mode} {k : Cursor} {w : Word} {ws : List Word} {rest : List Char} {s : String}

theorem takes_firstOfName : Takes (.choice letter (word "_")) fun c => c.isAlpha || c == '_' :=
  (takes_one _).choice takes_underscore

theorem fails_readsWhole_name {r : Rule} {ss : List String} (h : r.ReadsWhole s ss)
    (hss : ∀ t ∈ s :: ss, t ∈ keywords) (m : Mode) (x : Name) (hk : k.At (x.word :: ws) rest) : Fails (.rule r) m k :=
  h.fails m (fun t ht => x.ne_keyword t (hss t ht)) hk.head x.isNameChar_of_mem (by rintro _ ⟨⟩; rfl)

theorem answers_identifier (m : Mode) (x : Name) (hk : k.At (x.word :: ws) rest) :
    Answers (.rule .identifier) m k ((Outcome.matched (k.beyond x.chars) []).named m .identifier k) := by
  obtain ⟨c, cs, hx, hc, hcs⟩ := x.exists_chars
  have hrest : k.rest = c :: (cs ++ ' ' :: (layout ws ++ rest)) := by
    rw [hk.head, Name.word]
    simp only [hx]
    rfl
  have hno : Answers (.notAhead (.rule .keyword)) { m with spacing := .token } k _ :=
    (fails_readsWhole_name readsWhole_keyword (fun _ => id) _ x hk).notAhead
  have hfirst : Answers (.choice letter (word "_")) { m with spacing := .token } k _ :=
    takes_firstOfName.answers hrest hc
  have hothers : Spans (.many nameChar) { m with spacing := .token } (k.beyond [c]) _ [] :=
    takes_nameChar.many nofun (Cursor.rest_beyond_singleton hrest) hcs (by rintro _ ⟨⟩; rfl)
  rw [← Cursor.beyond_append] at hothers
  have hbody := (hno.spans_of_ne nofun).seq ((hfirst.spans_of_ne nofun).seq hothers)
  rw [hx]
  exact Answers.rule (r := .identifier) (hbody.answers nofun)

theorem spans_identifier (x : Name) (hk : k.At (x.word :: ws) rest) :
    Spans (.rule .identifier) {} k (k.after [x.word]) [.node .identifier k (k.beyond x.chars) []] :=
  Answers.spans_word (w := x.word) (answers_identifier {} x hk) hk

theorem fails_identifier (m : Mode) (h : ∀ c ∈ k.rest.head?, (c.isAlpha || c == '_') = false) :
    Fails (.rule .identifier) m k := by
  refine Fails.rule ?_
  rw [Mode.inside_of_token rfl]
  have hletter : Fails (.choice letter (word "_")) { m with spacing := .token } k := takes_firstOfName.fails h
  rcases exists_answers .keyword { lookahead := m.lookahead.negate, spacing := .token } k with hno | ⟨k', nodes, hyes⟩
  · exact hno.notAhead.spans.fails_seq hletter.seq
  · exact Fails.seq hyes.fails_notAhead

theorem fails_identifier_keyword (m : Mode) (hs : s ∈ keywords) (hk : k.At (w :: ws) rest)
    (hw : w.chars = s.toList) : Fails (.rule .identifier) m k :=
  Fails.rule (Fails.seq
    (readsWhole_keyword.answers _ hs (hw ▸ hk.head) (by rintro _ ⟨⟩; rfl)).fails_notAhead)

end Pattern

/-! ### Numbers -/

theorem isDigit_of_mem_toDigits {n : Nat} : ∀ c ∈ Nat.toDigits 10 n, c.isDigit = true :=
  fun _ hc => Nat.isDigit_of_mem_toDigits (by decide) (by decide) hc

theorem exists_toDigits (n : Nat) : ∃ c cs, Nat.toDigits 10 n = c :: cs :=
  exists_cons_of_ne_nil Nat.toDigits_ne_nil

theorem isSolid_toDigits (n : Nat) : isSolid (Nat.toDigits 10 n) = true := by
  obtain ⟨c, cs, h⟩ := exists_toDigits n
  have hc : c.isDigit = true := isDigit_of_mem_toDigits c (by rw [h]; exact .head _)
  rw [h]
  exact isSolid_of_isNameChar (by simp [isNameChar, Char.isAlphanum, hc]) cs

def digitsWord (n : Nat) : Word := ⟨Nat.toDigits 10 n, isSolid_toDigits n⟩

namespace Pattern

variable {m : Mode} {k : Cursor} {w : Word} {ws : List Word} {rest : List Char} {n : Nat}

theorem spans_digits (hm : m.spacing ≠ .inherited) (hk : k.At (digitsWord n :: ws) rest) :
    Spans (atLeastOne digit) m k (k.beyond (Nat.toDigits 10 n)) [] := by
  obtain ⟨c, cs, h⟩ := exists_toDigits n
  have hdigits : ∀ d ∈ c :: cs, d.isDigit = true := h ▸ isDigit_of_mem_toDigits
  have hrest : k.rest = c :: (cs ++ ' ' :: (layout ws ++ rest)) := hk.head.trans (by rw [digitsWord]; simp only [h]; rfl)
  have hfirst := ((takes_one Char.isDigit).answers hrest (hdigits c (.head _))).spans_of_ne hm
  have hothers := (takes_one Char.isDigit).many hm (Cursor.rest_beyond_singleton hrest)
    (fun d hd => hdigits d (.tail _ hd)) (by rintro _ ⟨⟩; rfl)
  rw [← Cursor.beyond_append] at hothers
  rw [h]
  exact hfirst.seq hothers

theorem spans_integer (hk : k.At (digitsWord n :: ws) rest) :
    Spans (.rule .integer) {} k (k.after [digitsWord n]) [.node .integer k (k.beyond (Nat.toDigits 10 n)) []] :=
  Spans.token (w := digitsWord n) rfl (spans_digits nofun hk) hk

theorem fails_float (m : Mode) (hk : k.At (digitsWord n :: ws) rest) : Fails (.rule .float) m k := by
  refine Fails.rule ?_
  rw [Mode.inside_of_token rfl]
  have hdigits := spans_digits (m := { m with spacing := .token }) nofun hk
  have hbehind : (k.beyond (Nat.toDigits 10 n)).rest = ' ' :: (layout ws ++ rest) := Cursor.rest_beyond hk.head
  refine hdigits.fails_seq (Fails.seq (fails_word ?_))
  rw [hbehind]
  rintro ⟨_, h⟩
  cases h

theorem fails_digits (m : Mode) (h : ∀ c ∈ k.rest.head?, c.isDigit = false) :
    Fails (.rule .float) m k ∧ Fails (.rule .integer) m k := by
  have hfirst : ∀ m, Fails digit m k := fun m => (takes_one Char.isDigit).fails h
  exact ⟨Fails.rule (Fails.seq (Fails.seq (hfirst _))), Fails.rule (Fails.seq (hfirst _))⟩

end Pattern

/-! ### Strings -/

/-- The characters that can be written with a backslash. -/
inductive Escape where
  | backslash
  | quote
  | newline
  | tab
  | carriageReturn

namespace Escape

def letter : Escape → Char
  | backslash => '\\'
  | quote => '"'
  | newline => 'n'
  | tab => 't'
  | carriageReturn => 'r'

def value : Escape → Char
  | backslash => '\\'
  | quote => '"'
  | newline => '\n'
  | tab => '\t'
  | carriageReturn => '\r'

end Escape

/-- One character of a string, as it is written: raw, or with a backslash. -/
inductive Glyph where
  | raw (c : Char) (h : c ≠ '"' ∧ c ≠ '\\')
  | escaped (e : Escape)

namespace Glyph

def chars : Glyph → List Char
  | raw c _ => [c]
  | escaped e => ['\\', e.letter]

def value : Glyph → Char
  | raw c _ => c
  | escaped e => e.value

def spelled (gs : List Glyph) : List Char := gs.flatMap chars

def word (gs : List Glyph) : Word := ⟨'"' :: (spelled gs ++ ['"']), rfl⟩

end Glyph

namespace Pattern

variable {m : Mode} {k : Cursor} {w : Word} {ws : List Word} {rest : List Char}

def glyph : Pattern :=
  choice (seq (notAhead (choice (word "\"") (word "\\"))) anything) (seq (word "\\") anything)

theorem spans_glyph (g : Glyph) (hm : m.spacing ≠ .inherited) (hk : k.rest = g.chars ++ rest) :
    Spans glyph m k (k.beyond g.chars) [] := by
  cases g with
  | raw c h =>
    have hquote : ∀ m, Fails (word "\"") m k := fun m => fails_word fun ⟨_, hr⟩ => by
      rw [hk] at hr
      exact h.1 (List.cons.inj hr).1.symm
    have hslash : ∀ m, Fails (word "\\") m k := fun m => fails_word fun ⟨_, hr⟩ => by
      rw [hk] at hr
      exact h.2 (List.cons.inj hr).1.symm
    have hno : Fails (choice (word "\"") (word "\\")) { m with lookahead := m.lookahead.negate } k :=
      (hquote _).choice (hslash _)
    have hany : Answers anything m k (.matched (k.beyond [c]) []) := (takes_one _).answers hk rfl
    exact ((hno.notAhead.spans_of_ne hm).seq (hany.spans_of_ne hm)).choice_left
  | escaped e =>
    have hquote : ∀ m, Fails (word "\"") m k := fun m => fails_word fun ⟨_, hr⟩ => by
      rw [hk] at hr
      cases hr
    have hslash : ∀ m, Answers (word "\\") m k (.matched (k.beyond ['\\']) []) := fun m =>
      answers_word (s := "\\") hk
    have hyes : Answers (choice (word "\"") (word "\\")) { m with lookahead := m.lookahead.negate } k _ :=
      (hquote _).choice (hslash _)
    have hany : Answers anything m (k.beyond ['\\']) _ :=
      (takes_one _).answers (Cursor.rest_beyond_singleton hk) rfl
    rw [← Cursor.beyond_append] at hany
    exact (Fails.seq hyes.fails_notAhead).choice_right (((hslash m).spans_of_ne hm).seq (hany.spans_of_ne hm))

theorem fails_glyph (hk : k.rest = '"' :: rest) : Fails glyph m k := by
  have hquote : ∀ m, Answers (word "\"") m k (.matched (k.beyond ['"']) []) := fun m => answers_word (s := "\"") hk
  have hslash : Fails (word "\\") m k := fails_word fun ⟨_, hr⟩ => by
    rw [hk] at hr
    cases hr
  exact (Fails.seq (hquote _).choice_left.fails_notAhead).choice hslash.seq

theorem spans_glyphs (gs : List Glyph) (hm : m.spacing ≠ .inherited) (hk : k.rest = Glyph.spelled gs ++ '"' :: rest) :
    Spans (.many glyph) m k (k.beyond (Glyph.spelled gs)) [] := by
  induction gs generalizing k with
  | nil => exact (fails_glyph hk).spans_many (skip_of_ne hm k)
  | cons g gs ih =>
    have hrest : k.rest = g.chars ++ (Glyph.spelled gs ++ '"' :: rest) := by
      rw [hk, Glyph.spelled, flatMap_cons, append_assoc]
      rfl
    have hothers := ih (Cursor.rest_beyond hrest)
    rw [← Cursor.beyond_append] at hothers
    exact (spans_glyph g hm hrest).many hothers

theorem spans_string (gs : List Glyph) (hk : k.At (Glyph.word gs :: ws) rest) :
    Spans (.rule .string) {} k (k.after [Glyph.word gs]) [.node .string k (k.beyond (Glyph.word gs).chars)
      [.node .stringInner (k.beyond ['"']) ((k.beyond ['"']).beyond (Glyph.spelled gs)) []]] := by
  have hrest : k.rest = '"' :: (Glyph.spelled gs ++ '"' :: ' ' :: (layout ws ++ rest)) := by
    rw [hk.head]
    simp [Glyph.word]
  have hinside := Cursor.rest_beyond_singleton hrest
  have hbehind := Cursor.rest_beyond hinside
  have hopen : Answers (word "\"") { spacing := .tight } k _ := answers_word (s := "\"") hrest
  have hclose : Answers (word "\"") { spacing := .tight } _ _ := answers_word (s := "\"") hbehind
  have hglyphs := (spans_glyphs (m := { spacing := .token }) gs nofun hinside).answers nofun
  have hinner := Answers.rule (r := .stringInner) (m := { spacing := .tight }) hglyphs
  have hbody := (hopen.spans_of_ne nofun).seq ((hinner.spans_of_ne nofun).seq (hclose.spans_of_ne nofun))
  have hrule := Answers.rule (r := .string) (m := {}) (hbody.answers nofun)
  rw [← Cursor.beyond_append, ← Cursor.beyond_append] at hrule
  exact Answers.spans_word (w := Glyph.word gs) hrule hk

theorem fails_string (m : Mode) (h : ¬ "\"".toList <+: k.rest) : Fails (.rule .string) m k :=
  Fails.rule (Fails.seq (fails_word h))

end Pattern

end Clausal.Grammar
