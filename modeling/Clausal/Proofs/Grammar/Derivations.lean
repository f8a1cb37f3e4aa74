import Clausal.Ast.Reading
import Clausal.Proofs.Tree.Lookup

/-! # Derivations

`Pattern.Derives` says how a match comes about, without fuel and without the record of attempts: which parts
of a pattern matched where, and which nodes they left.  Every match that is found has a derivation
(`Pattern.derives_of_run`).  What a rule leaves can so be read off its pattern. -/

namespace Clausal.Grammar

open List

/-! ### Reading -/

namespace Cursor

variable {k k' k'' : Cursor} {cs ds : List Char}

/-- From a cursor to a later one, these characters are read. -/
structure Reads (k : Cursor) (cs : List Char) (k' : Cursor) : Prop where
  rest : k.rest = cs ++ k'.rest
  offset : k'.offset = k.offset + cs.length

theorem Reads.refl (k : Cursor) : k.Reads [] k := ⟨rfl, rfl⟩

theorem Reads.trans (h : k.Reads cs k') (h' : k'.Reads ds k'') : k.Reads (cs ++ ds) k'' := by
  refine ⟨?_, ?_⟩
  · rw [h.rest, h'.rest, append_assoc]
  · rw [h'.offset, h.offset, length_append, Nat.add_assoc]

theorem reads_of_read? {accepts : Char → Bool} (h : k.read? accepts = some k') :
    ∃ c, accepts c = true ∧ k.Reads [c] k' := by
  unfold read? at h
  split at h
  · cases h
  · rename_i c rest hrest
    split_ifs at h with hc
    cases h
    refine ⟨c, hc, ?_⟩
    unfold past
    split_ifs
    · exact ⟨hrest, rfl⟩
    · exact ⟨hrest, rfl⟩

theorem reads_of_readAll? (h : k.readAll? cs = some k') : k.Reads cs k' := by
  induction cs generalizing k with
  | nil =>
    cases h
    exact .refl _
  | cons c cs ih =>
    rw [readAll?] at h
    split at h
    · rename_i k1 hread
      obtain ⟨d, hd, hreads⟩ := reads_of_read? hread
      obtain rfl : d = c := eq_of_beq hd
      exact hreads.trans (ih h)
    · cases h

theorem Reads.textTo_eq (h : k.Reads cs k') : k.textTo k' = cs := by
  rw [textTo, h.offset, Nat.add_sub_cancel_left, h.rest, take_left]

end Cursor

/-! ### Derivations -/

namespace Pattern

/-- How a pattern matches from a cursor to a later one, and the nodes that this leaves. -/
inductive Derives : Pattern → Mode → Cursor → Cursor → List Parse → Prop
  | text {chars m k k'} : k.readAll? chars = some k' → Derives (.text chars) m k k' []
  | one {accepts m k k'} : k.read? accepts = some k' → Derives (.one accepts) m k k' []
  | start {m k} : Derives .start m k k []
  | finish {m k} : Derives .finish m k k []
  | rule {r m k k' nodes} : Derives r.body ((m.around r).inside r) k k' nodes →
      Derives (.rule r) m k k' (if (m.around r).leavesNodes then [.node r k k' nodes] else nodes)
  | seq {p q m k k1 k2 ps qs} :
      Derives p m k k1 ps → Derives q m (m.skip k1) k2 qs → Derives (.seq p q) m k k2 (ps ++ qs)
  | choiceLeft {p q m k k' nodes} : Derives p m k k' nodes → Derives (.choice p q) m k k' nodes
  | choiceRight {p q m k k' nodes} : Derives q m k k' nodes → Derives (.choice p q) m k k' nodes
  | optionalNone {p m k} : Derives (.optional p) m k k []
  | optionalSome {p m k k' nodes} : Derives p m k k' nodes → Derives (.optional p) m k k' nodes
  | manyNone {p m k} : Derives (.many p) m k k []
  | manyLast {p m k k' nodes} : Derives p m k k' nodes → Derives (.many p) m k k' nodes
  | manyMore {p m k k1 k2 ps qs} : Derives p m k k1 ps → Derives (.many p) m (m.skip k1) k2 qs →
      Derives (.many p) m k k2 (ps ++ qs)
  | ahead {p m k} : Derives (.ahead p) m k k []
  | notAhead {p m k} : Derives (.notAhead p) m k k []

theorem eq_of_ofCursor {x : Option Cursor} {k' : Cursor} {nodes : List Parse}
    (h : Outcome.ofCursor x = .matched k' nodes) : x = some k' ∧ nodes = [] := by
  cases x with
  | none => cases h
  | some k =>
    cases h
    exact ⟨rfl, rfl⟩

theorem derives_of_run (fuel : Nat) :
    (∀ {p m k a k' nodes a'}, run fuel p m k a = (.matched k' nodes, a') → Derives p m k k' nodes) ∧
    ∀ {p m k a before k' nodes a'}, runMore fuel p m k a before = (.matched k' nodes, a') →
      ∃ after, nodes = before.reverse ++ after ∧
        (after = [] ∧ k' = k ∨ Derives (.many p) m (m.skip k) k' after) := by
  induction fuel with
  | zero =>
    refine ⟨fun h => ?_, fun h => ?_⟩
    · rw [run] at h
      cases h
    · rw [runMore] at h
      cases h
  | succ fuel ih =>
    obtain ⟨ihrun, ihmore⟩ := ih
    constructor
    · intro p m k a k' nodes a' h
      cases p with
      | text chars =>
        rw [run] at h
        obtain ⟨hread, rfl⟩ := eq_of_ofCursor (congrArg Prod.fst h)
        exact .text hread
      | one accepts =>
        rw [run] at h
        obtain ⟨hread, rfl⟩ := eq_of_ofCursor (congrArg Prod.fst h)
        exact .one hread
      | start =>
        rw [run] at h
        split_ifs at h
        · cases h
          exact .start
        · cases h
      | finish =>
        rw [run] at h
        split_ifs at h
        · cases h
          exact .finish
        · cases h
      | rule r =>
        rw [run] at h
        cases hbody : run fuel r.body ((m.around r).inside r) k a with
        | mk outcome after =>
          rw [hbody] at h
          cases outcome <;> cases h
          exact .rule (ihrun hbody)
      | seq p q =>
        rw [run] at h
        split at h
        · rename_i k1 ps a1 hp
          split at h
          · rename_i k2 qs a2 hq
            cases h
            exact .seq (ihrun hp) (ihrun hq)
          · rename_i hnot
            exact absurd h (hnot _ _ _)
        · rename_i hnot
          exact absurd h (hnot _ _ _)
      | choice p q =>
        rw [run] at h
        split at h
        · exact .choiceRight (ihrun h)
        · exact .choiceLeft (ihrun h)
      | optional p =>
        rw [run] at h
        split at h
        · cases h
          exact .optionalNone
        · exact .optionalSome (ihrun h)
      | many p =>
        rw [run] at h
        split at h
        · cases h
          exact .manyNone
        · rename_i k1 ps a1 hp
          obtain ⟨after, rfl, ⟨rfl, rfl⟩ | hafter⟩ := ihmore h
          · rw [reverse_reverse, append_nil]
            exact .manyLast (ihrun hp)
          · rw [reverse_reverse]
            exact .manyMore (ihrun hp) hafter
        · rename_i hnot
          exact absurd h (hnot _ _ _)
      | ahead p =>
        rw [run] at h
        split at h
        · cases h
          exact .ahead
        · rename_i hnot
          exact absurd h (hnot _ _ _)
      | notAhead p =>
        rw [run] at h
        split at h
        · cases h
        · cases h
          exact .notAhead
        · rename_i hnot _
          exact absurd h (hnot _ _ _)
    · intro p m k a before k' nodes a' h
      rw [runMore] at h
      split at h
      · cases h
        exact ⟨[], (append_nil _).symm, .inl ⟨rfl, rfl⟩⟩
      · rename_i k1 ps a1 hp
        obtain ⟨after, rfl, hafter⟩ := ihmore h
        refine ⟨ps ++ after, ?_, .inr ?_⟩
        · simp [reverseAux_eq]
        · rcases hafter with ⟨rfl, rfl⟩ | hafter
          · rw [append_nil]
            exact .manyLast (ihrun hp)
          · exact .manyMore (ihrun hp) hafter
      · rename_i hnot
        exact absurd h (hnot _ _ _)

variable {p q : Pattern} {m : Mode} {k k' : Cursor} {nodes : List Parse} {r : Rule}

theorem Derives.of_seq (h : Derives (.seq p q) m k k' nodes) : ∃ k1 ps qs,
    Derives p m k k1 ps ∧ Derives q m (m.skip k1) k' qs ∧ nodes = ps ++ qs := by
  cases h with
  | seq hp hq => exact ⟨_, _, _, hp, hq, rfl⟩

theorem Derives.of_rule (h : Derives (.rule r) m k k' nodes) (hm : (m.around r).leavesNodes = true) :
    ∃ parts, Derives r.body ((m.around r).inside r) k k' parts ∧ nodes = [.node r k k' parts] := by
  cases h with
  | rule hbody => exact ⟨_, hbody, if_pos hm⟩

theorem Derives.of_many_rule (h : Derives (.many (.rule r)) m k k' nodes)
    (hm : (m.around r).leavesNodes = true) :
    ∀ n ∈ nodes, ∃ start stop parts, Derives r.body ((m.around r).inside r) start stop parts ∧
      n = .node r start stop parts := by
  generalize hp : Pattern.many (.rule r) = p at h
  induction h with
  | manyNone => exact fun _ => nofun
  | manyLast hround =>
    cases hp
    obtain ⟨parts, hbody, rfl⟩ := hround.of_rule hm
    intro n hn
    exact ⟨_, _, parts, hbody, List.mem_singleton.mp hn⟩
  | manyMore hround _ _ ih =>
    cases hp
    obtain ⟨parts, hbody, rfl⟩ := hround.of_rule hm
    intro n hn
    rcases List.mem_append.mp hn with hn | hn
    · exact ⟨_, _, parts, hbody, List.mem_singleton.mp hn⟩
    · exact ih hm rfl n hn
  | _ => cases hp

theorem Derives.of_keyword {s : String} (h : Derives (keyword s) m k k' nodes) : nodes = [] := by
  obtain ⟨k1, ps, qs, hahead, hword, rfl⟩ := h.of_seq
  cases hahead
  cases hword
  rfl

/-! ### Spelling -/

/-- Where no blanks are skipped, the pattern reads characters of a class only. -/
def Spells (C : Char → Prop) (p : Pattern) : Prop :=
  ∀ ⦃m k k' nodes⦄, m.spacing ≠ .inherited → Derives p m k k' nodes → ∃ cs, k.Reads cs k' ∧ ∀ c ∈ cs, C c

theorem skip_of_ne (hm : m.spacing ≠ .inherited) (k : Cursor) : m.skip k = k := if_neg hm

section spells
variable {C : Char → Prop}

theorem spells_one {accepts : Char → Bool} (h : ∀ c, accepts c = true → C c) : Spells C (.one accepts) := by
  intro m k k' nodes _ hd
  cases hd with
  | one hread =>
    obtain ⟨c, hc, hreads⟩ := Cursor.reads_of_read? hread
    exact ⟨[c], hreads, fun d hd => List.mem_singleton.mp hd ▸ h c hc⟩

theorem spells_text {chars : List Char} (h : ∀ c ∈ chars, C c) : Spells C (.text chars) := by
  intro m k k' nodes _ hd
  cases hd with
  | text hread => exact ⟨chars, Cursor.reads_of_readAll? hread, h⟩

theorem spells_notAhead (p : Pattern) : Spells C (.notAhead p) := by
  intro m k k' nodes _ hd
  cases hd
  exact ⟨[], .refl k, forall_mem_nil _⟩

theorem Spells.choice (hp : Spells C p) (hq : Spells C q) : Spells C (.choice p q) := by
  intro m k k' nodes hm hd
  cases hd with
  | choiceLeft h => exact hp hm h
  | choiceRight h => exact hq hm h

theorem Spells.seq (hp : Spells C p) (hq : Spells C q) : Spells C (.seq p q) := by
  intro m k k' nodes hm hd
  obtain ⟨k1, ps, qs, hfirst, hsecond, -⟩ := hd.of_seq
  rw [skip_of_ne hm] at hsecond
  obtain ⟨cs, hcs, hC⟩ := hp hm hfirst
  obtain ⟨ds, hds, hD⟩ := hq hm hsecond
  exact ⟨cs ++ ds, hcs.trans hds, fun c hc => (List.mem_append.mp hc).elim (hC c) (hD c)⟩

theorem Spells.many (hp : Spells C p) : Spells C (.many p) := by
  intro m k k' nodes hm hd
  generalize heq : Pattern.many p = q at hd
  induction hd with
  | manyNone => exact ⟨[], .refl _, forall_mem_nil _⟩
  | manyLast hround =>
    cases heq
    exact hp hm hround
  | manyMore hround _ _ ih =>
    cases heq
    obtain ⟨cs, hcs, hC⟩ := hp hm hround
    obtain ⟨ds, hds, hD⟩ := ih hm rfl
    rw [skip_of_ne hm] at hds
    exact ⟨cs ++ ds, hcs.trans hds, fun c hc => (List.mem_append.mp hc).elim (hC c) (hD c)⟩
  | _ => cases heq

end spells

end Pattern

def isNameChar (c : Char) : Bool := c.isAlphanum || c == '_'

theorem Pattern.spells_identifier : Spells (isNameChar · = true) Rule.identifier.body := by
  have hunderscore : Spells (isNameChar · = true) (word "_") :=
    spells_text fun c hc => by rw [List.mem_singleton.mp hc]; rfl
  have hletter : Spells (isNameChar · = true) letter :=
    spells_one fun c hc => by simp [isNameChar, Char.isAlphanum, hc]
  have hchar : Spells (isNameChar · = true) nameChar :=
    (spells_one fun c hc => by simp [isNameChar, hc]).choice hunderscore
  exact (spells_notAhead _).seq ((hletter.choice hunderscore).seq hchar.many)

variable {nodes : List Parse} {m : Mode} {k k' : Cursor}

theorem derives_of_parse {r : Rule} {text : String} (h : parse r text = .ok nodes) :
    ∃ stop, Pattern.Derives (.rule r) {} (.ofText text) stop nodes := by
  unfold parse at h
  dsimp only at h
  split at h
  · rename_i stop nodes' attempts hrun
    cases h
    exact ⟨stop, (Pattern.derives_of_run _).1 hrun⟩
  · cases h

theorem Pattern.Derives.of_identifier (h : Derives (.rule .identifier) m k k' nodes)
    (hm : m.leavesNodes = true) :
    ∃ name : Parse, nodes = [name] ∧ ∀ c ∈ name.text.toList, isNameChar c = true := by
  obtain ⟨parts, hbody, rfl⟩ := h.of_rule hm
  obtain ⟨cs, hreads, hcs⟩ := spells_identifier (fun h => by cases h) hbody
  refine ⟨_, rfl, ?_⟩
  rw [Parse.text, String.toList_ofList, Parse.start, Parse.stop, hreads.textTo_eq]
  exact hcs

theorem Pattern.Derives.of_functionDecl (h : Derives Rule.functionDecl.body m k k' nodes)
    (hm : m.leavesNodes = true) :
    ∃ (name : Parse) (rest : List Parse), nodes = name :: rest ∧
      ∀ c ∈ name.text.toList, isNameChar c = true := by
  obtain ⟨_, _, _, hkeyword, hnamed, rfl⟩ := h.of_seq
  obtain rfl := hkeyword.of_keyword
  obtain ⟨_, _, rest, hname, -, rfl⟩ := hnamed.of_seq
  obtain ⟨name, rfl, hchars⟩ := hname.of_identifier hm
  exact ⟨name, rest, rfl, hchars⟩

theorem Pattern.Derives.of_compilationUnit (h : Derives Rule.compilationUnit.body {} k k' nodes) :
    ∃ (module : Parse) (functions : List Parse) (stop : Parse),
      nodes = module :: (functions ++ [stop]) ∧ stop.rule = .endOfInput ∧
      ∀ f ∈ functions, ∃ (start stop : Cursor) (name : Parse) (rest : List Parse),
        f = .node .functionDecl start stop (name :: rest) ∧ ∀ c ∈ name.text.toList, isNameChar c = true := by
  obtain ⟨_, _, _, hstart, hall, rfl⟩ := h.of_seq
  cases hstart
  obtain ⟨_, _, _, hmodule, hrest, rfl⟩ := hall.of_seq
  obtain ⟨parts, -, rfl⟩ := hmodule.of_rule rfl
  obtain ⟨_, functions, _, hfunctions, hstop, rfl⟩ := hrest.of_seq
  obtain ⟨parts', -, rfl⟩ := hstop.of_rule rfl
  refine ⟨_, functions, _, rfl, rfl, fun f hf => ?_⟩
  obtain ⟨start, stop, parts, hbody, rfl⟩ := hfunctions.of_many_rule rfl f hf
  obtain ⟨name, rest, rfl, hchars⟩ := hbody.of_functionDecl rfl
  exact ⟨start, stop, name, rest, rfl, hchars⟩

end Clausal.Grammar

namespace Clausal.Ast

open Grammar (Parse isNameChar)

/-- A function, with a name that is spelled with the characters of names. -/
def Node.IsNamed (n : Node) : Prop :=
  ∃ name params, n.form = .function name params ∧ ∀ c ∈ name.toList, isNameChar c = true

variable {file : String}

theorem named_of_read {start stop : Grammar.Cursor} {name : Parse} {rest : List Parse} {n : Node}
    (h : read file .function (.node .functionDecl start stop (name :: rest)) = .ok n)
    (hname : ∀ c ∈ name.text.toList, isNameChar c = true) : n.IsNamed := by
  simp only [read, bind_eq_ok_iff] at h
  obtain ⟨⟨params, body⟩, -, ⟨⟩⟩ := h
  exact ⟨_, _, rfl, hname⟩

theorem forall_mem_functionsOf {P : Node → Prop} {ps : List Parse} {ns : List Node}
    (h : functionsOf file ps = .ok ns)
    (hps : ∀ p ∈ ps, p.rule = .functionDecl → ∀ n, read file .function p = .ok n → P n) : ∀ n ∈ ns, P n := by
  induction ps generalizing ns with
  | nil =>
    cases h
    exact fun _ => nofun
  | cons p ps ih =>
    rw [functionsOf] at h
    have hrest := fun {ns} (h : functionsOf file ps = .ok ns) =>
      ih h fun q hq => hps q (.tail _ hq)
    split_ifs at h with hfunction
    · simp only [bind_eq_ok_iff] at h
      obtain ⟨n, hn, ns, hns, ⟨⟩⟩ := h
      intro n' hn'
      rcases List.mem_cons.mp hn' with rfl | hn'
      · exact hps p (.head _) hfunction n' hn
      · exact hrest hns n' hn'
    · exact hrest h

theorem named_of_parse {source : SourceFile} {unit : CompilationUnit} (h : parse source = .ok unit) :
    ∀ n ∈ unit.functions, n.IsNamed := by
  unfold parse at h
  split_ifs at h
  split at h
  · rename_i p rest hparse
    obtain ⟨stop, hderives⟩ := Grammar.derives_of_parse hparse
    obtain ⟨parts, hbody, ⟨⟩⟩ := hderives.of_rule rfl
    obtain ⟨module, functions, stop', rfl, hstop', hfunctions⟩ := hbody.of_compilationUnit
    simp only [unitOf, Parse.children, bind_eq_ok_iff] at h
    obtain ⟨ns, hns, ⟨⟩⟩ := h
    refine forall_mem_functionsOf hns fun q hq hfunction n hn => ?_
    rcases List.mem_append.mp hq with hq | hq
    · obtain ⟨start, stop, name, rest, rfl, hchars⟩ := hfunctions q hq
      exact named_of_read hn hchars
    · rw [List.mem_singleton.mp hq, hstop'] at hfunction
      cases hfunction
  · cases h
  · cases h

end Clausal.Ast
