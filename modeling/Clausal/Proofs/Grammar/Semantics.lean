import Clausal.Proofs.Grammar.Lexemes

/-! # The meaning of a grammar

`Pattern.Gives` is the reading of parsing expressions as rules of inference: ordered choice, greedy repetition
that is never taken back, lookahead that reads nothing, and blanks and comments (`Cursor.Passes`) between the
parts of a phrase but not inside a token. -/

namespace Clausal.Grammar

open List Outcome

/-! ### Blanks and comments -/

namespace Cursor

variable {k k' : Cursor} {cs rest : List Char} {c : Char}

/-- Blanks and comments are passed over, as many as there are.  A comment reaches up to the end of its line. -/
inductive Passes : Cursor → Cursor → Prop
  | done {k : Cursor} : Clear k.rest → Passes k k
  | blank {k k' : Cursor} {c : Char} {rest : List Char} :
      k.rest = c :: rest → isSpace c = true → Passes (k.beyond [c]) k' → Passes k k'
  | comment {k k' : Cursor} {cs rest : List Char} :
      k.rest = '#' :: cs ++ rest → '\n' ∉ cs → (∀ c ∈ rest.head?, c = '\n') →
      Passes (k.beyond ('#' :: cs)) k' → Passes k k'

theorem past_eq_beyond (hk : k.rest = c :: rest) : k.past c rest = k.beyond [c] :=
  congrArg (k.past c) (congrArg List.tail hk).symm

theorem skip_of_isSpace (hk : k.rest = c :: rest) (hc : isSpace c = true) : k.skip = (k.beyond [c]).skip := by
  rw [skip, skip, rest_beyond_singleton hk, hk, ← past_eq_beyond hk]
  simp [skipFrom, hc]

theorem skipFrom_comment (hk : k.rest = cs ++ rest) (hcs : '\n' ∉ cs) :
    k.skipFrom true (cs ++ rest) = (k.beyond cs).skipFrom true rest := by
  induction cs generalizing k with
  | nil => rfl
  | cons c cs ih =>
    have hc : (c != '\n') = true := bne_iff_ne.mpr fun h => hcs (h ▸ .head _)
    have hnext := ih (rest_beyond_singleton hk) fun h => hcs (.tail _ h)
    have hpast : k.past c (cs ++ rest) = k.beyond [c] := past_eq_beyond hk
    rw [cons_append, skipFrom, if_pos rfl, hc, hpast, hnext, ← beyond_append]
    rfl

theorem skip_of_comment (hk : k.rest = '#' :: cs ++ rest) (hcs : '\n' ∉ cs) (hrest : ∀ c ∈ rest.head?, c = '\n') :
    k.skip = (k.beyond ('#' :: cs)).skip := by
  have hinside := rest_beyond_singleton hk
  have hbehind : (k.beyond ('#' :: cs)).rest = rest := rest_beyond hk
  have hopen : k.skip = (k.beyond ['#']).skipFrom true (cs ++ rest) := by
    rw [skip, hk, ← past_eq_beyond hk]
    rfl
  rw [hopen, skipFrom_comment hinside hcs, ← beyond_append]
  -- behind the comment, the end of the line is a blank
  cases rest with
  | nil =>
    rw [skip, hbehind]
    rfl
  | cons c rest =>
    obtain rfl := hrest c rfl
    rw [skip, hbehind]
    rfl

theorem Passes.eq_skip (h : k.Passes k') : k' = k.skip := by
  induction h with
  | done hclear => exact (skip_of_clear hclear).symm
  | blank hk hc _ ih => rw [ih, skip_of_isSpace hk hc]
  | comment hk hcs hrest _ ih => rw [ih, skip_of_comment hk hcs hrest]

theorem length_rest_beyond (hk : k.rest = cs ++ rest) : (k.beyond cs).rest.length + cs.length = k.rest.length :=
  (reads_beyond hk).length_add

theorem exists_passes (k : Cursor) : ∃ k', k.Passes k' := by
  induction hlen : k.rest.length using Nat.strong_induction_on generalizing k with
  | _ n ih =>
    subst hlen
    cases hk : k.rest with
    | nil => exact ⟨k, .done (by rw [hk]; exact fun _ => nofun)⟩
    | cons c rest =>
      by_cases hspace : isSpace c = true
      · have hlen := length_rest_beyond (show k.rest = [c] ++ rest from hk)
        rw [length_singleton] at hlen
        obtain ⟨k', hk'⟩ := ih (k.beyond [c]).rest.length (by omega) _ rfl
        exact ⟨k', .blank hk hspace hk'⟩
      · by_cases hmark : c = '#'
        · subst hmark
          have hsplit : k.rest = '#' :: rest.takeWhile (· != '\n') ++ rest.dropWhile (· != '\n') := by
            rw [hk, cons_append, takeWhile_append_dropWhile]
          have hlen := length_rest_beyond hsplit
          rw [length_cons] at hlen
          obtain ⟨k', hk'⟩ := ih (k.beyond ('#' :: rest.takeWhile (· != '\n'))).rest.length (by omega) _ rfl
          refine ⟨k', .comment hsplit (fun h => ?_) (fun c hc => ?_) hk'⟩
          · have := mem_takeWhile_imp h
            simp at this
          · have := head?_dropWhile_not (· != '\n') rest
            rw [Option.mem_def.mp hc] at this
            simpa using this
        · refine ⟨k, .done ?_⟩
          rw [hk]
          rintro _ ⟨⟩
          exact ⟨eq_false_of_ne_true hspace, hmark⟩

theorem passes_iff : k.Passes k' ↔ k' = k.skip := by
  refine ⟨Passes.eq_skip, ?_⟩
  rintro rfl
  obtain ⟨k', hk'⟩ := k.exists_passes
  exact hk'.eq_skip ▸ hk'

end Cursor

/-! ### The rules -/

namespace Spacing

/-- What stands between the parts of a phrase is passed over, and inside a token nothing is. -/
def Passes (s : Spacing) (k k' : Cursor) : Prop := if s = .inherited then k.Passes k' else k' = k

def inside (s : Spacing) (r : Rule) : Spacing := if r.spacing = .inherited then s else r.spacing

/-- Whether a rule leaves a node.  Rules inside a token leave none, unless they are tight. -/
def keeps (s : Spacing) (r : Rule) : Bool := s ≠ .token || r.spacing = .tight

theorem passes_iff {s : Spacing} {k k' : Cursor} (l : Lookahead) : s.Passes k k' ↔ k' = Mode.skip ⟨l, s⟩ k := by
  unfold Passes Mode.skip
  dsimp only
  split_ifs
  · exact Cursor.passes_iff
  · exact Iff.rfl

end Spacing

/-- What the grammar gives at a cursor: where the match ends and the nodes it leaves, or a failure. -/
inductive Pattern.Gives : Pattern → Spacing → Cursor → Option (Cursor × List Parse) → Prop
  | text {chars rest s k} : k.rest = chars ++ rest → Gives (.text chars) s k (some (k.beyond chars, []))
  | otherText {chars s k} : ¬ chars <+: k.rest → Gives (.text chars) s k none
  | one {accepts c rest s k} :
      k.rest = c :: rest → accepts c = true → Gives (.one accepts) s k (some (k.beyond [c], []))
  | otherOne {accepts s k} : (∀ c ∈ k.rest.head?, accepts c = false) → Gives (.one accepts) s k none
  | start {s k} : k.offset = 0 → Gives .start s k (some (k, []))
  | notStart {s k} : k.offset ≠ 0 → Gives .start s k none
  | finish {s k} : k.rest = [] → Gives .finish s k (some (k, []))
  | notFinish {s k} : k.rest ≠ [] → Gives .finish s k none
  | rule {r s k k' parts} : Gives r.body (s.inside r) k (some (k', parts)) →
      Gives (.rule r) s k (some (k', if s.keeps r then [.node r k k' parts] else parts))
  | noRule {r s k} : Gives r.body (s.inside r) k none → Gives (.rule r) s k none
  | seq {p q s k k1 k2 k3 ps qs} : Gives p s k (some (k1, ps)) → s.Passes k1 k2 → Gives q s k2 (some (k3, qs)) →
      Gives (.seq p q) s k (some (k3, ps ++ qs))
  | noFirst {p q s k} : Gives p s k none → Gives (.seq p q) s k none
  | noSecond {p q s k k1 k2 ps} :
      Gives p s k (some (k1, ps)) → s.Passes k1 k2 → Gives q s k2 none → Gives (.seq p q) s k none
  | choiceLeft {p q s k x} : Gives p s k (some x) → Gives (.choice p q) s k (some x)
  | choiceRight {p q s k o} : Gives p s k none → Gives q s k o → Gives (.choice p q) s k o
  | optionalSome {p s k x} : Gives p s k (some x) → Gives (.optional p) s k (some x)
  | optionalNone {p s k} : Gives p s k none → Gives (.optional p) s k (some (k, []))
  | manyNone {p s k} : Gives p s k none → Gives (.many p) s k (some (k, []))
  /-- The blanks behind the last round are not read. -/
  | manyLast {p s k k1 k2 ps} :
      Gives p s k (some (k1, ps)) → s.Passes k1 k2 → Gives p s k2 none → Gives (.many p) s k (some (k1, ps))
  | manyMore {p s k k1 k2 k3 ps qs x} : Gives p s k (some (k1, ps)) → s.Passes k1 k2 → Gives p s k2 (some x) →
      Gives (.many p) s k2 (some (k3, qs)) → Gives (.many p) s k (some (k3, ps ++ qs))
  | ahead {p s k x} : Gives p s k (some x) → Gives (.ahead p) s k (some (k, []))
  | noAhead {p s k} : Gives p s k none → Gives (.ahead p) s k none
  | notAhead {p s k} : Gives p s k none → Gives (.notAhead p) s k (some (k, []))
  | noNotAhead {p s k x} : Gives p s k (some x) → Gives (.notAhead p) s k none

/-- The outcome of a match that gives a result.  A lookahead leaves no nodes. -/
def Outcome.ofResult (l : Lookahead) : Option (Cursor × List Parse) → Outcome
  | some (k, nodes) => .matched k (if l = .none then nodes else [])
  | none => .failed

/-! ### What is given is answered -/

theorem Mode.inside_around (l : Lookahead) (s : Spacing) (r : Rule) :
    (Mode.around ⟨l, s⟩ r).inside r = ⟨l, s.inside r⟩ := by
  unfold Mode.around Mode.inside Spacing.inside
  cases h : r.spacing <;> simp

theorem Mode.leavesNodes_around (l : Lookahead) (s : Spacing) (r : Rule) :
    (Mode.around ⟨l, s⟩ r).leavesNodes = (decide (l = .none) && s.keeps r) := by
  unfold Mode.around Mode.leavesNodes Spacing.keeps
  cases h : r.spacing <;> simp

theorem Outcome.named_ofResult (l : Lookahead) (s : Spacing) (r : Rule) (k k' : Cursor) (parts : List Parse) :
    (Outcome.ofResult l (some (k', parts))).named (Mode.around ⟨l, s⟩ r) r k =
      .ofResult l (some (k', if s.keeps r then [.node r k k' parts] else parts)) := by
  unfold named
  rw [Mode.leavesNodes_around]
  cases l <;> simp [ofResult, andThen]

theorem Outcome.behind_ofResult (l : Lookahead) (k : Cursor) (ps qs : List Parse) :
    (Outcome.ofResult l (some (k, qs))).behind (if l = .none then ps else []) =
      .ofResult l (some (k, ps ++ qs)) := by
  cases l <;> rfl

namespace Pattern

variable {p q : Pattern} {s : Spacing} {k k' k1 k2 : Cursor} {o : Option (Cursor × List Parse)}
  {l : Lookahead} {ps : List Parse}

theorem Answers.goes_of_many {m : Mode} {o : Outcome} (hp : Answers p m (m.skip k) (.matched k1 ps))
    (hmany : Answers (.many p) m (m.skip k) o) : Goes p m k o := by
  obtain ⟨n, hn⟩ := exists_forall_both hp hmany
  refine ⟨n + 1, fun fuel h => ?_⟩
  obtain ⟨fuel, rfl⟩ := Nat.exists_eq_add_of_le' h
  have hround := (hn (fuel + n) (Nat.le_add_left ..)).1
  have hrounds := (hn (fuel + n + 1) (by omega)).2
  rw [outcome, hround] at hrounds
  rw [← Nat.add_assoc, furtherOutcome, hround]
  exact hrounds

theorem Gives.answers (h : Gives p s k o) (l : Lookahead) : Answers p ⟨l, s⟩ k (.ofResult l o) := by
  induction h generalizing l with
  | @text chars rest s k hk =>
    have hanswers := answers_text chars ⟨l, s⟩ k
    rw [Cursor.readAll?_of_rest hk] at hanswers
    simpa [Outcome.ofResult, ofCursor] using hanswers
  | @otherText chars s k hk =>
    have hanswers := answers_text chars ⟨l, s⟩ k
    rwa [Cursor.readAll?_eq_none hk] at hanswers
  | one hk hc => simpa [Outcome.ofResult] using (takes_one _).answers (m := ⟨l, _⟩) hk hc
  | otherOne hk => exact (takes_one _).fails hk
  | start hk => simpa [Outcome.ofResult] using answers_start ⟨l, _⟩ hk
  | notStart hk => exact exists_forall_of_succ ⟨0, fun _ _ => trivial⟩ fun _ _ => by rw [outcome, if_neg hk]; rfl
  | finish hk => simpa [Outcome.ofResult] using answers_finish ⟨l, _⟩ hk
  | notFinish hk =>
    exact exists_forall_of_succ ⟨0, fun _ _ => trivial⟩ fun _ _ => by
      rw [outcome, if_neg (mt List.isEmpty_iff.mp hk)]
      rfl
  | @rule r s k k' parts _ ih =>
    rw [← named_ofResult]
    exact Answers.rule (Mode.inside_around l s r ▸ ih l)
  | @noRule r s k _ ih => exact Fails.rule (Mode.inside_around l s r ▸ ih l)
  | @seq p q s k k1 k2 k3 ps qs _ hpass _ ihp ihq =>
    rw [← behind_ofResult]
    exact (ihp l).seq ((Spacing.passes_iff l).mp hpass ▸ ihq l)
  | noFirst _ ih => exact Fails.seq (ih l)
  | noSecond _ hpass _ ihp ihq => exact (ihp l).seq ((Spacing.passes_iff l).mp hpass ▸ ihq l)
  | choiceLeft _ ih => exact (ih l).choice_left
  | choiceRight _ _ ihp ihq => exact Fails.choice (ihp l) (ihq l)
  | optionalSome _ ih => exact (ih l).optional_some
  | optionalNone _ ih => simpa [Outcome.ofResult] using Fails.optional (ih l)
  | manyNone _ ih => simpa [Outcome.ofResult] using Fails.many (ih l)
  | @manyLast p s k k1 k2 ps _ hpass _ ihp ihq =>
    have hends : Fails p ⟨l, s⟩ (Mode.skip ⟨l, s⟩ k1) := (Spacing.passes_iff l).mp hpass ▸ ihq l
    simpa [Outcome.ofResult, behind, Outcome.andThen] using (ihp l).many hends.goes
  | @manyMore p s k k1 k2 k3 ps qs x _ hpass _ _ ihp ihround ihrounds =>
    obtain rfl := (Spacing.passes_iff l).mp hpass
    rw [← behind_ofResult]
    exact (ihp l).many ((ihround l).goes_of_many (ihrounds l))
  | ahead _ ih => simpa [Outcome.ofResult] using Answers.ahead (m := ⟨l, _⟩) (ih l.affirm)
  | noAhead _ ih => exact Fails.ahead (m := ⟨l, _⟩) (ih l.affirm)
  | notAhead _ ih => simpa [Outcome.ofResult] using Fails.notAhead (m := ⟨l, _⟩) (ih l.negate)
  | noNotAhead _ ih => exact Answers.fails_notAhead (m := ⟨l, _⟩) (ih l.negate)

theorem Gives.unique {o' : Option (Cursor × List Parse)} (h : Gives p s k o) (h' : Gives p s k o') : o = o' := by
  have heq := (h.answers .none).unique (h'.answers .none)
  rcases o with _ | ⟨k1, ps⟩ <;> rcases o' with _ | ⟨k2, qs⟩ <;> cases heq <;> rfl

/-! ### What is answered is given -/

/-- What further rounds of a repetition come to, behind a first one. -/
def Rounds (p : Pattern) (s : Spacing) (k k' : Cursor) (nodes : List Parse) : Prop :=
  ∃ k1, s.Passes k k1 ∧
    (Gives p s k1 none ∧ k' = k ∧ nodes = [] ∨
      (∃ x, Gives p s k1 (some x)) ∧ Gives (.many p) s k1 (some (k', nodes)))

theorem Gives.many {qs : List Parse} (h : Gives p s k (some (k1, ps))) (hrounds : Rounds p s k1 k' qs) :
    Gives (.many p) s k (some (k', ps ++ qs)) := by
  obtain ⟨k2, hpass, ⟨hnone, rfl, rfl⟩ | ⟨⟨x, hround⟩, hmore⟩⟩ := hrounds
  · rw [append_nil]
    exact .manyLast h hpass hnone
  · exact .manyMore h hpass hround hmore

def Given (p : Pattern) (m : Mode) (k : Cursor) (o : Outcome) : Prop :=
  ∃ result, Gives p m.spacing k result ∧ o = .ofResult m.lookahead result

theorem passes_skip (m : Mode) (k : Cursor) : m.spacing.Passes k (m.skip k) :=
  (Spacing.passes_iff m.lookahead).mpr rfl

section given
variable {m : Mode} {r : Rule} {o other : Outcome} {next : Cursor → Outcome}

theorem Given.rule (h : Given r.body ((m.around r).inside r) k o) : Given (.rule r) m k (o.named (m.around r) r k) := by
  obtain ⟨l, s⟩ := m
  obtain ⟨_ | ⟨k1, parts⟩, hgives, rfl⟩ := h <;> rw [Mode.inside_around] at hgives ⊢
  · exact ⟨none, .noRule hgives, rfl⟩
  · exact ⟨_, .rule hgives, named_ofResult ..⟩

theorem Given.seq (hp : Given p m k o) (hq : ∀ k, next k ≠ .exhausted → Given q m k (next k))
    (hreached : (o.andThen fun k1 ps => (next (m.skip k1)).behind ps) ≠ .exhausted) :
    Given (.seq p q) m k (o.andThen fun k1 ps => (next (m.skip k1)).behind ps) := by
  obtain ⟨_ | ⟨k1, ps⟩, hp, rfl⟩ := hp
  · exact ⟨none, .noFirst hp, rfl⟩
  · have hnext : next (m.skip k1) ≠ .exhausted := fun h => hreached (by
      rw [Outcome.ofResult, Outcome.andThen, h]
      rfl)
    obtain ⟨_ | ⟨k2, qs⟩, hq, heq⟩ := hq _ hnext <;> rw [Outcome.ofResult, Outcome.andThen, heq]
    · exact ⟨none, .noSecond hp (passes_skip m k1) hq, rfl⟩
    · exact ⟨_, .seq hp (passes_skip m k1) hq, behind_ofResult ..⟩

theorem Given.choice (hp : Given p m k o) (hq : other ≠ .exhausted → Given q m k other)
    (hreached : o.orElse other ≠ .exhausted) : Given (.choice p q) m k (o.orElse other) := by
  obtain ⟨_ | ⟨k1, ps⟩, hp, rfl⟩ := hp
  · obtain ⟨result, hq, heq⟩ := hq hreached
    exact ⟨result, .choiceRight hp hq, heq⟩
  · exact ⟨_, .choiceLeft hp, rfl⟩

theorem Given.optional (hp : Given p m k o) : Given (.optional p) m k (o.orElse (.matched k [])) := by
  obtain ⟨_ | ⟨k1, ps⟩, hp, rfl⟩ := hp
  · exact ⟨_, .optionalNone hp, by simp [Outcome.ofResult, orElse]⟩
  · exact ⟨_, .optionalSome hp, rfl⟩

def GivenRounds (p : Pattern) (m : Mode) (k : Cursor) (o : Outcome) : Prop :=
  ∃ k' nodes, Rounds p m.spacing k k' nodes ∧ o = .ofResult m.lookahead (some (k', nodes))

theorem GivenRounds.behind {ps : List Parse} (hp : Gives p m.spacing k (some (k1, ps))) (h : GivenRounds p m k1 o) :
    Given (.many p) m k (o.behind (if m.lookahead = .none then ps else [])) := by
  obtain ⟨k', qs, hrounds, rfl⟩ := h
  exact ⟨_, hp.many hrounds, behind_ofResult ..⟩

theorem Given.many (hp : Given p m k o) (hq : ∀ k, next k ≠ .exhausted → GivenRounds p m k (next k))
    (hreached : o.repeated k next ≠ .exhausted) : Given (.many p) m k (o.repeated k next) := by
  obtain ⟨_ | ⟨k1, ps⟩, hp, rfl⟩ := hp
  · exact ⟨_, .manyNone hp, by simp [Outcome.ofResult, repeated]⟩
  · have hnext : next k1 ≠ .exhausted := fun h => hreached (by
      rw [Outcome.ofResult, repeated, h]
      rfl)
    exact (hq k1 hnext).behind hp

theorem Given.rounds (hp : Given p m (m.skip k) o)
    (hq : ∀ k, next k ≠ .exhausted → GivenRounds p m k (next k)) (hreached : o.repeated k next ≠ .exhausted) :
    GivenRounds p m k (o.repeated k next) := by
  obtain ⟨_ | ⟨k1, ps⟩, hp, rfl⟩ := hp
  · exact ⟨k, [], ⟨_, passes_skip m k, .inl ⟨hp, rfl, rfl⟩⟩, by simp [Outcome.ofResult, repeated]⟩
  · have hnext : next k1 ≠ .exhausted := fun h => hreached (by
      rw [Outcome.ofResult, repeated, h]
      rfl)
    obtain ⟨k', qs, hrounds, heq⟩ := hq k1 hnext
    refine ⟨k', ps ++ qs, ⟨_, passes_skip m k, .inr ⟨⟨_, hp⟩, hp.many hrounds⟩⟩, ?_⟩
    rw [Outcome.ofResult, repeated, heq]
    exact behind_ofResult ..

theorem Given.ahead (hp : Given p { m with lookahead := m.lookahead.affirm } k o) :
    Given (.ahead p) m k (o.andThen fun _ _ => .matched k []) := by
  obtain ⟨_ | ⟨k1, ps⟩, hp, rfl⟩ := hp
  · exact ⟨none, .noAhead hp, rfl⟩
  · exact ⟨_, .ahead hp, by simp [Outcome.ofResult, Outcome.andThen]⟩

theorem Given.notAhead (hp : Given p { m with lookahead := m.lookahead.negate } k o) :
    Given (.notAhead p) m k (o.negated k) := by
  obtain ⟨_ | ⟨k1, ps⟩, hp, rfl⟩ := hp
  · exact ⟨_, .notAhead hp, by simp [Outcome.ofResult, negated]⟩
  · exact ⟨none, .noNotAhead hp, rfl⟩

theorem given_text (chars : List Char) (m : Mode) (k : Cursor) :
    Given (.text chars) m k (.ofCursor (k.readAll? chars)) := by
  by_cases h : chars <+: k.rest
  · obtain ⟨rest, hrest⟩ := h
    rw [Cursor.readAll?_of_rest hrest.symm]
    exact ⟨_, .text hrest.symm, by simp [Outcome.ofResult, ofCursor]⟩
  · rw [Cursor.readAll?_eq_none h]
    exact ⟨none, .otherText h, rfl⟩

theorem given_one (accepts : Char → Bool) (m : Mode) (k : Cursor) :
    Given (.one accepts) m k (.ofCursor (k.read? accepts)) := by
  by_cases h : ∀ c ∈ k.rest.head?, accepts c = false
  · rw [Cursor.read?_eq_none h]
    exact ⟨none, .otherOne h, rfl⟩
  · push Not at h
    obtain ⟨c, hc, haccepts⟩ := h
    obtain ⟨rest, hrest⟩ := head?_eq_some_iff.mp hc
    have hyes : accepts c = true := eq_true_of_ne_false haccepts
    rw [Cursor.read?_of_rest hrest, if_pos hyes]
    exact ⟨_, .one hrest hyes, by simp [Outcome.ofResult, ofCursor]⟩

end given

theorem given_of_outcome (fuel : Nat) :
    (∀ p m k, outcome fuel p m k ≠ .exhausted → Given p m k (outcome fuel p m k)) ∧
    ∀ p m k, furtherOutcome fuel p m k ≠ .exhausted → GivenRounds p m k (furtherOutcome fuel p m k) := by
  induction fuel with
  | zero =>
    refine ⟨fun p m k h => absurd ?_ h, fun p m k h => absurd ?_ h⟩
    · rw [outcome]
    · rw [furtherOutcome]
  | succ fuel ih =>
    obtain ⟨ihone, ihmore⟩ := ih
    constructor
    · intro p m k hreached
      cases p with
      | text chars =>
        rw [outcome]
        exact given_text chars m k
      | one accepts =>
        rw [outcome]
        exact given_one accepts m k
      | start =>
        rw [outcome]
        split_ifs with hk
        · exact ⟨_, .start hk, by simp [Outcome.ofResult]⟩
        · exact ⟨none, .notStart hk, rfl⟩
      | finish =>
        rw [outcome]
        split_ifs with hk
        · exact ⟨_, .finish (List.isEmpty_iff.mp hk), by simp [Outcome.ofResult]⟩
        · exact ⟨none, .notFinish (mt List.isEmpty_iff.mpr hk), rfl⟩
      | rule r =>
        rw [outcome] at hreached ⊢
        exact (ihone _ _ _ fun h => hreached (by rw [h]; rfl)).rule
      | seq p q =>
        rw [outcome] at hreached ⊢
        exact (ihone p m k fun h => hreached (by rw [h]; rfl)).seq (ihone q m) hreached
      | choice p q =>
        rw [outcome] at hreached ⊢
        exact (ihone p m k fun h => hreached (by rw [h]; rfl)).choice (ihone q m k) hreached
      | optional p =>
        rw [outcome] at hreached ⊢
        exact (ihone p m k fun h => hreached (by rw [h]; rfl)).optional
      | many p =>
        rw [outcome] at hreached ⊢
        exact (ihone p m k fun h => hreached (by rw [h]; rfl)).many (ihmore p m) hreached
      | ahead p =>
        rw [outcome] at hreached ⊢
        exact (ihone p _ k fun h => hreached (by rw [h]; rfl)).ahead
      | notAhead p =>
        rw [outcome] at hreached ⊢
        exact (ihone p _ k fun h => hreached (by rw [h]; rfl)).notAhead
    · intro p m k hreached
      rw [furtherOutcome] at hreached ⊢
      exact (ihone p m _ fun h => hreached (by rw [h]; rfl)).rounds (ihmore p m) hreached

theorem exists_gives (r : Rule) (k : Cursor) : ∃ o, Gives (.rule r) .inherited k o := by
  obtain ⟨o, hgives, -⟩ := (given_of_outcome _).1 (.rule r) {} k (outcome_fuelFor r {} k)
  exact ⟨o, hgives⟩

end Pattern

/-! ### Texts -/

section
variable {r : Rule} {text : String} {nodes : List Parse}

theorem parse_of_gives {stop : Cursor}
    (h : Pattern.Gives (.rule r) .inherited (.ofText text) (some (stop, nodes))) : parse r text = .ok nodes :=
  parse_of_answers (h.answers .none)

theorem parse_of_fails (h : Pattern.Gives (.rule r) .inherited (.ofText text) none) :
    ∃ failure, parse r text = .error failure := by
  have hfst := ((Pattern.run_fst _).1 _ _ _ {}).trans
    ((h.answers .none).outcome_eq (Pattern.outcome_fuelFor r {} (.ofText text)))
  unfold parse
  dsimp only
  split
  · rename_i hrun
    rw [hrun] at hfst
    cases hfst
  · exact ⟨_, rfl⟩

theorem parse_eq_ok_iff :
    parse r text = .ok nodes ↔ ∃ stop, Pattern.Gives (.rule r) .inherited (.ofText text) (some (stop, nodes)) := by
  refine ⟨fun h => ?_, fun ⟨_, h⟩ => parse_of_gives h⟩
  obtain ⟨_ | ⟨stop, nodes'⟩, hgives⟩ := Pattern.exists_gives r (.ofText text)
  · obtain ⟨failure, hfailure⟩ := parse_of_fails hgives
    rw [h] at hfailure
    cases hfailure
  · have := parse_of_gives hgives
    rw [h] at this
    cases this
    exact ⟨stop, hgives⟩

theorem parse_eq_error_iff :
    (∃ failure, parse r text = .error failure) ↔ Pattern.Gives (.rule r) .inherited (.ofText text) none := by
  refine ⟨fun ⟨failure, h⟩ => ?_, parse_of_fails⟩
  obtain ⟨_ | ⟨stop, nodes⟩, hgives⟩ := Pattern.exists_gives r (.ofText text)
  · exact hgives
  · rw [parse_of_gives hgives] at h
    cases h

end

end Clausal.Grammar
