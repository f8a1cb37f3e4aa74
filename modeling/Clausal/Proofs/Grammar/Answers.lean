import Clausal.Proofs.Grammar.Fuel

/-! # What a pattern answers

`Pattern.Answers` is the outcome of a match with as much fuel as it takes.  Its rules, one for each way in
which a pattern matches or fails, build a match up from its parts.  `Grammar.parse_of_answers` brings what a
rule answers to a whole text. -/

namespace Clausal.Grammar

namespace Pattern

variable {p q : Pattern} {m : Mode} {k k' k1 k2 : Cursor} {ps qs nodes : List Parse} {o : Outcome} {r : Rule}
  {P Q : Nat → Prop}

def Answers (p : Pattern) (m : Mode) (k : Cursor) (o : Outcome) : Prop :=
  ∃ n, ∀ fuel, n ≤ fuel → outcome fuel p m k = o

/-- With enough fuel, further rounds of the repetition have this outcome. -/
def Goes (p : Pattern) (m : Mode) (k : Cursor) (o : Outcome) : Prop :=
  ∃ n, ∀ fuel, n ≤ fuel → furtherOutcome fuel p m k = o

def Fails (p : Pattern) (m : Mode) (k : Cursor) : Prop := Answers p m k .failed

theorem exists_forall_both (hP : ∃ n, ∀ fuel, n ≤ fuel → P fuel)
    (hQ : ∃ n, ∀ fuel, n ≤ fuel → Q fuel) : ∃ n, ∀ fuel, n ≤ fuel → P fuel ∧ Q fuel := by
  obtain ⟨n, hn⟩ := hP
  obtain ⟨n', hn'⟩ := hQ
  refine ⟨max n n', fun fuel h => ⟨hn fuel ?_, hn' fuel ?_⟩⟩
  · exact Nat.le_trans (Nat.le_max_left ..) h
  · exact Nat.le_trans (Nat.le_max_right ..) h

theorem exists_forall_of_succ (hP : ∃ n, ∀ fuel, n ≤ fuel → P fuel)
    (hstep : ∀ fuel, P fuel → Q (fuel + 1)) : ∃ n, ∀ fuel, n ≤ fuel → Q fuel := by
  obtain ⟨n, hn⟩ := hP
  refine ⟨n + 1, fun fuel h => ?_⟩
  obtain ⟨fuel, rfl⟩ := Nat.exists_eq_add_of_le' h
  exact hstep (fuel + n) (hn _ (Nat.le_add_left ..))

/-! ### Rules of matching -/

theorem answers_text (chars : List Char) (m : Mode) (k : Cursor) :
    Answers (.text chars) m k (.ofCursor (k.readAll? chars)) :=
  exists_forall_of_succ ⟨0, fun _ _ => trivial⟩ fun _ _ => by rw [outcome]

theorem answers_one (accepts : Char → Bool) (m : Mode) (k : Cursor) :
    Answers (.one accepts) m k (.ofCursor (k.read? accepts)) :=
  exists_forall_of_succ ⟨0, fun _ _ => trivial⟩ fun _ _ => by rw [outcome]

theorem answers_start (m : Mode) (hk : k.offset = 0) : Answers .start m k (.matched k []) :=
  exists_forall_of_succ ⟨0, fun _ _ => trivial⟩ fun _ _ => by rw [outcome, if_pos hk]

theorem answers_finish (m : Mode) (hk : k.rest = []) : Answers .finish m k (.matched k []) :=
  exists_forall_of_succ ⟨0, fun _ _ => trivial⟩ fun _ _ => by rw [outcome, hk]; rfl

theorem Answers.rule (h : Answers r.body ((m.around r).inside r) k o) :
    Answers (.rule r) m k (o.named (m.around r) r k) :=
  exists_forall_of_succ h fun _ h => by rw [outcome, h]

theorem Answers.seq (hp : Answers p m k (.matched k1 ps)) (hq : Answers q m (m.skip k1) o) :
    Answers (.seq p q) m k (o.behind ps) :=
  exists_forall_of_succ (exists_forall_both hp hq) fun _ ⟨hp, hq⟩ => by
    rw [outcome, hp]
    exact congrArg (Outcome.behind ps) hq

theorem Answers.choice_left (h : Answers p m k (.matched k' ps)) : Answers (.choice p q) m k (.matched k' ps) :=
  exists_forall_of_succ h fun _ h => by rw [outcome, h]; rfl

theorem Answers.optional_some (h : Answers p m k (.matched k' ps)) : Answers (.optional p) m k (.matched k' ps) :=
  exists_forall_of_succ h fun _ h => by rw [outcome, h]; rfl

theorem Answers.ahead (h : Answers p { m with lookahead := m.lookahead.affirm } k (.matched k' ps)) :
    Answers (.ahead p) m k (.matched k []) :=
  exists_forall_of_succ h fun _ h => by rw [outcome, h]; rfl

theorem Answers.fails_notAhead (h : Answers p { m with lookahead := m.lookahead.negate } k (.matched k' ps)) :
    Fails (.notAhead p) m k :=
  exists_forall_of_succ h fun _ h => by rw [outcome, h]; rfl

theorem Answers.many (hp : Answers p m k (.matched k1 ps)) (hq : Goes p m k1 o) :
    Answers (.many p) m k (o.behind ps) :=
  exists_forall_of_succ (exists_forall_both hp hq) fun _ ⟨hp, hq⟩ => by
    rw [outcome, hp]
    exact congrArg (Outcome.behind ps) hq

theorem Fails.rule (h : Fails r.body ((m.around r).inside r) k) : Fails (.rule r) m k := Answers.rule h

theorem Fails.seq (h : Fails p m k) : Fails (.seq p q) m k :=
  exists_forall_of_succ h fun _ h => by rw [outcome, h]; rfl

theorem Fails.choice (hp : Fails p m k) (hq : Answers q m k o) : Answers (.choice p q) m k o :=
  exists_forall_of_succ (exists_forall_both hp hq) fun _ ⟨hp, hq⟩ => by
    rw [outcome, hp]
    exact hq

theorem Fails.optional (h : Fails p m k) : Answers (.optional p) m k (.matched k []) :=
  exists_forall_of_succ h fun _ h => by rw [outcome, h]; rfl

theorem Fails.many (h : Fails p m k) : Answers (.many p) m k (.matched k []) :=
  exists_forall_of_succ h fun _ h => by rw [outcome, h]; rfl

theorem Fails.goes (h : Fails p m (m.skip k)) : Goes p m k (.matched k []) :=
  exists_forall_of_succ h fun _ h => by rw [furtherOutcome, h]; rfl

theorem Fails.ahead (h : Fails p { m with lookahead := m.lookahead.affirm } k) : Fails (.ahead p) m k :=
  exists_forall_of_succ h fun _ h => by rw [outcome, h]; rfl

theorem Fails.notAhead (h : Fails p { m with lookahead := m.lookahead.negate } k) :
    Answers (.notAhead p) m k (.matched k []) :=
  exists_forall_of_succ h fun _ h => by rw [outcome, h]; rfl

theorem Answers.unique {o' : Outcome} (h : Answers p m k o) (h' : Answers p m k o') : o = o' := by
  obtain ⟨n, hn⟩ := exists_forall_both h h'
  exact (hn n (Nat.le_refl n)).1.symm.trans (hn n (Nat.le_refl n)).2

theorem Answers.outcome_eq {fuel : Nat} (h : Answers p m k o) (hreached : outcome fuel p m k ≠ .exhausted) :
    outcome fuel p m k = o := by
  obtain ⟨n, hn⟩ := h
  rw [← hn (max n fuel) (Nat.le_max_left ..), outcome_of_le (Nat.le_max_right ..) hreached]

end Pattern

/-! ### Blanks -/

def Clear (cs : List Char) : Prop := ∀ c ∈ cs.head?, Cursor.isSpace c = false ∧ c ≠ '#'

variable {k : Cursor} {r : Rule}

theorem Cursor.clear_skipFrom {cs : List Char} (hk : k.rest = cs) (comment : Bool) :
    Clear (k.skipFrom comment cs).rest := by
  induction cs generalizing k comment with
  | nil =>
    rw [skipFrom, hk]
    exact fun _ => nofun
  | cons c cs ih =>
    unfold skipFrom
    split_ifs with hcomment hspace hmark
    · exact ih (k.rest_past c cs) _
    · exact ih (k.rest_past c cs) _
    · exact ih (k.rest_past c cs) _
    · rw [hk]
      rintro d ⟨⟩
      exact ⟨eq_false_of_ne_true hspace, fun h => hmark (beq_iff_eq.mpr h)⟩

theorem Cursor.skip_of_clear (h : Clear k.rest) : k.skip = k := by
  unfold skip
  cases hk : k.rest with
  | nil => rfl
  | cons c cs =>
    obtain ⟨hspace, hmark⟩ := h c (by rw [hk]; rfl)
    simp [skipFrom, hspace, hmark]

@[simp]
theorem Mode.skip_skip (m : Mode) (k : Cursor) : m.skip (m.skip k) = m.skip k := by
  unfold Mode.skip
  split_ifs
  · exact Cursor.skip_of_clear (Cursor.clear_skipFrom rfl false)
  · rfl

theorem Mode.around_of_inherited (hr : r.spacing = .inherited) (m : Mode) : m.around r = m := by
  simp [Mode.around, hr]

theorem Mode.inside_of_inherited (hr : r.spacing = .inherited) (m : Mode) : m.inside r = m := by
  simp [Mode.inside, hr]

/-! ### Matches up to blanks -/

namespace Pattern

variable {p q : Pattern} {m : Mode} {k k' k1 k2 : Cursor} {ps qs nodes : List Parse}

/-- The pattern matches, and behind the blanks that follow is this cursor. -/
def Spans (p : Pattern) (m : Mode) (k k' : Cursor) (nodes : List Parse) : Prop :=
  ∃ stop, Answers p m k (.matched stop nodes) ∧ m.skip stop = k'

theorem Answers.spans (h : Answers p m k (.matched k1 nodes)) : Spans p m k (m.skip k1) nodes := ⟨k1, h, rfl⟩

theorem Spans.seq (hp : Spans p m k k1 ps) (hq : Spans q m k1 k2 qs) : Spans (.seq p q) m k k2 (ps ++ qs) := by
  obtain ⟨stop, hp, rfl⟩ := hp
  obtain ⟨stop', hq, rfl⟩ := hq
  exact (hp.seq hq).spans

theorem Spans.fails_seq (hp : Spans p m k k1 ps) (hq : Fails q m k1) : Fails (.seq p q) m k := by
  obtain ⟨stop, hp, rfl⟩ := hp
  exact hp.seq hq

theorem Spans.choice_left (h : Spans p m k k' ps) : Spans (.choice p q) m k k' ps := by
  obtain ⟨stop, hp, rfl⟩ := h
  exact hp.choice_left.spans

theorem Fails.choice_right (hp : Fails p m k) (hq : Spans q m k k' qs) : Spans (.choice p q) m k k' qs := by
  obtain ⟨stop, hq, rfl⟩ := hq
  exact (hp.choice hq).spans

theorem Spans.optional (h : Spans p m k k' ps) : Spans (.optional p) m k k' ps := by
  obtain ⟨stop, hp, rfl⟩ := h
  exact hp.optional_some.spans

theorem Fails.spans_optional (h : Fails p m k) (hk : m.skip k = k) : Spans (.optional p) m k k [] := ⟨k, h.optional, hk⟩

theorem Fails.spans_many (h : Fails p m k) (hk : m.skip k = k) : Spans (.many p) m k k [] := ⟨k, h.many, hk⟩

theorem Spans.exists_node {r : Rule} (hr : r.spacing = .inherited) (h : Spans r.body {} k k' nodes) :
    ∃ stop, Spans (.rule r) {} k k' [.node r k stop nodes] := by
  obtain ⟨stop, hbody, hstop⟩ := h
  have hrule := Answers.rule (r := r) (m := {}) (o := .matched stop nodes) (by
    rw [Mode.around_of_inherited hr, Mode.inside_of_inherited hr]
    exact hbody)
  rw [Mode.around_of_inherited hr] at hrule
  exact ⟨stop, stop, hrule, hstop⟩

theorem Spans.many (hp : Spans p m k k1 ps) (hq : Spans (.many p) m k1 k2 qs) :
    Spans (.many p) m k k2 (ps ++ qs) := by
  obtain ⟨stop, hp, rfl⟩ := hp
  obtain ⟨stop', ⟨n, hn⟩, rfl⟩ := hq
  have hmany := hn (n + 1) (Nat.le_succ n)
  rw [outcome] at hmany
  -- how the second round ends is settled at this fuel
  have hsettled : ∀ fuel, n ≤ fuel → outcome n p m (m.skip stop) ≠ .exhausted →
      outcome fuel p m (m.skip stop) = outcome n p m (m.skip stop) := fun _ hle => outcome_of_le hle
  cases hround : outcome n p m (m.skip stop) with
  | exhausted =>
    rw [hround] at hmany
    cases hmany
  | failed =>
    rw [hround] at hmany hsettled
    cases hmany
    refine ⟨stop, hp.many (Fails.goes ⟨n, fun fuel hle => hsettled fuel hle (by simp)⟩), ?_⟩
    exact (m.skip_skip stop).symm
  | matched k3 rs =>
    rw [hround] at hsettled
    have hgoes : Goes p m stop (.matched stop' qs) := by
      refine ⟨n + 1, fun fuel hle => ?_⟩
      obtain ⟨fuel, rfl⟩ := Nat.exists_eq_add_of_le' hle
      have hall := hn (fuel + n + 1) (by omega)
      have hone := hsettled (fuel + n) (Nat.le_add_left ..) (by simp)
      rw [outcome, hone] at hall
      rw [← Nat.add_assoc, furtherOutcome, hone]
      exact hall
    exact ⟨stop', hp.many hgoes, rfl⟩

end Pattern

theorem parse_of_answers {text : String} {stop : Cursor} {nodes : List Parse}
    (h : Pattern.Answers (.rule r) {} (.ofText text) (.matched stop nodes)) : parse r text = .ok nodes := by
  have hfst := ((Pattern.run_fst _).1 _ _ _ {}).trans (h.outcome_eq (Pattern.outcome_fuelFor r {} (.ofText text)))
  unfold parse
  dsimp only
  split
  · rename_i stop' nodes' attempts hrun
    rw [hrun] at hfst
    cases hfst
    rfl
  · rename_i hne hrun
    rw [hrun] at hfst
    cases hfst
    exact absurd rfl (hne _ _)

end Clausal.Grammar
