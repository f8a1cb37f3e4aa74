import Clausal.Proofs.Grammar.Derivations

/-! # Enough fuel

`Pattern.outcome` is the outcome of a match without the record of attempts (`Pattern.run_fst`).  More fuel
never changes an outcome that was reached (`Pattern.outcome_of_le`).  No rule calls itself before a character
is read, and no repetition has rounds that read nothing. -/

namespace Clausal.Grammar

/-! ### Outcomes without attempts -/

namespace Outcome

def andThen (o : Outcome) (next : Cursor → List Parse → Outcome) : Outcome :=
  match o with
  | matched stop nodes => next stop nodes
  | other => other

def behind (nodes : List Parse) (o : Outcome) : Outcome :=
  o.andThen fun stop more => .matched stop (nodes ++ more)

def orElse (o : Outcome) (other : Outcome) : Outcome :=
  match o with
  | failed => other
  | o => o

def repeated (k : Cursor) (next : Cursor → Outcome) : Outcome → Outcome
  | matched stop nodes => (next stop).behind nodes
  | failed => matched k []
  | exhausted => exhausted

def negated (k : Cursor) : Outcome → Outcome
  | matched _ _ => failed
  | failed => matched k []
  | exhausted => exhausted

theorem behind_behind (ps qs : List Parse) (o : Outcome) : (o.behind qs).behind ps = o.behind (ps ++ qs) := by
  cases o with
  | matched stop nodes => exact congrArg (matched stop) (List.append_assoc ..).symm
  | failed => rfl
  | exhausted => rfl

def named (m : Mode) (r : Rule) (start : Cursor) (o : Outcome) : Outcome :=
  o.andThen fun stop nodes => .matched stop (if m.leavesNodes then [.node r start stop nodes] else nodes)

def Precedes (o o' : Outcome) : Prop := o = exhausted ∨ o = o'

section precedes
variable {o o' : Outcome}

theorem Precedes.refl (o : Outcome) : o.Precedes o := .inr rfl

theorem Precedes.andThen {next next' : Cursor → List Parse → Outcome} (h : o.Precedes o')
    (hnext : ∀ k ps, (next k ps).Precedes (next' k ps)) : (o.andThen next).Precedes (o'.andThen next') := by
  rcases h with rfl | rfl
  · exact .inl rfl
  · cases o with
    | matched stop nodes => exact hnext stop nodes
    | failed => exact .refl _
    | exhausted => exact .refl _

theorem Precedes.behind (h : o.Precedes o') (nodes : List Parse) : (o.behind nodes).Precedes (o'.behind nodes) :=
  h.andThen fun _ _ => .refl _

theorem Precedes.orElse {other other' : Outcome} (h : o.Precedes o') (hother : other.Precedes other') :
    (o.orElse other).Precedes (o'.orElse other') := by
  rcases h with rfl | rfl
  · exact .inl rfl
  · cases o with
    | matched stop nodes => exact .refl _
    | failed => exact hother
    | exhausted => exact .refl _

theorem Precedes.repeated {next next' : Cursor → Outcome} (h : o.Precedes o') (k : Cursor)
    (hnext : ∀ k, (next k).Precedes (next' k)) : (o.repeated k next).Precedes (o'.repeated k next') := by
  rcases h with rfl | rfl
  · exact .inl rfl
  · cases o with
    | matched stop nodes => exact (hnext stop).behind nodes
    | failed => exact .refl _
    | exhausted => exact .refl _

theorem Precedes.negated (h : o.Precedes o') (k : Cursor) : (o.negated k).Precedes (o'.negated k) := by
  rcases h with rfl | rfl
  · exact .inl rfl
  · exact .refl _

end precedes

section reached
variable {o : Outcome} {k : Cursor}

theorem andThen_ne_exhausted {next : Cursor → List Parse → Outcome} (h : o ≠ exhausted)
    (hnext : ∀ k ps, o = matched k ps → next k ps ≠ exhausted) : o.andThen next ≠ exhausted := by
  cases o with
  | matched stop nodes => exact hnext stop nodes rfl
  | failed => nofun
  | exhausted => exact absurd rfl h

theorem behind_ne_exhausted (h : o ≠ exhausted) (nodes : List Parse) : o.behind nodes ≠ exhausted :=
  andThen_ne_exhausted h fun _ _ _ => nofun

theorem orElse_ne_exhausted {other : Outcome} (h : o ≠ exhausted) (hother : other ≠ exhausted) :
    o.orElse other ≠ exhausted := by
  cases o with
  | matched stop nodes => nofun
  | failed => exact hother
  | exhausted => exact absurd rfl h

theorem repeated_ne_exhausted {next : Cursor → Outcome} (h : o ≠ exhausted)
    (hnext : ∀ k' ps, o = matched k' ps → next k' ≠ exhausted) : o.repeated k next ≠ exhausted := by
  cases o with
  | matched stop nodes => exact behind_ne_exhausted (hnext stop nodes rfl) nodes
  | failed => nofun
  | exhausted => exact absurd rfl h

theorem negated_ne_exhausted (h : o ≠ exhausted) : o.negated k ≠ exhausted := by
  cases o with
  | matched stop nodes => nofun
  | failed => nofun
  | exhausted => exact absurd rfl h

end reached

end Outcome

namespace Pattern

mutual

def outcome : Nat → Pattern → Mode → Cursor → Outcome
  | 0, _, _, _ => .exhausted
  | _ + 1, .text chars, _, k => .ofCursor (k.readAll? chars)
  | _ + 1, .one accepts, _, k => .ofCursor (k.read? accepts)
  | _ + 1, .start, _, k => if k.offset = 0 then .matched k [] else .failed
  | _ + 1, .finish, _, k => if k.rest.isEmpty then .matched k [] else .failed
  | fuel + 1, .rule r, m, k => (outcome fuel r.body ((m.around r).inside r) k).named (m.around r) r k
  | fuel + 1, .seq p q, m, k =>
    (outcome fuel p m k).andThen fun k1 ps => (outcome fuel q m (m.skip k1)).behind ps
  | fuel + 1, .choice p q, m, k => (outcome fuel p m k).orElse (outcome fuel q m k)
  | fuel + 1, .optional p, m, k => (outcome fuel p m k).orElse (.matched k [])
  | fuel + 1, .many p, m, k =>
    (outcome fuel p m k).repeated k (furtherOutcome fuel p m)
  | fuel + 1, .ahead p, m, k =>
    (outcome fuel p { m with lookahead := m.lookahead.affirm } k).andThen fun _ _ => .matched k []
  | fuel + 1, .notAhead p, m, k =>
    (outcome fuel p { m with lookahead := m.lookahead.negate } k).negated k

def furtherOutcome : Nat → Pattern → Mode → Cursor → Outcome
  | 0, _, _, _ => .exhausted
  | fuel + 1, p, m, k =>
    (outcome fuel p m (m.skip k)).repeated k (furtherOutcome fuel p m)

end

theorem run_fst (fuel : Nat) :
    (∀ p m k a, (run fuel p m k a).1 = outcome fuel p m k) ∧
    ∀ p m k a nodes, (runMore fuel p m k a nodes).1 = (furtherOutcome fuel p m k).behind nodes.reverse := by
  induction fuel with
  | zero =>
    refine ⟨fun p m k a => ?_, fun p m k a nodes => ?_⟩
    · rw [run, outcome]
    · rw [runMore, furtherOutcome]
      rfl
  | succ fuel ih =>
    obtain ⟨ihrun, ihmore⟩ := ih
    constructor
    · intro p m k a
      cases p with
      | text | one | start | finish => rw [run, outcome]
      | rule r =>
        rw [run, outcome, ← ihrun _ _ k a]
        generalize run fuel r.body ((m.around r).inside r) k a = x
        obtain ⟨_ | _ | _, _⟩ := x <;> rfl
      | seq p q =>
        rw [run, outcome, ← ihrun p m k a]
        generalize run fuel p m k a = x
        obtain ⟨⟨k1, ps⟩ | _ | _, a1⟩ := x
        · dsimp only [Outcome.andThen]
          rw [← ihrun q m (m.skip k1) a1]
          generalize run fuel q m (m.skip k1) a1 = y
          obtain ⟨_ | _ | _, _⟩ := y <;> rfl
        · rfl
        · rfl
      | choice p q =>
        rw [run, outcome, ← ihrun p m k a]
        generalize run fuel p m k a = x
        obtain ⟨_ | _ | _, a1⟩ := x
        · rfl
        · exact ihrun q m k a1
        · rfl
      | optional p | ahead p | notAhead p =>
        rw [run, outcome, ← ihrun p _ k a]
        generalize run fuel p _ k a = x
        obtain ⟨_ | _ | _, _⟩ := x <;> rfl
      | many p =>
        rw [run, outcome, ← ihrun p m k a]
        generalize run fuel p m k a = x
        obtain ⟨⟨k1, ps⟩ | _ | _, a1⟩ := x
        · dsimp only [Outcome.repeated]
          rw [ihmore, List.reverse_reverse]
        · rfl
        · rfl
    · intro p m k a nodes
      rw [runMore, furtherOutcome, ← ihrun p m (m.skip k) a]
      generalize run fuel p m (m.skip k) a = x
      obtain ⟨⟨k1, ps⟩ | _ | _, a1⟩ := x
      · dsimp only [Outcome.repeated]
        rw [ihmore, List.reverseAux_eq, List.reverse_append, List.reverse_reverse, Outcome.behind_behind]
      · exact congrArg (Outcome.matched k) (List.append_nil _).symm
      · rfl

/-! ### More fuel -/

theorem outcome_precedes_succ (fuel : Nat) :
    (∀ p m k, (outcome fuel p m k).Precedes (outcome (fuel + 1) p m k)) ∧
    ∀ p m k, (furtherOutcome fuel p m k).Precedes (furtherOutcome (fuel + 1) p m k) := by
  induction fuel with
  | zero =>
    refine ⟨fun p m k => .inl ?_, fun p m k => .inl ?_⟩
    · rw [outcome]
    · rw [furtherOutcome]
  | succ fuel ih =>
    obtain ⟨ihone, ihmore⟩ := ih
    constructor
    · intro p m k
      cases p with
      | text | one | start | finish => 
        rw [outcome, outcome]
        exact .refl _
      | rule r =>
        rw [outcome, outcome]
        exact (ihone ..).andThen fun _ _ => .refl _
      | seq p q =>
        rw [outcome, outcome]
        exact (ihone p m k).andThen fun k1 ps => (ihone q m _).behind ps
      | choice p q =>
        rw [outcome, outcome]
        exact (ihone p m k).orElse (ihone q m k)
      | optional p =>
        rw [outcome, outcome]
        exact (ihone p m k).orElse (.refl _)
      | many p =>
        rw [outcome, outcome]
        exact (ihone p m k).repeated k (ihmore p m)
      | ahead p =>
        rw [outcome, outcome]
        exact (ihone p _ k).andThen fun _ _ => .refl _
      | notAhead p =>
        rw [outcome, outcome]
        exact (ihone p _ k).negated k
    · intro p m k
      rw [furtherOutcome, furtherOutcome]
      exact (ihone p m _).repeated k (ihmore p m)

theorem outcome_of_le {fuel fuel' : Nat} (h : fuel ≤ fuel') {p : Pattern} {m : Mode} {k : Cursor}
    (hreached : outcome fuel p m k ≠ .exhausted) : outcome fuel' p m k = outcome fuel p m k := by
  induction h with
  | refl => rfl
  | step _ ih =>
    rcases (outcome_precedes_succ _).1 p m k with h | h
    · exact absurd (ih ▸ h) hreached
    · exact h ▸ ih

end Pattern

/-! ### Reading shortens the text -/

namespace Cursor

@[simp]
theorem rest_past (k : Cursor) (c : Char) (rest : List Char) : (k.past c rest).rest = rest := by
  unfold past
  split_ifs <;> rfl

variable {k : Cursor} {cs : List Char}

theorem reads_past {c : Char} (hk : k.rest = c :: cs) : k.Reads [c] (k.past c cs) := by
  unfold past
  split_ifs <;> exact ⟨hk, rfl⟩

theorem exists_reads_skipFrom (hk : k.rest = cs) (comment : Bool) :
    ∃ ds, k.Reads ds (k.skipFrom comment cs) := by
  induction cs generalizing k comment with
  | nil => exact ⟨[], .refl k⟩
  | cons c cs ih =>
    have hfurther : ∀ comment, ∃ ds, k.Reads ds ((k.past c cs).skipFrom comment cs) := fun comment => by
      obtain ⟨ds, hds⟩ := ih (k.rest_past c cs) comment
      exact ⟨_, (reads_past hk).trans hds⟩
    unfold skipFrom
    split_ifs
    · exact hfurther _
    · exact hfurther _
    · exact hfurther _
    · exact ⟨[], .refl k⟩

theorem Reads.length_add {k' : Cursor} (h : k.Reads cs k') : k'.rest.length + cs.length = k.rest.length := by
  rw [h.rest, List.length_append, Nat.add_comm]

end Cursor

theorem Mode.length_skip_le (m : Mode) (k : Cursor) : (m.skip k).rest.length ≤ k.rest.length := by
  unfold Mode.skip
  split_ifs
  · obtain ⟨ds, hds⟩ := Cursor.exists_reads_skipFrom (k := k) rfl false
    exact hds.length_add ▸ Nat.le_add_right ..
  · exact Nat.le_refl _

def Rule.reads (r : Rule) : Bool := r ≠ .endOfInput && r ≠ .stringInner

namespace Pattern

def reads : Pattern → Bool
  | .text chars => !chars.isEmpty
  | .one _ => true
  | .rule r => r.reads
  | .seq p q => p.reads || q.reads
  | .choice p q => p.reads && q.reads
  | .start | .finish | .optional _ | .many _ | .ahead _ | .notAhead _ => false

/-- How deep a pattern nests before it reads a character, by the depth of the rules. -/
def depth (ofRule : Rule → Nat) : Pattern → Nat
  | .text _ | .one _ | .start | .finish => 0
  | .rule r => ofRule r
  | .seq p q => max (p.depth ofRule) (if p.reads then 0 else q.depth ofRule) + 1
  | .choice p q => max (p.depth ofRule) (q.depth ofRule) + 1
  | .optional p | .many p | .ahead p | .notAhead p => p.depth ofRule + 1

/-- Every round of a repetition reads a character, and what comes after a character is not nested deeply. -/
def isGuarded (ofRule : Rule → Nat) : Pattern → Bool
  | .text _ | .one _ | .start | .finish | .rule _ => true
  | .seq p q => p.isGuarded ofRule && q.isGuarded ofRule && q.depth ofRule < 128
  | .choice p q => p.isGuarded ofRule && q.isGuarded ofRule
  | .many p => p.reads && p.isGuarded ofRule
  | .optional p | .ahead p | .notAhead p => p.isGuarded ofRule

end Pattern

/-- How deep a rule nests at most before it reads a character.  A name tries the keywords first, and an expression
goes through all levels of operators. -/
def Rule.depth : Rule → Nat
  | keyword => 20
  | identifier => 23
  | moduleDecl | functionDecl | letStmt | varStmt | returnStmt | ifStmt | whileStmt | caseStmt | whenClause
  | otherwiseClause | matchExpr | matchWhen | matchOtherwise => 24
  | qualifiedName | paramList | assignStmt | call => 25
  | compilationUnit => 27
  | unary => 30
  | multiplicative => 32
  | additive => 34
  | comparison => 36
  | andExpr => 38
  | orExpr => 40
  | expression => 41
  | expressionStmt | argList => 43
  | unaryOp => 8
  | _ => 6

theorem Rule.reads_body (r : Rule) : r.reads = true → r.body.reads = true := by
  cases r <;> decide

theorem Rule.depth_body (r : Rule) : r.body.depth Rule.depth < r.depth := by
  cases r <;> decide +kernel

theorem Rule.isGuarded_body (r : Rule) : r.body.isGuarded Rule.depth = true := by
  cases r <;> decide +kernel

namespace Pattern

variable {p q : Pattern} {m : Mode} {k k' : Cursor} {nodes : List Parse} {fuel : Nat}

theorem derives_of_outcome (h : outcome fuel p m k = .matched k' nodes) : Derives p m k k' nodes := by
  cases hrun : run fuel p m k {} with
  | mk o a =>
    have hfst := (run_fst fuel).1 p m k {}
    rw [hrun, h] at hfst
    cases hfst
    exact (derives_of_run fuel).1 hrun

theorem Derives.length_le (h : Derives p m k k' nodes) :
    k'.rest.length + p.reads.toNat ≤ k.rest.length := by
  induction h with
  | @text chars _ _ _ hread =>
    rw [← (Cursor.reads_of_readAll? hread).length_add]
    cases chars <;> simp [reads]
  | one hread =>
    obtain ⟨c, -, hreads⟩ := Cursor.reads_of_read? hread
    exact Nat.le_of_eq hreads.length_add
  | @rule r _ _ _ _ _ ih =>
    have hr : r.reads.toNat ≤ r.body.reads.toNat := by
      cases hr : r.reads with
      | false => exact Nat.zero_le _
      | true => exact r.reads_body hr ▸ Nat.le_refl _
    simp only [reads]
    omega
  | @seq p q m _ k1 _ _ _ _ _ ihp ihq =>
    have hskip := m.length_skip_le k1
    have hor : (p.reads || q.reads).toNat ≤ p.reads.toNat + q.reads.toNat := by
      cases p.reads <;> cases q.reads <;> decide
    simp only [reads]
    omega
  | @choiceLeft p q _ _ _ _ _ ih =>
    have hand : (p.reads && q.reads).toNat ≤ p.reads.toNat := by
      cases p.reads <;> cases q.reads <;> decide
    simp only [reads]
    omega
  | @choiceRight p q _ _ _ _ _ ih =>
    have hand : (p.reads && q.reads).toNat ≤ q.reads.toNat := by
      cases p.reads <;> cases q.reads <;> decide
    simp only [reads]
    omega
  | optionalSome _ ih | manyLast _ ih => exact Nat.le_trans (Nat.le_add_right ..) ih
  | @manyMore _ m _ k1 _ _ _ _ _ ihp ihq =>
    have hskip := m.length_skip_le k1
    simp only [reads, Bool.toNat_false] at ihq ⊢
    omega
  | start | finish | optionalNone | manyNone | ahead | notAhead => exact Nat.le_refl _

theorem length_lt_of_outcome (h : outcome fuel p m k = .matched k' nodes) (hp : p.reads = true) :
    k'.rest.length < k.rest.length := by
  have := (derives_of_outcome h).length_le
  rwa [hp] at this

theorem length_le_of_outcome (h : outcome fuel p m k = .matched k' nodes) : k'.rest.length ≤ k.rest.length :=
  Nat.le_trans (Nat.le_add_right ..) (derives_of_outcome h).length_le

/-! ### The fuel of a text -/

theorem outcome_ne_exhausted (fuel : Nat) :
    (∀ {p m k}, p.isGuarded Rule.depth = true → 128 * k.rest.length + p.depth Rule.depth < fuel →
      outcome fuel p m k ≠ .exhausted) ∧
    ∀ {p m k}, p.reads = true → p.isGuarded Rule.depth = true →
      128 * k.rest.length + p.depth Rule.depth + 1 < fuel → furtherOutcome fuel p m k ≠ .exhausted := by
  induction fuel with
  | zero => exact ⟨fun _ h => absurd h (Nat.not_lt_zero _), fun _ _ h => absurd h (Nat.not_lt_zero _)⟩
  | succ fuel ih =>
    obtain ⟨ihone, ihmore⟩ := ih
    constructor
    · intro p m k hg hfuel
      cases p with
      | text chars =>
        rw [outcome]
        cases k.readAll? chars <;> nofun
      | one accepts =>
        rw [outcome]
        cases k.read? accepts <;> nofun
      | start | finish =>
        rw [outcome]
        split_ifs <;> nofun
      | rule r =>
        have hdepth := r.depth_body
        simp only [depth] at hfuel
        rw [outcome]
        exact Outcome.andThen_ne_exhausted (ihone r.isGuarded_body (by omega)) fun _ _ _ => nofun
      | seq p q =>
        simp only [isGuarded, Bool.and_eq_true, decide_eq_true_eq] at hg
        obtain ⟨⟨hp, hq⟩, hqdepth⟩ := hg
        simp only [depth] at hfuel
        rw [outcome]
        refine Outcome.andThen_ne_exhausted (ihone hp (by omega)) fun k1 ps hfirst => ?_
        have hskip := m.length_skip_le k1
        refine Outcome.behind_ne_exhausted (ihone hq ?_) ps
        -- either the first part leaves less to read, or the depth of the second part counts
        cases hreads : p.reads with
        | false =>
          have := length_le_of_outcome hfirst
          simp only [hreads, Bool.false_eq_true, if_false] at hfuel
          omega
        | true =>
          have := length_lt_of_outcome hfirst hreads
          omega
      | choice p q =>
        simp only [isGuarded, Bool.and_eq_true] at hg
        simp only [depth] at hfuel
        rw [outcome]
        exact Outcome.orElse_ne_exhausted (ihone hg.1 (by omega)) (ihone hg.2 (by omega))
      | optional p =>
        simp only [depth] at hfuel
        rw [outcome]
        exact Outcome.orElse_ne_exhausted (ihone (p := p) hg (by omega)) nofun
      | many p =>
        simp only [isGuarded, Bool.and_eq_true] at hg
        simp only [depth] at hfuel
        rw [outcome]
        refine Outcome.repeated_ne_exhausted (ihone hg.2 (by omega)) fun k1 ps hround => ?_
        have := length_lt_of_outcome hround hg.1
        exact ihmore hg.1 hg.2 (by omega)
      | ahead p =>
        simp only [depth] at hfuel
        rw [outcome]
        exact Outcome.andThen_ne_exhausted (ihone (p := p) hg (by omega)) fun _ _ _ => nofun
      | notAhead p =>
        simp only [depth] at hfuel
        rw [outcome]
        exact Outcome.negated_ne_exhausted (ihone (p := p) hg (by omega))
    · intro p m k hreads hg hfuel
      have hskip := m.length_skip_le k
      rw [furtherOutcome]
      refine Outcome.repeated_ne_exhausted (ihone hg (by omega)) fun k1 ps hround => ?_
      have := length_lt_of_outcome hround hreads
      exact ihmore hreads hg (by omega)

theorem outcome_fuelFor (r : Rule) (m : Mode) (k : Cursor) :
    outcome (fuelFor k.rest.length) (.rule r) m k ≠ .exhausted := by
  have hdepth : r.depth < 128 := by cases r <;> decide
  refine (outcome_ne_exhausted _).1 rfl ?_
  simp only [depth, fuelFor]
  omega

end Pattern

end Clausal.Grammar
