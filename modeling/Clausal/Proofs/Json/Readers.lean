import Clausal.Proofs.Json.Tokens

/-! # Readers and the documents they read

`Reads r d x` says what the reader `r` makes of the text of the document `d`, at any level of indentation,
behind blanks and in front of any text that does not go on with a number:  `x` is the value that is read, or
the fault that stops the reader. -/

namespace Clausal.Json

open Reader List Document

/-! ### Outcomes -/

/-- A reader has come to a value, with this input left, or to a fault. -/
def Comes {α : Type} (result : EStateM.Result Fault Input α) (x : Except Fault α) (left : Input) : Prop :=
  match x with
  | .ok a => result = .ok a left
  | .error fault => ∃ i, result = .error fault i

section
variable {α β : Type} {r : Reader α} {g : α → Reader β} {i j k : Input}

theorem run_bind_of_ok {a : α} (h : r i = .ok a j) : (r >>= g) i = g a j := by
  change EStateM.bind r g i = _
  rw [EStateM.bind, h]

theorem run_bind_of_error {fault : Fault} (h : r i = .error fault j) : (r >>= g) i = .error fault j := by
  change EStateM.bind r g i = _
  rw [EStateM.bind, h]

theorem run_get_bind {g : Input → Reader β} : ((get : Reader Input) >>= g) i = g i i := rfl

theorem run_advance_bind {g : Unit → Reader β} {c : Char} {cs : List Char} {b : Nat} :
    (advance >>= g) ⟨c :: cs, b⟩ = g () ⟨cs, b⟩ := rfl

theorem Comes.bind {x : Except Fault α} {y : α → Except Fault β} (h : Comes (r i) x j)
    (hg : ∀ a, x = .ok a → Comes (g a j) (y a) k) : Comes ((r >>= g) i) (x >>= y) k := by
  cases x with
  | ok a =>
    rw [run_bind_of_ok h]
    exact hg a rfl
  | error fault =>
    obtain ⟨i', hi⟩ := h
    exact ⟨i', run_bind_of_error hi⟩

theorem Comes.bind_ok {a : α} {y : Except Fault β} (h : r i = .ok a j) (hg : Comes (g a j) y k) :
    Comes ((r >>= g) i) y k := by
  rwa [run_bind_of_ok h]

theorem comes_map {f : α → β} {x : Except Fault α} (h : Comes (r i) x j) : Comes ((f <$> r) i) (f <$> x) j :=
  Comes.bind (g := fun a => pure (f a)) (y := fun a => pure (f a)) h fun _ _ => rfl

end

/-! ### Tokens behind blanks -/

section
variable {blanks rest : List Char} {b : Nat} {c : Char} {fault : Fault}

theorem peek_of_blanks (hblanks : ∀ d ∈ blanks, isBlank d) (hc : isBlank c = false) :
    peek ⟨blanks ++ c :: rest, b⟩ = .ok (some c) ⟨c :: rest, b⟩ := by
  have hdrop : (blanks ++ c :: rest).dropWhile isBlank = c :: rest := by
    rw [dropWhile_append_of_pos hblanks, dropWhile_cons, hc]
    rfl
  change EStateM.Result.ok ((blanks ++ c :: rest).dropWhile isBlank).head?
    (⟨(blanks ++ c :: rest).dropWhile isBlank, b⟩ : Input) = _
  rw [hdrop]
  rfl

theorem peekOr_of_blanks (hblanks : ∀ d ∈ blanks, isBlank d) (hc : isBlank c = false) :
    peekOr fault ⟨blanks ++ c :: rest, b⟩ = .ok c ⟨c :: rest, b⟩ := by
  rw [peekOr, run_bind_of_ok (peek_of_blanks hblanks hc)]
  rfl

theorem peekOr_cons (hc : isBlank c = false) : peekOr fault ⟨c :: rest, b⟩ = .ok c ⟨c :: rest, b⟩ :=
  peekOr_of_blanks (show ∀ d ∈ [], isBlank d from nofun) hc

theorem scan_of_ok {α : Type} {f : List Char → Except Fault (α × List Char)} {cs : List Char} {a : α}
    (h : f cs = .ok (a, rest)) : scan f ⟨cs, b⟩ = .ok a ⟨rest, b⟩ := by
  rw [scan, run_get_bind, h]
  rfl

theorem word_append (cs : List Char) : word cs ⟨cs ++ rest, b⟩ = .ok () ⟨rest, b⟩ := by
  induction cs with
  | nil => rfl
  | cons c cs ih =>
    rw [word, run_get_bind]
    dsimp only [cons_append]
    rw [run_advance_bind, if_pos rfl, ih]

theorem toList_stringText (s : String) :
    (stringText s).toList = '"' :: (s.toList.flatMap escapedChar ++ ['"']) := by
  simp [stringText]

theorem openedString_text (s : String) :
    openedString ⟨(stringText s).toList ++ rest, b⟩ = .ok s ⟨rest, b⟩ := by
  rw [toList_stringText, openedString, cons_append, run_advance_bind, append_assoc]
  apply scan_of_ok
  rw [singleton_append, stringBody_text]
  simp

theorem peekOr_text (s : String) (hblanks : ∀ d ∈ blanks, isBlank d) :
    peekOr fault ⟨blanks ++ ((stringText s).toList ++ rest), b⟩ = .ok '"' ⟨(stringText s).toList ++ rest, b⟩ := by
  rw [toList_stringText]
  exact peekOr_of_blanks hblanks (by decide)

theorem colon_space : colon ⟨':' :: ' ' :: rest, b⟩ = .ok () ⟨' ' :: rest, b⟩ := rfl

end

/-! ### Values without parts -/

/-- What a reader makes of a text, behind blanks and in front of what does not go on with it.  The text starts with
something else than a blank or the end of a list. -/
structure Takes {α : Type} (r : Reader α) (text : List Char) (x : Except Fault α) : Prop where
  starts : ∃ c cs, text = c :: cs ∧ isBlank c = false ∧ c ≠ ']'
  comes : ∀ blanks rest b, (∀ c ∈ blanks, isBlank c) → Ends rest → (text ++ rest).length ≤ b →
    Comes (r ⟨blanks ++ (text ++ rest), b⟩) x ⟨rest, b⟩

/-- What a reader makes of a document, at any level of indentation. -/
def Reads {α : Type} (r : Reader α) (d : Document) (x : Except Fault α) : Prop :=
  ∀ level, Takes r (d.prettyAt level).toList x

theorem isBlank_eq_false_of_isDigit {c : Char} (h : c.isDigit) : isBlank c = false := by
  by_contra hblank
  simp only [Bool.not_eq_false, isBlank, Bool.or_eq_true, decide_eq_true_eq] at hblank
  rcases hblank with ((rfl | rfl) | rfl) | rfl
  all_goals cases h

variable {α β : Type} {text : List Char} {d : Document}

theorem Takes.map {r : Reader α} {x : Except Fault α} (f : α → β) (h : Takes r text x) :
    Takes (f <$> r) text (f <$> x) :=
  ⟨h.starts, fun blanks rest b hblanks hrest hb => comes_map (h.comes blanks rest b hblanks hrest hb)⟩

theorem Reads.map {r : Reader α} {x : Except Fault α} (f : α → β) (h : Reads r d x) :
    Reads (f <$> r) d (f <$> x) :=
  fun level => (h level).map f

theorem Takes.bind_ok {r : Reader α} {g : α → Reader β} {a : α} {c : β} (h : Takes r text (.ok a))
    (hg : ∀ i, g a i = .ok c i) : Takes (r >>= g) text (.ok c) :=
  ⟨h.starts, fun blanks rest b hblanks hrest hb => Comes.bind_ok (h.comes blanks rest b hblanks hrest hb) (hg _)⟩

theorem takes_string (expected s : String) : Takes (.string expected) (stringText s).toList (.ok s) where
  starts := ⟨'"', _, toList_stringText s, by decide, by decide⟩
  comes := by
    intro blanks rest b hblanks _ _
    exact Comes.bind_ok (peekOr_text s hblanks) (openedString_text s)

theorem takes_boolean (v : Bool) : Takes boolean (toString v).toList (.ok v) where
  starts := by
    cases v with
    | false => exact ⟨'f', _, rfl, by decide, by decide⟩
    | true => exact ⟨'t', _, rfl, by decide, by decide⟩
  comes := by
    intro blanks rest b hblanks _ _
    cases v with
    | false =>
      refine Comes.bind_ok (peekOr_of_blanks (c := 'f') hblanks (by decide)) ?_
      exact Comes.bind_ok (word_append "false".toList) rfl
    | true =>
      refine Comes.bind_ok (peekOr_of_blanks (c := 't') hblanks (by decide)) ?_
      exact Comes.bind_ok (word_append "true".toList) rfl

theorem takes_number {n : Number} (expected : String) (h : number text = .ok (n, [])) :
    Takes (Reader.number expected) text (.ok n) where
  starts := by
    obtain ⟨c, ds, _, hc, -, ⟨rfl, -⟩ | ⟨rfl, -⟩⟩ := exists_magnitude_of_number h
    · refine ⟨c, ds, rfl, isBlank_eq_false_of_isDigit hc, ?_⟩
      rintro rfl
      cases hc
    · exact ⟨'-', _, rfl, by decide, by decide⟩
  comes := by
    intro blanks rest b hblanks hrest _
    have hscan : scan number ⟨text ++ rest, b⟩ = .ok n ⟨rest, b⟩ := scan_of_ok (number_append hrest h)
    obtain ⟨c, ds, _, hc, -, ⟨rfl, -⟩ | ⟨rfl, -⟩⟩ := exists_magnitude_of_number h
    · refine Comes.bind_ok (peekOr_of_blanks hblanks (isBlank_eq_false_of_isDigit hc)) ?_
      rw [hc, Bool.or_true, if_pos rfl]
      exact hscan
    · exact Comes.bind_ok (peekOr_of_blanks hblanks (by decide)) hscan

theorem takes_natural {n limit : Nat} (expected : String) (hn : n ≤ limit) (hlimit : limit ≤ significandLimit) :
    Takes (natural expected limit) (toString n).toList (.ok n) := by
  refine (takes_number expected (number_natural (hn.trans hlimit))).bind_ok fun i => ?_
  dsimp only
  rw [if_pos hn]
  rfl

theorem takes_integer (v : Int64) : Takes integer (toString v.toInt).toList (.ok v) := by
  have hlt := v.toInt_lt
  have hle := v.le_toInt
  have hv := v.ofInt_toInt
  cases hsign : v.toInt with
  | ofNat n =>
    rw [hsign] at hlt hv
    have hn : n < Nat.pow 2 63 := Int.ofNat_lt.1 hlt
    refine (takes_number "i64" (number_natural (n := n) ?_)).bind_ok fun i => ?_
    · rw [significandLimit, Nat.pow_eq]
      rw [Nat.pow_eq] at hn
      omega
    · dsimp only
      rw [if_pos hn, ← Int64.ofInt_eq_ofNat]
      exact congrArg (EStateM.Result.ok · i) hv
  | negSucc n =>
    rw [hsign] at hle hv
    refine (takes_number "i64" (number_negSucc (n := n) (by omega))).bind_ok fun i => ?_
    exact congrArg (EStateM.Result.ok · i) hv

theorem takes_real_null : Takes real "null".toList (.error (.wrongType .null "f64")) where
  starts := ⟨'n', _, rfl, by decide, by decide⟩
  comes := by
    intro blanks rest b hblanks _ _
    have hrefuse : (refuse "f64" : Reader Number) ⟨"null".toList ++ rest, b⟩ =
      .error (.wrongType .null "f64") ⟨rest, b⟩ := rfl
    exact ⟨⟨rest, b⟩, run_bind_of_error
      ((run_bind_of_ok (peekOr_of_blanks (c := 'n') hblanks (by decide))).trans hrefuse)⟩

/-! ### Lists -/

theorem isBlank_newline (level : Nat) : ∀ c ∈ (newline level).toList, isBlank c := by
  intro c hc
  simp only [newline, String.toList_append, String.toList_ofList, mem_append, mem_replicate] at hc
  rcases hc with hc | ⟨-, rfl⟩
  · simp at hc
    subst hc
    rfl
  · rfl

theorem ends_newline (level : Nat) (rest : List Char) : Ends ((newline level).toList ++ rest) := by
  intro c hc
  simp [newline] at hc
  subst hc
  decide

section
variable {blanks rest : List Char} {b : Nat}

theorem moreItems_end {first : Bool} (hblanks : ∀ d ∈ blanks, isBlank d) :
    moreItems first ⟨blanks ++ ']' :: rest, b⟩ = .ok false ⟨']' :: rest, b⟩ := by
  rw [moreItems, run_bind_of_ok (peekOr_of_blanks hblanks (by decide)), if_pos rfl]
  rfl

variable {α : Type} {text : List Char}

theorem Takes.moreItems_first {r : Reader α} {x : Except Fault α} (h : Takes r text x)
    (hblanks : ∀ d ∈ blanks, isBlank d) :
    moreItems true ⟨blanks ++ (text ++ rest), b⟩ = .ok true ⟨text ++ rest, b⟩ := by
  obtain ⟨c, cs, rfl, hc, hend⟩ := h.starts
  rw [moreItems, cons_append, run_bind_of_ok (peekOr_of_blanks hblanks hc), if_neg hend]
  rfl

theorem Takes.moreItems_next {r : Reader α} {x : Except Fault α} (h : Takes r text x)
    (hblanks : ∀ d ∈ blanks, isBlank d) :
    moreItems false ⟨',' :: (blanks ++ (text ++ rest)), b⟩ = .ok true ⟨text ++ rest, b⟩ := by
  obtain ⟨c, cs, rfl, hc, hend⟩ := h.starts
  rw [moreItems, run_bind_of_ok (peekOr_cons (by decide)), if_neg (by decide), if_neg (by decide), if_pos rfl,
    run_advance_bind, cons_append, run_bind_of_ok (peekOr_of_blanks hblanks hc), if_neg hend]
  rfl

end

section
variable {α γ : Type} {item : Reader α} {doc : γ → Document} {val : γ → Except Fault α} {fuel b : Nat}
  {y : Except Fault (List α)} {rest : List Char}

theorem toList_prettyItems_cons (level : Nat) (d : Document) (ds : List Document) :
    (prettyItems level (d :: ds)).toList =
      ',' :: ((newline level).toList ++ ((d.prettyAt level).toList ++ (prettyItems level ds).toList)) := by
  simp [prettyItems]

theorem ends_prettyItems (level level' : Nat) (ds : List Document) (rest : List Char) :
    Ends ((prettyItems level ds).toList ++ ((newline level').toList ++ rest)) := by
  cases ds with
  | nil => exact ends_newline level' rest
  | cons d ds =>
    rw [toList_prettyItems_cons]
    rintro c ⟨⟩
    decide

theorem items_of_more {first : Bool} {i j k l : Input} {x : Except Fault α}
    (hmore : moreItems first i = .ok true j) (hitem : Comes (item j) x k) (hitems : Comes (items item fuel false k) y l) :
    Comes (items item (fuel + 1) first i) (do return (← x) :: (← y)) l := by
  refine Comes.bind_ok hmore (Comes.bind hitem fun a _ => Comes.bind hitems fun as _ => ?_)
  rfl

theorem length_le_prettyItems (level : Nat) (ds : List Document) :
    ds.length ≤ (prettyItems level ds).toList.length := by
  induction ds with
  | nil => exact Nat.zero_le _
  | cons d ds ih =>
    rw [toList_prettyItems_cons]
    simp only [length_cons, length_append]
    omega

theorem comes_items (level level' : Nat) {as : List γ} (h : ∀ a ∈ as, Reads item (doc a) (val a)) (hfuel : as.length < fuel)
    (hb : ((prettyItems level (as.map doc)).toList ++ ((newline level').toList ++ ']' :: rest)).length ≤ b) :
    Comes (items item fuel false
        ⟨(prettyItems level (as.map doc)).toList ++ ((newline level').toList ++ ']' :: rest), b⟩)
      (as.mapM val) ⟨']' :: rest, b⟩ := by
  induction as generalizing fuel with
  | nil =>
    obtain ⟨fuel, rfl⟩ := Nat.exists_eq_succ_of_ne_zero (Nat.ne_zero_of_lt hfuel)
    exact Comes.bind_ok (moreItems_end (isBlank_newline level')) rfl
  | cons a as ih =>
    obtain ⟨fuel, rfl⟩ := Nat.exists_eq_succ_of_ne_zero (Nat.ne_zero_of_lt hfuel)
    have hread := h a mem_cons_self level
    have hends := ends_prettyItems level level' (as.map doc) (']' :: rest)
    rw [map_cons, toList_prettyItems_cons] at hb ⊢
    simp only [cons_append, append_assoc, length_append, length_cons] at hb hfuel ⊢
    rw [mapM_cons]
    refine items_of_more (hread.moreItems_next (isBlank_newline level)) (hread.comes [] _ b nofun hends ?_)
      (ih (fun a ha => h a (.tail _ ha)) (by omega) ?_)
    all_goals
      simp only [length_append, length_cons]
      omega

theorem toList_prettyAt_arr_cons (level : Nat) (d : Document) (ds : List Document) :
    (prettyAt level (.arr (d :: ds))).toList =
      '[' :: ((newline (level + 1)).toList ++ ((d.prettyAt (level + 1)).toList ++
        ((prettyItems (level + 1) ds).toList ++ ((newline level).toList ++ [']'])))) := by
  simp [prettyAt]

theorem list_of_items {expected : String} {blanks inner : List Char}
    (hblanks : ∀ d ∈ blanks, isBlank d) (h : Comes (items item (b + 1) true ⟨inner, b⟩) y ⟨']' :: rest, b⟩) :
    Comes (list expected item ⟨blanks ++ '[' :: inner, b⟩) y ⟨rest, b⟩ := by
  have hclosed := h.bind (g := fun as => closeList >>= fun _ => pure as) (y := pure) (k := ⟨rest, b⟩)
    fun _ _ => rfl
  rw [bind_pure] at hclosed
  exact Comes.bind_ok (peekOr_of_blanks hblanks (by decide)) hclosed

theorem reads_list (expected : String) {as : List γ} (h : ∀ a ∈ as, Reads item (doc a) (val a)) :
    Reads (list expected item) (.arr (as.map doc)) (as.mapM val) := by
  intro level
  cases as with
  | nil =>
    have htext : (prettyAt level (.arr [])).toList = ['[', ']'] := by simp [prettyAt, leafText]
    rw [map_nil, htext]
    refine ⟨⟨'[', [']'], rfl, by decide, by decide⟩, fun blanks rest b hblanks _ _ => ?_⟩
    exact list_of_items hblanks (Comes.bind_ok (moreItems_end (show ∀ d ∈ [], isBlank d from nofun)) rfl)
  | cons a as =>
    have hread := h a mem_cons_self (level + 1)
    rw [map_cons, toList_prettyAt_arr_cons]
    refine ⟨⟨'[', _, rfl, by decide, by decide⟩, fun blanks rest b hblanks _ hb => ?_⟩
    have hends := ends_prettyItems (level + 1) level (as.map doc) (']' :: rest)
    have hlength := length_le_prettyItems (level + 1) (as.map doc)
    simp only [cons_append, append_assoc, length_append, length_cons, length_map] at hb hlength ⊢
    rw [mapM_cons]
    refine list_of_items hblanks (items_of_more (hread.moreItems_first (isBlank_newline (level + 1)))
      (hread.comes [] _ b nofun hends ?_) (comes_items (level + 1) level (fun a ha => h a (.tail _ ha))
        (by omega) ?_))
    all_goals
      simp only [length_append, length_cons]
      omega

end

/-! ### Records -/

section
variable {blanks rest : List Char} {b : Nat}

theorem moreMembers_end {first : Bool} (hblanks : ∀ d ∈ blanks, isBlank d) :
    moreMembers first ⟨blanks ++ '\x7d' :: rest, b⟩ = .ok false ⟨'\x7d' :: rest, b⟩ := by
  rw [moreMembers, run_bind_of_ok (peekOr_of_blanks hblanks (by decide)), if_pos rfl]
  rfl

theorem moreMembers_first (key : String) (hblanks : ∀ d ∈ blanks, isBlank d) :
    moreMembers true ⟨blanks ++ ((stringText key).toList ++ rest), b⟩ = .ok true ⟨(stringText key).toList ++ rest, b⟩ := by
  rw [moreMembers, run_bind_of_ok (peekOr_text key hblanks)]
  rfl

theorem moreMembers_next (key : String) (hblanks : ∀ d ∈ blanks, isBlank d) :
    moreMembers false ⟨',' :: (blanks ++ ((stringText key).toList ++ rest)), b⟩ =
      .ok true ⟨(stringText key).toList ++ rest, b⟩ := by
  rw [moreMembers, run_bind_of_ok (peekOr_cons (by decide)), if_neg (by decide), if_neg (by decide), if_pos rfl,
    run_advance_bind, run_bind_of_ok (peekOr_text key hblanks)]
  rfl

end

/-- What the members of an object make of a record under construction. -/
inductive Fills {σ : Type} (fields : List (Reader.Field σ)) : σ → List (String × Document) → Except Fault σ → Prop where
  | nil {s} : Fills fields s [] (.ok s)
  | cons {s : σ} {key : String} {d : Document} {members : List (String × Document)} {field : Reader.Field σ}
      {x : Except Fault σ} {y : σ → Except Fault σ} (hfind : fields.find? (·.name = key) = some field)
      (hset : field.isSet s = false) (hread : Reads (field.read s) d x)
      (hmore : ∀ s', x = .ok s' → Fills fields s' members (y s')) : Fills fields s ((key, d) :: members) (x >>= y)

section
variable {σ : Type} {fields : List (Reader.Field σ)} {key : String} {fuel b : Nat} {rest : List Char}
  {ms : List (String × Document)}

theorem Fills.cons_ok {s s' : σ} {d : Document} {members : List (String × Document)} {field : Reader.Field σ}
    {x : Except Fault σ} (hfind : fields.find? (·.name = key) = some field) (hset : field.isSet s = false)
    (hread : Reads (field.read s) d (.ok s')) (hmore : Fills fields s' members x) :
    Fills fields s ((key, d) :: members) x := by
  refine Fills.cons (y := fun _ => x) hfind hset hread fun s'' hs => ?_
  cases hs
  exact hmore

theorem Fills.last {s : σ} {d : Document} (field : Reader.Field σ) {x : Except Fault σ}
    (hfind : fields.find? (·.name = key) = some field) (hset : field.isSet s = false)
    (hread : Reads (field.read s) d x) : Fills fields s [(key, d)] x := by
  have hfills := Fills.cons (y := pure) hfind hset hread fun _ _ => Fills.nil
  rwa [bind_pure] at hfills

theorem toList_prettyMembers_cons (level : Nat) (key : String) (d : Document) (members : List (String × Document)) :
    (prettyMembers level ((key, d) :: members)).toList =
      ',' :: ((newline level).toList ++ ((stringText key).toList ++ (':' :: ' ' ::
        ((d.prettyAt level).toList ++ (prettyMembers level members).toList)))) := by
  simp [prettyMembers]

theorem ends_prettyMembers (level level' : Nat) (members : List (String × Document)) (rest : List Char) :
    Ends ((prettyMembers level members).toList ++ ((newline level').toList ++ rest)) := by
  cases members with
  | nil => exact ends_newline level' rest
  | cons member members =>
    rw [toList_prettyMembers_cons]
    rintro c ⟨⟩
    decide

theorem length_le_prettyMembers (level : Nat) (members : List (String × Document)) :
    members.length ≤ (prettyMembers level members).toList.length := by
  induction members with
  | nil => exact Nat.zero_le _
  | cons member members ih =>
    rw [toList_prettyMembers_cons]
    simp only [length_cons, length_append]
    omega

theorem members_of_more {first : Bool} {i k : Input} {s : σ} {text : List Char} {field : Reader.Field σ}
    {x : Except Fault σ} {y : σ → Except Fault σ}
    (hmore : moreMembers first i = .ok true ⟨(stringText key).toList ++ (':' :: ' ' :: (text ++ rest)), b⟩)
    (hfind : fields.find? (·.name = key) = some field) (hset : field.isSet s = false)
    (hread : Takes (field.read s) text x) (hrest : Ends rest) (hb : (text ++ rest).length ≤ b)
    (hothers : ∀ s', x = .ok s' → Comes (members fields fuel false s' ⟨rest, b⟩) (y s') k) :
    Comes (members fields (fuel + 1) first s i) (x >>= y) k := by
  refine Comes.bind_ok hmore (Comes.bind_ok (openedString_text key) ?_)
  rw [hfind]
  dsimp only
  rw [hset]
  refine Comes.bind_ok colon_space (Comes.bind ?_ hothers)
  exact hread.comes [' '] rest b (by decide) hrest hb

theorem comes_members (level level' : Nat) {s : σ} {x : Except Fault σ} (h : Fills fields s ms x)
    (hfuel : ms.length < fuel) (hb : ((prettyMembers level ms).toList ++ ((newline
    level').toList ++ '\x7d' :: rest)).length ≤ b) :
    Comes (members fields fuel false s
        ⟨(prettyMembers level ms).toList ++ ((newline level').toList ++ '\x7d' :: rest), b⟩)
      x ⟨'\x7d' :: rest, b⟩ := by
  induction h generalizing fuel with
  | nil =>
    obtain ⟨fuel, rfl⟩ := Nat.exists_eq_succ_of_ne_zero (Nat.ne_zero_of_lt hfuel)
    exact Comes.bind_ok (moreMembers_end (isBlank_newline level')) rfl
  | @cons s key d ms field x y hfind hset hread hmore ih =>
    obtain ⟨fuel, rfl⟩ := Nat.exists_eq_succ_of_ne_zero (Nat.ne_zero_of_lt hfuel)
    have hends := ends_prettyMembers level level' ms ('\x7d' :: rest)
    rw [toList_prettyMembers_cons] at hb ⊢
    simp only [cons_append, append_assoc, length_append, length_cons] at hb hfuel ⊢
    refine members_of_more (moreMembers_next key (isBlank_newline level)) hfind hset (hread level) hends ?_
      fun s' hs => ih s' hs (by omega) ?_
    all_goals
      simp only [length_append, length_cons]
      omega

theorem toList_prettyAt_obj_cons (level : Nat) (key : String) (d : Document) (members : List (String × Document)) :
    (prettyAt level (.obj ((key, d) :: members))).toList =
      '\x7b' :: ((newline (level + 1)).toList ++ ((stringText key).toList ++ (':' :: ' ' ::
        ((d.prettyAt (level + 1)).toList ++ ((prettyMembers (level + 1) members).toList ++
          ((newline level).toList ++ ['\x7d'])))))) := by
  simp [prettyAt]

variable {α : Type}

theorem record_of_members {expected : String} {start : σ} {finish : σ → Except Fault α}
    {blanks inner : List Char} {x : Except Fault σ} (hblanks : ∀ d ∈ blanks, isBlank d)
    (h : Comes (members fields (b + 1) true start ⟨inner, b⟩) x ⟨'\x7d' :: rest, b⟩) :
    Comes (record expected fields start finish ⟨blanks ++ '\x7b' :: inner, b⟩) (x >>= finish) ⟨rest, b⟩ := by
  refine Comes.bind_ok (peekOr_of_blanks hblanks (by decide)) ?_
  refine h.bind (g := fun s => (match finish s with
    | .ok a => pure a
    | .error fault => throw fault) >>= fun a => advance >>= fun _ => pure a) fun s _ => ?_
  cases finish s with
  | ok a => rfl
  | error fault => exact ⟨_, rfl⟩

theorem reads_record (expected : String) {start : σ} (finish : σ → Except Fault α) {x : Except Fault σ}
    (h : Fills fields start ms x) : Reads (record expected fields start finish) (.obj ms) (x >>= finish) := by
  intro level
  cases h with
  | nil =>
    have htext : (prettyAt level (.obj [])).toList = ['\x7b', '\x7d'] := by
      simp [prettyAt, leafText]
    rw [htext]
    refine ⟨⟨'\x7b', ['\x7d'], rfl, by decide, by decide⟩, fun blanks rest b hblanks _ _ => ?_⟩
    exact record_of_members hblanks (Comes.bind_ok (moreMembers_end (show ∀ d ∈ [], isBlank d from nofun)) rfl)
  | @cons _ key d ms field x y hfind hset hread hmore =>
    rw [toList_prettyAt_obj_cons]
    refine ⟨⟨'\x7b', _, rfl, by decide, by decide⟩, fun blanks rest b hblanks _ hb => ?_⟩
    have hends := ends_prettyMembers (level + 1) level ms ('\x7d' :: rest)
    have hlength := length_le_prettyMembers (level + 1) ms
    simp only [cons_append, append_assoc, length_append, length_cons] at hb ⊢
    refine record_of_members hblanks (members_of_more (moreMembers_first key (isBlank_newline (level + 1))) hfind hset
      (hread (level + 1)) hends ?_ fun s' hs => comes_members (level + 1) level (hmore s' hs) (by omega) ?_)
    all_goals
      simp only [length_append, length_cons]
      omega

end

section
variable {α β γ : Type} {read1 : Reader α} {read2 : Reader β} {d1 d2 : Document} {x : Except Fault α} {y : Except Fault β}

theorem reads_record₁ (name : String) (build : α → γ) (h : Reads read1 d1 x) :
    Reads (record₁ name read1 build) (.obj [(name, d1)]) (build <$> x) := by
  have hfills : Fills [⟨name, Option.isSome, fun _ => some <$> read1⟩] none [(name, d1)] (some <$> x) :=
    .last _ (find?_cons_of_pos (by simp)) rfl (h.map some)
  have hread := reads_record "struct variant" (fun s => build <$> required name s) hfills
  cases x with
  | ok a => exact hread
  | error fault => exact hread

theorem reads_record₂ {name1 name2 : String} (hname : name1 ≠ name2) (build : α → β → γ) (h1 : Reads read1 d1 x)
    (h2 : Reads read2 d2 y) :
    Reads (record₂ name1 read1 name2 read2 build) (.obj [(name1, d1), (name2, d2)])
      (do return build (← x) (← y)) := by
  let fields : List (Reader.Field (Option α × Option β)) :=
    [⟨name1, fun s => s.1.isSome, fun s => return (some (← read1), s.2)⟩,
     ⟨name2, fun s => s.2.isSome, fun s => return (s.1, some (← read2))⟩]
  have hfills : Fills fields (none, none) [(name1, d1), (name2, d2)]
      ((fun a => (some a, none)) <$> x >>= fun s : Option α × Option β => (fun b => (s.1, some b)) <$> y) := by
    refine .cons (find?_cons_of_pos (by simp)) rfl (h1.map fun a => (some a, none)) fun s hs => ?_
    refine .last ⟨name2, fun s => s.2.isSome, fun s => return (s.1, some (← read2))⟩ ?_ ?_
      (h2.map fun b => (s.1, some b))
    · rw [find?_cons_of_neg (by simpa using hname), find?_cons_of_pos (by simp)]
    · cases x with
      | ok a =>
        cases hs
        rfl
      | error fault => cases hs
  have hread := reads_record "struct variant"
    (fun s => do return build (← required name1 s.1) (← required name2 s.2)) hfills
  cases x with
  | ok a =>
    cases y with
    | ok b => exact hread
    | error fault => exact hread
  | error fault => exact hread

end

/-! ### Variants -/

section
variable {α : Type} {content? : String → Option (Content α)} (name : String)

theorem reads_variant_nothing {a : α} (h : content? name = some (.nothing a)) :
    Reads (variant content?) (.str name) (.ok a) := by
  intro level
  refine ⟨⟨'"', _, toList_stringText name, by decide, by decide⟩, fun blanks rest b hblanks _ _ => ?_⟩
  change Comes (variant content? ⟨blanks ++ ((stringText name).toList ++ rest), b⟩) _ _
  refine Comes.bind_ok (peekOr_text name hblanks) (Comes.bind_ok (openedString_text name) ?_)
  beta_reduce
  rw [h]
  rfl

theorem reads_variant {read : Reader α} {d : Document} {x : Except Fault α} (h : content? name = some (.value read))
    (hread : Reads read d x) : Reads (variant content?) (.obj [(name, d)]) x := by
  intro level
  rw [toList_prettyAt_obj_cons]
  refine ⟨⟨'\x7b', _, rfl, by decide, by decide⟩, fun blanks rest b hblanks _ hb => ?_⟩
  simp only [List.cons_append, List.append_assoc, List.length_append, List.length_cons] at hb ⊢
  -- the content between the brackets, and the closing bracket
  have hcontent := hread (level + 1) |>.comes [' '] _ b (by decide)
    (ends_prettyMembers (level + 1) level [] ('\x7d' :: rest))
    (by simp only [List.length_append, List.length_cons]; omega)
  have hclosed := hcontent.bind (g := fun a => peekOr .endInObject >>= fun c =>
    if c = '\x7d' then advance >>= fun _ => pure a else throw .expectedValue) (y := pure) (k := ⟨rest, b⟩)
    fun a _ => Comes.bind_ok (peekOr_of_blanks (c := '\x7d') (isBlank_newline level) (by decide)) rfl
  rw [bind_pure] at hclosed
  refine Comes.bind_ok (peekOr_of_blanks hblanks (by decide)) (Comes.bind_ok (a := ()) rfl ?_)
  refine Comes.bind_ok (peekOr_text name (isBlank_newline (level + 1))) ?_
  refine Comes.bind_ok (openedString_text name) ?_
  beta_reduce
  rw [h]
  exact Comes.bind_ok (a := Content.value read) rfl (Comes.bind_ok colon_space hclosed)

end

/-! ### Whole texts -/

theorem run_pretty {r : Reader α} {x : Except Fault α} (h : Reads r d x) : r.run d.pretty = x := by
  let b := d.pretty.toList.length
  have hread : Comes (r ⟨d.pretty.toList, b⟩) x ⟨[], b⟩ := by
    have hcomes := (h 0).comes [] [] b nofun nofun (by rw [append_nil]; exact le_rfl)
    rwa [append_nil] at hcomes
  cases x with
  | ok a =>
    unfold run
    dsimp only
    rw [run_bind_of_ok hread]
    rfl
  | error fault =>
    obtain ⟨i, hi⟩ := hread
    unfold run
    dsimp only
    rw [run_bind_of_error hi]

end Clausal.Json
