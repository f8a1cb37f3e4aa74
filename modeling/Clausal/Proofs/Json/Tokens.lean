import Clausal.Json.Document
import Clausal.Json.Reader
import Clausal.Proofs.Tree.Lookup

/-! # Strings and numbers of a document

What is written between the marks of a string is read back character by character (`stringBody_text`), and the
digits of a number are read back as the number (`number_natural`, `number_negSucc`). -/

namespace Clausal.Json

open List

/-! ### Strings -/

theorem hexValue?_hexDigit : ∀ d < 16, hexValue? (hexDigit d) = some d := by decide

variable {n : Nat}

theorem hexQuad?_hexDigit (h : n < 32) :
    hexQuad? '0' '0' (hexDigit (n / 16)) (hexDigit (n % 16)) = some n := by
  have hhigh := hexValue?_hexDigit (n / 16) (by omega)
  have hlow := hexValue?_hexDigit (n % 16) (by omega)
  have hzero : hexValue? '0' = some 0 := by decide
  have hn : n / 16 * 16 + n % 16 = n := by omega
  simp [hexQuad?, hhigh, hlow, hzero, hn]

theorem stringBody_short {seen rest : List Char} {c d : Char} (hc : c ≠ 'u') (h : shortEscape? c = some d) :
    stringBody seen ('\\' :: c :: rest) = stringBody (d :: seen) rest := by
  rw [stringBody]
  · rw [h]
  · exact fun _ _ _ _ _ h => absurd h hc
  · exact fun h => hc h

theorem stringBody_control (seen rest : List Char) (h : n < 32) :
    stringBody seen ('\\' :: 'u' :: '0' :: '0' :: hexDigit (n / 16) :: hexDigit (n % 16) :: rest) =
      stringBody (Char.ofNat n :: seen) rest := by
  have htrailing : isTrailing n = false := by simp [isTrailing]; omega
  have hleading : isLeading n = false := by simp [isLeading]; omega
  rw [stringBody, hexQuad?_hexDigit h]
  simp [htrailing, hleading]

theorem stringBody_escaped (seen : List Char) (c : Char) (rest : List Char) :
    stringBody seen (escapedChar c ++ rest) = stringBody (c :: seen) rest := by
  unfold escapedChar
  split_ifs with hquote hslash hnewline hreturn htab hback hfeed hcontrol
  · subst hquote
    exact stringBody_short (by decide) (by decide)
  · subst hslash
    exact stringBody_short (by decide) (by decide)
  · subst hnewline
    exact stringBody_short (by decide) (by decide)
  · subst hreturn
    exact stringBody_short (by decide) (by decide)
  · subst htab
    exact stringBody_short (by decide) (by decide)
  · obtain rfl : Char.ofNat 8 = c := hback ▸ c.ofNat_toNat
    exact stringBody_short (by decide) (by decide)
  · obtain rfl : Char.ofNat 12 = c := hfeed ▸ c.ofNat_toNat
    exact stringBody_short (by decide) (by decide)
  · have hbody := stringBody_control seen rest hcontrol
    rwa [c.ofNat_toNat] at hbody
  · rw [singleton_append, stringBody, if_neg hcontrol]
    · exact fun h => absurd h hquote
    · exact fun _ _ _ _ _ h => absurd h hslash
    · exact fun _ h => absurd h hslash
    · exact fun _ _ h => absurd h hslash
    · exact fun h => absurd h hslash

theorem stringBody_text (seen cs rest : List Char) :
    stringBody seen (cs.flatMap escapedChar ++ '"' :: rest) = .ok (String.ofList (seen.reverse ++ cs), rest) := by
  induction cs generalizing seen with
  | nil => rw [flatMap_nil, nil_append, stringBody, append_nil]
  | cons c cs ih =>
    rw [flatMap_cons, append_assoc, stringBody_escaped, ih, reverse_cons, append_assoc]
    rfl

/-! ### Numbers in front of a text -/

def Ends (rest : List Char) : Prop := ∀ c ∈ rest.head?, c.isDigit = false ∧ c ≠ '.' ∧ c ≠ 'e' ∧ c ≠ 'E'

section
variable {rest cs left : List Char} {c : Char}

theorem takeWhile_append_ends (hrest : Ends rest) (cs : List Char) :
    (cs ++ rest).takeWhile Char.isDigit = cs.takeWhile Char.isDigit := by
  induction cs with
  | nil =>
    cases rest with
    | nil => rfl
    | cons c rest => rw [nil_append, List.takeWhile_cons, (hrest c rfl).1]; rfl
  | cons c cs ih => rw [cons_append, List.takeWhile_cons, List.takeWhile_cons, ih]

theorem dropWhile_append_ends (hrest : Ends rest) (cs : List Char) :
    (cs ++ rest).dropWhile Char.isDigit = cs.dropWhile Char.isDigit ++ rest := by
  induction cs with
  | nil =>
    cases rest with
    | nil => rfl
    | cons c rest => rw [nil_append, dropWhile_cons, (hrest c rfl).1]; rfl
  | cons c cs ih =>
    rw [cons_append, dropWhile_cons, dropWhile_cons, ih]
    split_ifs <;> rfl

theorem head?_append_ends (hrest : Ends rest) (cs : List Char) (hc : c = '.' ∨ c = 'e' ∨ c = 'E') :
    (cs ++ rest).head? = some c ↔ cs.head? = some c := by
  cases cs with
  | nil =>
    refine iff_of_false (fun h => ?_) nofun
    obtain ⟨-, hpoint, he, hE⟩ := hrest c h
    rcases hc with hc | hc | hc
    exacts [hpoint hc, he hc, hE hc]
  | cons d cs => rfl

theorem exponentDigits_unsigned (hplus : c ≠ '+') (hminus : c ≠ '-') :
    exponentDigits (c :: cs) =
      if c.isDigit then .ok (false, (c :: cs).takeWhile Char.isDigit, (c :: cs).dropWhile Char.isDigit)
      else .error .invalidNumber := by
  simp [exponentDigits, hplus, hminus]

theorem exponentDigits_append (hrest : Ends rest) {digits : List Char} {isNegative : Bool}
    (h : exponentDigits cs = .ok (isNegative, digits, left)) :
    exponentDigits (cs ++ rest) = .ok (isNegative, digits, left ++ rest) := by
  -- what follows the sign
  have hdigits : ∀ (b : Bool) (c : Char) (ds : List Char),
      (if c.isDigit then .ok (b, (c :: ds).takeWhile Char.isDigit, (c :: ds).dropWhile Char.isDigit)
        else .error .invalidNumber : Except Fault _) = .ok (isNegative, digits, left) →
      (if c.isDigit then
          .ok (b, (c :: (ds ++ rest)).takeWhile Char.isDigit, (c :: (ds ++ rest)).dropWhile Char.isDigit)
        else .error .invalidNumber : Except Fault _) = .ok (isNegative, digits, left ++ rest) := by
    intro b c ds h
    split_ifs at h ⊢
    rw [← cons_append, takeWhile_append_ends hrest, dropWhile_append_ends hrest]
    obtain ⟨rfl, rfl, rfl⟩ := h
    rfl
  rcases cs with _ | ⟨c, cs⟩
  · cases h
  · by_cases hplus : c = '+'
    · subst hplus
      rcases cs with _ | ⟨d, ds⟩
      · cases h
      · exact hdigits false d ds h
    by_cases hminus : c = '-'
    · subst hminus
      rcases cs with _ | ⟨d, ds⟩
      · cases h
      · exact hdigits true d ds h
    rw [exponentDigits_unsigned hplus hminus] at h
    rw [cons_append, exponentDigits_unsigned hplus hminus]
    exact hdigits false c cs h

theorem finishReal_append (hrest : Ends rest) {significand : Nat} {exponent : Int} {f : Float}
    (h : finishReal significand exponent cs = .ok (f, left)) :
    finishReal significand exponent (cs ++ rest) = .ok (f, left ++ rest) := by
  cases cs with
  | nil =>
    obtain ⟨f', hf, hpair⟩ := bind_eq_ok_iff.1 h
    obtain ⟨rfl, rfl⟩ := hpair
    cases rest with
    | nil => exact h
    | cons c rest =>
      obtain ⟨-, -, he, hE⟩ := hrest c rfl
      simp [finishReal, he, hE, hf, bind, Except.bind, pure, Except.pure]
  | cons c cs =>
    unfold finishReal at h
    rw [cons_append, finishReal]
    dsimp only at h
    split_ifs at h ⊢
    · obtain ⟨⟨b, digits, left'⟩, hdigits, h⟩ := bind_eq_ok_iff.1 h
      obtain ⟨f', hf, hpair⟩ := bind_eq_ok_iff.1 h
      obtain ⟨rfl, rfl⟩ := hpair
      exact bind_eq_ok_iff.2 ⟨_, exponentDigits_append hrest hdigits, bind_eq_ok_iff.2 ⟨_, hf, rfl⟩⟩
    · obtain ⟨f', hf, hpair⟩ := bind_eq_ok_iff.1 h
      obtain ⟨rfl, rfl⟩ := hpair
      exact bind_eq_ok_iff.2 ⟨_, hf, rfl⟩

theorem magnitude_append (hrest : Ends rest) {first : Char} {m : Nat ⊕ Float}
    (h : magnitude first cs = .ok (m, left)) : magnitude first (cs ++ rest) = .ok (m, left ++ rest) := by
  unfold magnitude at h ⊢
  rw [takeWhile_append_ends hrest, dropWhile_append_ends hrest]
  generalize cs.takeWhile Char.isDigit = digits at h ⊢
  generalize cs.dropWhile Char.isDigit = more at h ⊢
  dsimp only at h ⊢
  split_ifs at h ⊢
  generalize wholePart (digitValue first) digits = part at h ⊢
  obtain ⟨significand, dropped⟩ := part
  dsimp only at h ⊢
  split at h
  · rename_i more
    simp only [cons_append, takeWhile_append_ends hrest, dropWhile_append_ends hrest]
    split_ifs at h ⊢
    obtain ⟨⟨f, left'⟩, hf, hpair⟩ := bind_eq_ok_iff.1 h
    obtain ⟨rfl, rfl⟩ := hpair
    exact bind_eq_ok_iff.2 ⟨_, finishReal_append hrest hf, rfl⟩
  · rename_i hpoint
    split
    · rename_i rest' hmore
      have hhead : (more ++ rest).head? = some '.' := congrArg head? hmore
      obtain ⟨tail, rfl⟩ := List.head?_eq_some_iff.1 ((head?_append_ends hrest more (.inl rfl)).1 hhead)
      exact absurd rfl (hpoint tail)
    · simp only [head?_append_ends hrest more (.inr (.inl rfl)), head?_append_ends hrest more (.inr (.inr rfl))]
      split_ifs at h ⊢
      · cases h
        rfl
      · obtain ⟨⟨f, left'⟩, hf, hpair⟩ := bind_eq_ok_iff.1 h
        obtain ⟨rfl, rfl⟩ := hpair
        exact bind_eq_ok_iff.2 ⟨_, finishReal_append hrest hf, rfl⟩

theorem number_negative (hc : c.isDigit) :
    number ('-' :: c :: cs) = (magnitude c cs).map fun m => (negate m.1, m.2) := by
  simp only [number, hc, if_true]
  rfl

theorem number_positive (hc : c.isDigit) :
    number (c :: cs) = (magnitude c cs).map fun m => (m.1.elim .natural .real, m.2) := by
  have hminus : c ≠ '-' := by
    rintro rfl
    cases hc
  unfold number
  split
  · rename_i h
    cases h
    exact absurd rfl hminus
  · rename_i h
    cases h
    exact absurd rfl hminus
  · rename_i h
    cases h
    rw [if_pos hc]
    cases magnitude c cs with
    | error f => rfl
    | ok m =>
      obtain ⟨n | f, left⟩ := m
      · rfl
      · rfl
  · rename_i h
    cases h

variable {n : Number}

theorem exists_magnitude_of_number (h : number cs = .ok (n, left)) :
    ∃ c ds m, c.isDigit ∧ magnitude c ds = .ok (m, left) ∧
      (cs = c :: ds ∧ n = m.elim .natural .real ∨ cs = '-' :: c :: ds ∧ n = negate m) := by
  have hdigit : ∃ c ds, c.isDigit ∧ (cs = c :: ds ∨ cs = '-' :: c :: ds) := by
    unfold number at h
    split at h
    · cases h
    · split_ifs at h with hc
      exact ⟨_, _, hc, .inr rfl⟩
    · split_ifs at h with hc
      exact ⟨_, _, hc, .inl rfl⟩
    · cases h
  obtain ⟨c, ds, hc, rfl | rfl⟩ := hdigit
  · rw [number_positive hc] at h
    cases hm : magnitude c ds with
    | error f =>
      rw [hm] at h
      cases h
    | ok m =>
      rw [hm] at h
      cases h
      exact ⟨c, ds, m.1, hc, hm, .inl ⟨rfl, rfl⟩⟩
  · rw [number_negative hc] at h
    cases hm : magnitude c ds with
    | error f =>
      rw [hm] at h
      cases h
    | ok m =>
      rw [hm] at h
      cases h
      exact ⟨c, ds, m.1, hc, hm, .inr ⟨rfl, rfl⟩⟩

theorem number_append (hrest : Ends rest) (h : number cs = .ok (n, left)) :
    number (cs ++ rest) = .ok (n, left ++ rest) := by
  obtain ⟨c, ds, m, hc, hm, ⟨rfl, rfl⟩ | ⟨rfl, rfl⟩⟩ := exists_magnitude_of_number h
  · rw [cons_append, number_positive hc, magnitude_append hrest hm]
    rfl
  · rw [cons_append, cons_append, number_negative hc, magnitude_append hrest hm]
    rfl

end

/-! ### Written numbers -/

theorem le_ofDigitChars (digits : List Char) (n : Nat) : n ≤ Nat.ofDigitChars 10 digits n := by
  induction digits generalizing n with
  | nil => exact Nat.le_refl n
  | cons d digits ih =>
    rw [Nat.ofDigitChars_cons]
    have := ih (10 * n + (d.toNat - '0'.toNat))
    omega

theorem wholePart_eq {digits : List Char} (h : Nat.ofDigitChars 10 digits n ≤ significandLimit) :
    wholePart n digits = (Nat.ofDigitChars 10 digits n, 0) := by
  induction digits generalizing n with
  | nil => rfl
  | cons d digits ih =>
    rw [Nat.ofDigitChars_cons] at h ⊢
    have hnext : n * 10 + digitValue d = 10 * n + (d.toNat - '0'.toNat) := by rw [Nat.mul_comm]; rfl
    have hroom := le_ofDigitChars digits (10 * n + (d.toNat - '0'.toNat))
    rw [wholePart, hnext, if_pos (hroom.trans h), ih h]

theorem eq_nil_of_toDigits {ds : List Char} (h : Nat.toDigits 10 n = '0' :: ds) : ds = [] := by
  induction n using Nat.strongRecOn generalizing ds with
  | ind n ih =>
    rw [Nat.toDigits_eq_if (by decide)] at h
    split_ifs at h with hn
    · exact (List.cons.inj h).2.symm
    · -- the digits in front of the last one would be those of zero
      obtain ⟨ds', hds, -⟩ := (List.append_eq_cons_iff.1 h).resolve_left fun h' => Nat.toDigits_ne_nil h'.1
      have hnil := ih (n / 10) (by omega) hds
      have hzero : _ = n / 10 := Nat.ofDigitChars_ten_toDigits
      rw [hds, hnil] at hzero
      have : n / 10 = 0 := hzero.symm
      omega

theorem exists_magnitude (h : n ≤ significandLimit) :
    ∃ c ds, Nat.toDigits 10 n = c :: ds ∧ c.isDigit ∧ magnitude c ds = .ok (.inl n, []) := by
  obtain ⟨c, ds, hn⟩ := exists_cons_of_ne_nil (Nat.toDigits_ne_nil (n := n) (b := 10))
  have hdigit : ∀ d ∈ c :: ds, d.isDigit := fun d hd =>
    Nat.isDigit_of_mem_toDigits (by decide) (by decide) (hn ▸ hd)
  have hds : ds.takeWhile Char.isDigit = ds :=
    List.takeWhile_eq_self_iff.2 fun d hd => hdigit d (.tail _ hd)
  have hleft : ds.dropWhile Char.isDigit = [] :=
    dropWhile_eq_nil_iff.2 fun d hd => hdigit d (.tail _ hd)
  have hzero : (c = '0' && !ds.isEmpty) = false := by
    by_cases hc : c = '0'
    · subst hc
      rw [eq_nil_of_toDigits hn]
      rfl
    · rw [decide_eq_false hc, Bool.false_and]
  have hvalue : Nat.ofDigitChars 10 ds (digitValue c) = n := by
    have hall : _ = n := Nat.ofDigitChars_ten_toDigits
    rw [hn, Nat.ofDigitChars_cons, Nat.mul_zero, Nat.zero_add] at hall
    exact hall
  refine ⟨c, ds, hn, hdigit c mem_cons_self, ?_⟩
  simp [magnitude, hds, hleft, hzero, wholePart_eq (hvalue.trans_le h), hvalue]

theorem number_natural (h : n ≤ significandLimit) : number (toString n).toList = .ok (.natural n, []) := by
  obtain ⟨c, ds, hn, hc, hm⟩ := exists_magnitude h
  rw [Nat.toString_eq_ofList_toDigits, String.toList_ofList, hn, number_positive hc, hm]
  rfl

theorem number_negSucc (h : n < 2 ^ 63) :
    number (toString (Int.negSucc n)).toList = .ok (.negative (.negSucc n), []) := by
  obtain ⟨c, ds, hn, hc, hm⟩ := exists_magnitude (n := n + 1) (by rw [significandLimit, Nat.pow_eq]; omega)
  have hneg : negate (.inl (n + 1)) = .negative (.negSucc n) := by
    rw [negate, if_neg]
    · rfl
    · simp only [Nat.add_eq_zero_iff, Nat.one_ne_zero, and_false, decide_false, Bool.false_or, decide_eq_true_eq,
        Nat.pow_eq]
      omega
  have htext : (toString (Int.negSucc n)).toList = '-' :: Nat.toDigits 10 (n + 1) := by
    change ("-" ++ (n + 1).repr).toList = _
    simp [Nat.repr_eq_ofList_toDigits]
  rw [htext, hn, number_negative hc, hm]
  exact congrArg (fun m => Except.ok (m, [])) hneg

end Clausal.Json
