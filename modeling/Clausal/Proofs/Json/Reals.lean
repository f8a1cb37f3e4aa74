import Clausal.Proofs.Json.Readers

/-! # Floating-point numbers in documents

A number that is not finite has no text of its own: it is written as `null`, which is not read as a number
(`reads_real_of_not_isFinite`).  The text of a finite number holds no blanks (`isBlank_finiteText`), and what
is left behind a number is the end of its text (`number_suffix`). -/

namespace Clausal.Json

open Reader List Decimal

/-! ### What is left behind a number -/

section
variable {cs left : List Char}

theorem exponentDigits_suffix {isNegative : Bool} {digits : List Char}
    (h : exponentDigits cs = .ok (isNegative, digits, left)) : left <:+ cs := by
  unfold exponentDigits at h
  split at h
  rename_i b ds hsign
  have hds : ds <:+ cs := by
    split at hsign
    all_goals
      cases hsign
      first | exact suffix_cons .. | exact suffix_rfl
  split at h
  · cases h
  · split_ifs at h
    cases h
    exact (dropWhile_suffix _).trans hds

theorem finishReal_suffix {significand : Nat} {exponent : Int} {f : Float}
    (h : finishReal significand exponent cs = .ok (f, left)) : left <:+ cs := by
  cases cs with
  | nil =>
    obtain ⟨_, -, hpair⟩ := bind_eq_ok_iff.1 h
    cases hpair
    exact suffix_rfl
  | cons c cs =>
    unfold finishReal at h
    dsimp only at h
    split_ifs at h
    · obtain ⟨⟨_, _, left'⟩, hdigits, h⟩ := bind_eq_ok_iff.1 h
      obtain ⟨_, -, hpair⟩ := bind_eq_ok_iff.1 h
      cases hpair
      exact (exponentDigits_suffix hdigits).trans (suffix_cons ..)
    · obtain ⟨_, -, hpair⟩ := bind_eq_ok_iff.1 h
      cases hpair
      exact suffix_rfl

theorem magnitude_suffix {first : Char} {m : Nat ⊕ Float} (h : magnitude first cs = .ok (m, left)) : left <:+ cs := by
  have hdrop : cs.dropWhile Char.isDigit <:+ cs := dropWhile_suffix _
  unfold magnitude at h
  dsimp only at h
  split_ifs at h
  split at h
  · rename_i more hmore
    split_ifs at h
    obtain ⟨⟨_, left'⟩, hf, hpair⟩ := bind_eq_ok_iff.1 h
    cases hpair
    refine ((finishReal_suffix hf).trans (dropWhile_suffix _)).trans ((suffix_cons '.' more).trans ?_)
    exact hmore ▸ hdrop
  · split_ifs at h
    · cases h
      exact hdrop
    · obtain ⟨⟨_, left'⟩, hf, hpair⟩ := bind_eq_ok_iff.1 h
      cases hpair
      exact (finishReal_suffix hf).trans hdrop

theorem number_suffix {n : Number} (h : number cs = .ok (n, left)) : left <:+ cs := by
  obtain ⟨c, ds, m, -, hm, ⟨rfl, -⟩ | ⟨rfl, -⟩⟩ := exists_magnitude_of_number h
  · exact (magnitude_suffix hm).trans (suffix_cons ..)
  · exact (magnitude_suffix hm).trans ((suffix_cons c ds).trans (suffix_cons ..))

end

/-! ### Texts of numbers -/

theorem isFinite_iff (x : Float) : x.isFinite = true ↔ x.toBits &&& 0x7FFFFFFFFFFFFFFF < 0x7FF0000000000000 := by
  let exponent := @Float.Model.UnpackedFloat.unpackExponent .binary64 x.toBits.toBitVec
  have hunpack : x.isFinite = true ↔ exponent ≠ -1#11 := by
    unfold Float.isFinite Float.Model.isFinite Float.Model.unpack Float.Model.UnpackedFloat.unpack
    dsimp only [exponent, Float.toBits]
    split_ifs <;> simp_all [Float.Model.UnpackedFloat.isFinite]
  have hexponent : exponent.toNat = x.toBits.toNat / 2 ^ 52 % 2 ^ 11 := by
    simp [exponent, Float.Model.UnpackedFloat.unpackExponent, Nat.shiftRight_eq_div_pow]
  have hmask : x.toBits.toNat &&& (0x7FFFFFFFFFFFFFFF : UInt64).toNat = x.toBits.toNat % 2 ^ 63 :=
    Nat.and_two_pow_sub_one_eq_mod _ 63
  have hones : (-1#11).toNat = 2047 := rfl
  have hlimit : (0x7FF0000000000000 : UInt64).toNat = 2047 * 2 ^ 52 := rfl
  rw [hunpack, ne_eq, ← BitVec.toNat_inj, hexponent, hones, UInt64.lt_iff_toNat_lt, UInt64.toNat_and, hmask, hlimit]
  omega

variable {x : Float} {α : Type}

theorem text_of_not_isFinite (hx : x.isFinite = false) : interchange.text x = "null" := by
  have hbits : ¬ x.toBits &&& 0x7FFFFFFFFFFFFFFF < 0x7FF0000000000000 := by
    rw [← isFinite_iff, hx]
    exact Bool.false_ne_true
  unfold Layout.text
  dsimp only
  by_cases hnan : 0x7FF0000000000000 < x.toBits &&& 0x7FFFFFFFFFFFFFFF
  · rw [if_pos hnan]
    rfl
  · have hinf : x.toBits &&& 0x7FFFFFFFFFFFFFFF = 0x7FF0000000000000 :=
      UInt64.le_antisymm (UInt64.not_lt.1 hnan) (UInt64.not_lt.1 hbits)
    rw [if_neg hnan, if_pos hinf]
    rfl

theorem isBlank_digits (n : Nat) : ∀ c ∈ (toString n).toList, isBlank c = false := by
  intro c hc
  rw [Nat.toString_eq_ofList_toDigits, String.toList_ofList] at hc
  exact isBlank_eq_false_of_isDigit (Nat.isDigit_of_mem_toDigits (by decide) (by decide) hc)

theorem isBlank_zeros (n : Nat) : ∀ c ∈ (zeros n).toList, isBlank c = false := by
  intro c hc
  rw [zeros, String.toList_ofList] at hc
  obtain rfl := eq_of_mem_replicate hc
  rfl

theorem isBlank_positionalText (fraction : Bool) (d : Digits) :
    ∀ c ∈ (positionalText fraction d).toList, isBlank c = false := by
  intro c hc
  have hdigits := isBlank_digits d.digits
  unfold positionalText at hc
  dsimp only at hc
  split_ifs at hc
  all_goals
    simp only [String.toList_append, String.toList_ofList, mem_append] at hc
  · rcases hc with (hc | hc) | hc
    · exact hdigits c hc
    · exact isBlank_zeros _ c hc
    · exact (by decide : ∀ c ∈ ".0".toList, isBlank c = false) c hc
  · rcases hc with (hc | hc) | hc
    · exact hdigits c hc
    · exact isBlank_zeros _ c hc
    · cases hc
  · rcases hc with (hc | hc) | hc
    · exact hdigits c (mem_of_mem_take hc)
    · exact (by decide : ∀ c ∈ ".".toList, isBlank c = false) c hc
    · exact hdigits c (mem_of_mem_drop hc)
  · rcases hc with (hc | hc) | hc
    · exact (by decide : ∀ c ∈ "0.".toList, isBlank c = false) c hc
    · exact isBlank_zeros _ c hc
    · exact hdigits c hc

theorem isBlank_exponentText (d : Digits) : ∀ c ∈ (exponentText d).toList, isBlank c = false := by
  intro c hc
  have hdigits := isBlank_digits d.digits
  have hfraction : ∀ c ∈ (if (toString d.digits).toList.length = 1 then ""
      else "." ++ String.ofList ((toString d.digits).toList.drop 1)).toList, isBlank c = false := by
    intro c hc
    split_ifs at hc
    · cases hc
    · simp only [String.toList_append, String.toList_ofList, mem_append] at hc
      rcases hc with hc | hc
      · exact (by decide : ∀ c ∈ ".".toList, isBlank c = false) c hc
      · exact hdigits c (mem_of_mem_drop hc)
  have hsign : ∀ e : Int, ∀ c ∈ (if e < 0 then "-" else "+").toList, isBlank c = false := by
    intro e
    split_ifs
    · decide
    · decide
  unfold exponentText at hc
  simp only [String.toList_append, String.toList_ofList, mem_append] at hc
  rcases hc with (((hc | hc) | hc) | hc) | hc
  · exact hdigits c (mem_of_mem_take hc)
  · exact hfraction c hc
  · exact (by decide : ∀ c ∈ "e".toList, isBlank c = false) c hc
  · exact hsign _ c hc
  · exact isBlank_digits _ c hc

theorem isBlank_finiteText (hx : x.isFinite = true) :
    ∀ c ∈ (interchange.text x).toList, isBlank c = false := by
  have hbits := (isFinite_iff x).1 hx
  have hsign : ∀ c ∈ (if x.toBits >>> 63 = 1 then "-" else "").toList, isBlank c = false := by
    split_ifs
    · decide
    · decide
  have hmagnitude : ∀ d, ∀ c ∈ (interchange.magnitude d).toList, isBlank c = false := by
    intro d
    unfold Layout.magnitude
    dsimp only [interchange]
    split_ifs
    · exact isBlank_positionalText _ d
    · exact isBlank_exponentText d
  have happend : ∀ d, ∀ c ∈ ((if x.toBits >>> 63 = 1 then "-" else "") ++ interchange.magnitude d).toList,
      isBlank c = false := by
    intro d c hc
    rw [String.toList_append, mem_append] at hc
    exact hc.elim (hsign c) (hmagnitude d c)
  unfold Layout.text
  dsimp only
  rw [if_neg (UInt64.lt_asymm hbits), if_neg (UInt64.ne_of_lt hbits)]
  by_cases hzero : x.toBits &&& 0x7FFFFFFFFFFFFFFF = 0
  · rw [if_pos hzero]
    exact happend _
  · rw [if_neg hzero]
    exact happend _

/-! ### Reading numbers back -/

def Faults {α : Type} (r : Reader α) : Prop := ∀ i a j, r i ≠ .ok a j

theorem faults_throw (fault : Fault) : Faults (throw fault : Reader α) := fun _ _ _ => nofun

theorem Faults.after {β : Type} {g : β → Reader α} (h : ∀ b, Faults (g b)) (r : Reader β) :
    Faults (r >>= g) := by
  intro i a j
  cases hr : r i with
  | ok b k =>
    rw [run_bind_of_ok hr]
    exact h b k a j
  | error f k =>
    rw [run_bind_of_error hr]
    exact nofun

theorem faults_refuse (expected : String) : Faults (refuse expected : Reader α) := by
  refine Faults.after (fun i => ?_) get
  dsimp only
  split
  · exact Faults.after (fun _ => faults_throw _) _
  · exact Faults.after (fun _ => faults_throw _) _
  · exact Faults.after (fun _ => faults_throw _) _
  · exact Faults.after (fun _ => faults_throw _) _
  · exact faults_throw _
  · exact faults_throw _
  · split_ifs
    · exact Faults.after (fun _ => faults_throw _) _
    · exact faults_throw _
  · exact faults_throw _

def Number.toReal : Number → Float
  | .natural n => Float.ofNat n
  | .negative n => Float.ofInt n
  | .real f => f

theorem real_eq : real = Number.toReal <$> Reader.number "f64" := by
  rw [map_eq_pure_bind, real]
  congr
  funext n
  cases n <;> rfl

theorem exists_of_run_eq_ok {r : Reader α} {text : String} {a : α} (h : r.run text = .ok a) :
    ∃ j, r ⟨text.toList, text.toList.length⟩ = .ok a j ∧ j.rest.dropWhile isBlank = [] := by
  unfold run at h
  dsimp only at h
  cases hr : r ⟨text.toList, text.toList.length⟩ with
  | error f j =>
    rw [run_bind_of_error hr] at h
    cases h
  | ok b j =>
    have hpeek : peek j = .ok (j.rest.dropWhile isBlank).head? ⟨j.rest.dropWhile isBlank, j.budget⟩ := rfl
    rw [run_bind_of_ok hr, run_bind_of_ok hpeek] at h
    cases hleft : j.rest.dropWhile isBlank with
    | nil =>
      rw [hleft] at h
      cases h
      exact ⟨j, rfl, hleft⟩
    | cons c left =>
      rw [hleft] at h
      cases h

theorem number_of_read {expected : String} {text : List Char} {b : Nat} {n : Number} {j : Input}
    (hblank : ∀ c ∈ text, isBlank c = false) (h : Reader.number expected ⟨text, b⟩ = .ok n j) :
    number text = .ok (n, j.rest) := by
  cases text with
  | nil => cases h
  | cons c cs =>
    rw [Reader.number, run_bind_of_ok (peekOr_cons (hblank c mem_cons_self))] at h
    split_ifs at h
    · rw [scan, run_get_bind] at h
      cases hn : number (c :: cs) with
      | error f =>
        rw [hn] at h
        cases h
      | ok r =>
        rw [hn] at h
        cases h
        rfl
    · exact absurd h (faults_refuse _ _ _ _)

theorem reads_real_of_not_isFinite (hx : x.isFinite = false) :
    Reads real (.float x) (.error (.wrongType .null "f64")) := by
  intro level
  rw [Document.prettyAt, Document.leafText, text_of_not_isFinite hx]
  · exact takes_real_null
  · simp
  · simp

theorem reads_real_of_run (hx : x.isFinite = true) (h : real.run (interchange.text x) = .ok x) :
    Reads real (.float x) (.ok x) := by
  have hblank := isBlank_finiteText hx
  obtain ⟨j, hread, hj⟩ := exists_of_run_eq_ok h
  rw [real_eq] at hread
  cases hnumber : Reader.number "f64" ⟨(interchange.text x).toList, (interchange.text x).toList.length⟩ with
  | error f k =>
    rw [map_eq_pure_bind, run_bind_of_error hnumber] at hread
    cases hread
  | ok n k =>
    rw [map_eq_pure_bind, run_bind_of_ok hnumber] at hread
    cases hread
    have hn := number_of_read hblank hnumber
    -- what is left holds nothing but blanks, and it holds no blanks
    have hleft : j.rest = [] := by
      refine eq_nil_iff_forall_not_mem.2 fun c hc => ?_
      have hnot := hblank c ((number_suffix hn).subset hc)
      rw [dropWhile_eq_nil_iff.1 hj c hc] at hnot
      cases hnot
    rw [hleft] at hn
    intro level
    rw [Document.prettyAt, Document.leafText, real_eq]
    · exact (takes_number "f64" hn).map Number.toReal
    · simp
    · simp

end Clausal.Json
