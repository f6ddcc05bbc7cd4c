import FeatureAssembly.Json.Scan
import FeatureAssembly.Json.Printer

/-!
# Strings and numbers read back

What the scanner makes of the strings and integers that the printer writes, with anything behind
them that can follow a value.

**The laws**: a string is read back whatever characters it has (`Json.scanString_escapedAll`), and an
integer of at most 64 bits is read back as that integer (`Json.scanNumber_digits`).

What it does not establish: anything of numbers with fractions or exponents.
-/

set_option autoImplicit false

namespace FeatureAssembly.Json

/-! ## Blanks and ends -/

/-- Blanks and nothing else. -/
def Blank (gap : List Char) : Prop := ∀ c ∈ gap, isBlank c = true

/-- **What can follow a value**: nothing, a blank, a comma, or the end of a list or object. -/
def Ends (tail : List Char) : Prop :=
  ∀ c ∈ tail.head?, isBlank c = true ∨ c = ',' ∨ c = ']' ∨ c = '\x7d'

theorem skipBlanks_append {gap : List Char} (h : Blank gap) (cs : List Char) :
    skipBlanks (gap ++ cs) = skipBlanks cs :=
  List.dropWhile_append_of_pos h

theorem skipBlanks_cons {c : Char} (h : isBlank c = false) (cs : List Char) :
    skipBlanks (c :: cs) = c :: cs := by
  simp [skipBlanks, h]

theorem ends_nil : Ends [] := nofun

/-- What follows a value is no part of a number. -/
theorem Ends.not_number {c : Char} {tail : List Char} (h : Ends (c :: tail)) :
    c.isDigit = false ∧ c ≠ '.' ∧ c ≠ 'e' ∧ c ≠ 'E' := by
  have hc := h c rfl
  simp only [isBlank, Bool.or_eq_true, beq_iff_eq] at hc
  rcases hc with ((((rfl | rfl) | rfl) | rfl) | rfl | rfl | rfl) <;> decide

/-! ## Strings -/

/-- The values of the digits under which control characters are written. -/
theorem hexValues?_hexDigits : ∀ n < 0x20, ∃ a b c d, Digest.hexDigits 4 n = [a, b, c, d] ∧
    hexValues? a b c d = some n := by
  intro n hn
  refine ⟨_, _, _, _, rfl, ?_⟩
  revert n
  decide

/-- The letters that characters are escaped with. -/
theorem unescape?_of_escapeLetter? {c letter : Char} (h : escapeLetter? c = some letter) :
    unescape? letter = some c ∧ letter ≠ 'u' := by
  unfold escapeLetter? at h
  repeat' split at h
  all_goals cases h
  all_goals subst_vars; decide

theorem scanString_letter {letter c : Char} (h : unescape? letter = some c) (hu : letter ≠ 'u')
    (rest : List Char) : scanString ('\\' :: letter :: rest) = before c (scanString rest) := by
  rw [scanString.eq_def]
  split <;> grind

theorem scanString_plain {c : Char} (hq : c ≠ '"') (hb : c ≠ '\\') (hc : ¬ c.toNat < 0x20)
    (rest : List Char) : scanString (c :: rest) = before c (scanString rest) := by
  rw [scanString.eq_def]
  split <;> grind

theorem scanString_control {c : Char} (hc : c.toNat < 0x20) (rest : List Char) :
    scanString ('\\' :: 'u' :: Digest.hexDigits 4 c.toNat ++ rest) = before c (scanString rest) := by
  obtain ⟨x, y, z, w, digits, value⟩ := hexValues?_hexDigits c.toNat hc
  have trailing : isTrailing c.toNat = false := by unfold isTrailing; grind
  have leading : isLeading c.toNat = false := by unfold isLeading; grind
  rw [digits]
  show scanString ('\\' :: 'u' :: x :: y :: z :: w :: rest) = _
  rw [scanString, value]
  simp only [trailing, leading, Bool.false_eq_true, if_false, Char.ofNat_toNat]

/-- **A character is read back.** -/
theorem scanString_escaped (c : Char) (rest : List Char) :
    scanString (escaped c ++ rest) = before c (scanString rest) := by
  unfold escaped
  cases hl : escapeLetter? c with
  | some letter =>
    obtain ⟨back, plain⟩ := unescape?_of_escapeLetter? hl
    exact scanString_letter back plain rest
  | none =>
    by_cases hc : c.toNat < 0x20
    · rw [if_pos hc]
      exact scanString_control hc rest
    · rw [if_neg hc]
      refine scanString_plain ?_ ?_ hc rest
      · rintro rfl
        cases hl
      · rintro rfl
        cases hl

/-- **A string is read back.** -/
theorem scanString_escapedAll (s rest : List Char) :
    scanString (escapedAll s ++ '"' :: rest) = .ok (s, rest) := by
  induction s with
  | nil => rfl
  | cons c s ih =>
    rw [escapedAll, List.append_assoc, scanString_escaped, ih]
    rfl

/-! ## Integers -/

/-- The value of digits behind a significand. -/
theorem gather_eq {digits : List Char} {significand : Nat}
    (h : digits.foldl (fun n d => n * 10 + digitValue d) significand < significandBound) :
    gather significand digits =
      (digits.foldl (fun n d => n * 10 + digitValue d) significand, []) := by
  have grows : ∀ (digits : List Char) (n : Nat), n ≤ digits.foldl (fun n d => n * 10 + digitValue d) n := by
    intro digits
    induction digits with
    | nil => exact fun n => Nat.le_refl n
    | cons d digits ih => exact fun n => Nat.le_trans (by omega) (ih (n * 10 + digitValue d))
  induction digits generalizing significand with
  | nil => rfl
  | cons d digits ih =>
    rw [List.foldl_cons] at h
    rw [gather, if_pos (Nat.lt_of_le_of_lt (grows digits _) h), ih h, List.foldl_cons]

theorem foldl_toDigits (n : Nat) :
    (Nat.toDigits 10 n).foldl (fun n d => n * 10 + digitValue d) 0 = n := by
  have step : (fun n d => n * 10 + digitValue d) = fun n d => 10 * n + (d.toNat - '0'.toNat) := by
    funext n d
    rw [Nat.mul_comm]
    rfl
  rw [step, ← Nat.ofDigitChars_eq_foldl]
  exact Nat.ofDigitChars_ten_toDigits

/-- Digits of a positive number do not start with zero. -/
theorem head_toDigits {n : Nat} (h : 0 < n) : (Nat.toDigits 10 n).head? ≠ some '0' := by
  induction n using Nat.strongRecOn with
  | _ n ih =>
    rw [Nat.toDigits_eq_if (by decide)]
    split
    · next small => simp; omega
    · have shorter := ih (n / 10) (by omega) (by omega)
      cases hd : Nat.toDigits 10 (n / 10) with
      | nil => exact absurd hd Nat.toDigits_ne_nil
      | cons d digits =>
        rw [hd] at shorter
        exact shorter

theorem scanIntegerEnd_of_ends (negative : Bool) (n : Nat) {tail : List Char} (h : Ends tail) :
    scanIntegerEnd negative n 0 tail = .ok (integerNumber negative n, tail) := by
  unfold scanIntegerEnd
  split
  · exact absurd rfl h.not_number.2.1
  · exact absurd rfl h.not_number.2.2.1
  · exact absurd rfl h.not_number.2.2.2
  · rfl

/-- **An integer is read back.** -/
theorem scanNumber_digits (negative : Bool) {n : Nat} (hn : n < significandBound) {tail : List Char}
    (h : Ends tail) :
    scanNumber negative (Nat.toDigits 10 n ++ tail) = .ok (integerNumber negative n, tail) := by
  have digits : ∀ c ∈ Nat.toDigits 10 n, c.isDigit = true := fun c hc =>
    Nat.isDigit_of_mem_toDigits (by decide) (by decide) hc
  have stops : tail.takeWhile Char.isDigit = [] ∧ tail.dropWhile Char.isDigit = tail ∧
      (tail.head?.map Char.isDigit).getD false = false := by
    cases tail with
    | nil => exact ⟨rfl, rfl, rfl⟩
    | cons c rest => simp [h.not_number.1]
  have taken : (Nat.toDigits 10 n ++ tail).takeWhile Char.isDigit = Nat.toDigits 10 n := by
    rw [List.takeWhile_append_of_pos digits, stops.1, List.append_nil]
  have left : (Nat.toDigits 10 n ++ tail).dropWhile Char.isDigit = tail := by
    rw [List.dropWhile_append_of_pos digits, stops.2.1]
  rcases Nat.eq_zero_or_pos n with rfl | positive
  · rw [Nat.toDigits_zero]
    show scanNumber negative ('0' :: tail) = _
    rw [scanNumber, if_pos rfl, stops.2.2]
    exact scanIntegerEnd_of_ends negative 0 h
  · cases hd : Nat.toDigits 10 n with
    | nil => exact absurd hd Nat.toDigits_ne_nil
    | cons d rest =>
      have nonzero : d ≠ '0' := by
        rintro rfl
        exact head_toDigits positive (by rw [hd]; rfl)
      rw [hd] at taken left
      have bounded : rest.foldl (fun n d => n * 10 + digitValue d) (0 * 10 + digitValue d) = n := by
        rw [← List.foldl_cons (f := fun n d => n * 10 + digitValue d), ← hd]
        exact foldl_toDigits n
      rw [List.cons_append] at taken left ⊢
      rw [scanNumber, if_neg nonzero, if_pos (digits d (by rw [hd]; exact List.mem_cons_self)), taken, left,
        gather_eq (by rw [List.foldl_cons, bounded]; exact hn), List.foldl_cons, bounded]
      exact scanIntegerEnd_of_ends negative n h

/-! ## The texts of integers -/

theorem numberText_ofNat (n : Nat) : numberText (.integer n) = Nat.toDigits 10 n := by
  show (toString (n : Int)).toList = _
  rw [Int.toString_eq_repr, Int.repr_eq_if, if_pos (Int.natCast_nonneg n), Int.toNat_natCast,
    Nat.toList_repr]

theorem numberText_neg {n : Nat} (h : 0 < n) : numberText (.integer (-n)) = '-' :: Nat.toDigits 10 n := by
  show (toString (-n : Int)).toList = _
  rw [Int.toString_eq_repr, Int.repr_eq_if, if_neg (by omega), Int.neg_neg, Int.toNat_natCast,
    String.toList_append, Nat.toList_repr]
  rfl

end FeatureAssembly.Json
