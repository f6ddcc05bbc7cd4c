import FeatureAssembly.Text.Segments
import Mathlib.Algebra.Group.Nat.Defs
import Mathlib.Data.List.Basic

/-!
# Texts in byte order

The order of texts, which is that of their characters, seen from outside, where a text is its bytes.

**The law** (`Text.lt_iff_bytes_lt`): a text comes before another exactly if its bytes do, compared from
the first on. So whatever is listed by ascending text (the entries of directories, the tables that are
written to documents, the buckets of classifiers) is listed in byte order.

A character is a leading byte with some digits to the base 64 behind it (`Text.marked`). Longer
characters have greater leading bytes, and of two with as many digits the digits decide.
-/

set_option autoImplicit false

namespace FeatureAssembly.Text

/-- The bytes of a text. -/
def bytes (s : String) : List UInt8 := s.toUTF8.data.toList

theorem bytes_eq (s : String) : bytes s = s.toList.flatMap String.utf8EncodeChar := by
  have split : s.toUTF8 = s.toList.utf8Encode := by
    rw [String.toUTF8_eq_toByteArray, ← String.toByteArray_ofList, String.ofList_toList]
  rw [bytes, split, List.utf8Encode, List.data_toByteArray]

/-! ## One character -/

/-- A number as its last digits to the base 64, each with a mark of its own, and what is left before
them, with a mark that tells how many digits there are. -/
def marked (mark : Nat) : Nat → Nat → List UInt8
  | 0, v => [UInt8.ofNat (v + mark)]
  | digits + 1, v => marked mark digits (v / 64) ++ [UInt8.ofNat (v % 64 + 0x80)]

theorem ofNat_cons_lt_iff {a b : Nat} (ha : a < 256) (hb : b < 256) {l l' : List UInt8} :
    UInt8.ofNat a :: l < UInt8.ofNat b :: l' ↔ a < b ∨ a = b ∧ l < l' := by
  rw [List.cons_lt_cons_iff, UInt8.lt_iff_toNat_lt, ← UInt8.toNat_inj, UInt8.toNat_ofNat', UInt8.toNat_ofNat',
    Nat.mod_eq_of_lt ha, Nat.mod_eq_of_lt hb]

/-- The first byte has what is before the digits. -/
theorem exists_marked (mark digits v : Nat) :
    ∃ rest, marked mark digits v = UInt8.ofNat (v / 64 ^ digits + mark) :: rest := by
  induction digits generalizing v with
  | zero => exact ⟨[], by rw [marked, Nat.pow_zero, Nat.div_one]⟩
  | succ digits ih =>
    obtain ⟨rest, first⟩ := ih (v / 64)
    refine ⟨rest ++ [UInt8.ofNat (v % 64 + 0x80)], ?_⟩
    rw [marked, first, Nat.div_div_eq_div_mul, Nat.pow_succ']
    rfl

/-- Numbers with as many digits are ordered as their bytes are. -/
theorem marked_lt {mark digits v w : Nat} (h : v < w) (room : w / 64 ^ digits + mark < 256) (l l' : List UInt8) :
    marked mark digits v ++ l < marked mark digits w ++ l' := by
  induction digits generalizing v w l l' with
  | zero =>
    rw [Nat.pow_zero, Nat.div_one] at room
    exact (ofNat_cons_lt_iff (by omega) room).2 (.inl (by omega))
  | succ digits ih =>
    rw [Nat.pow_succ', ← Nat.div_div_eq_div_mul] at room
    simp only [marked, List.append_assoc, List.cons_append, List.nil_append]
    by_cases before : v / 64 < w / 64
    · exact ih before room _ _
    · have same : v / 64 = w / 64 := by omega
      rw [same]
      exact List.append_left_lt ((ofNat_cons_lt_iff (by omega) (by omega)).2 (.inl (by omega)))

/-- **The bytes of a character**, which has up to three digits. -/
theorem utf8EncodeChar_eq_marked (c : Char) :
    c.toNat < 0x80 ∧ String.utf8EncodeChar c = marked 0 0 c.toNat ∨
    0x80 ≤ c.toNat ∧ c.toNat < 0x800 ∧ String.utf8EncodeChar c = marked 0xc0 1 c.toNat ∨
    0x800 ≤ c.toNat ∧ c.toNat < 0x10000 ∧ String.utf8EncodeChar c = marked 0xe0 2 c.toNat ∨
    0x10000 ≤ c.toNat ∧ c.toNat < 0x110000 ∧ String.utf8EncodeChar c = marked 0xf0 3 c.toNat := by
  have bound : c.toNat < 0x110000 := by
    have valid := c.valid
    unfold UInt32.isValidChar Nat.isValidChar at valid
    show c.val.toNat < _
    omega
  have value : c.val.toNat = c.toNat := rfl
  unfold String.utf8EncodeChar
  rw [value]
  generalize c.toNat = v at bound
  simp only [marked, Nat.div_div_eq_div_mul, Nat.reduceMul, List.nil_append, List.cons_append, Nat.add_zero]
  split_ifs with one two three
  · exact .inl ⟨by omega, rfl⟩
  · exact .inr (.inl ⟨by omega, by omega, by rw [Nat.mod_eq_of_lt (by omega)]⟩)
  · exact .inr (.inr (.inl ⟨by omega, by omega, by rw [Nat.mod_eq_of_lt (a := v / 4096) (by omega)]⟩))
  · exact .inr (.inr (.inr ⟨by omega, bound, by rw [Nat.mod_eq_of_lt (a := v / 262144) (by omega)]⟩))

/-- Characters are ordered as their bytes are, whatever comes behind them. -/
theorem utf8EncodeChar_lt {c d : Char} (h : c < d) (l l' : List UInt8) :
    String.utf8EncodeChar c ++ l < String.utf8EncodeChar d ++ l' := by
  have less : c.toNat < d.toNat := h
  -- with fewer digits the first byte is less
  have apart : ∀ {mark mark' digits digits' : Nat},
      c.toNat / 64 ^ digits + mark < d.toNat / 64 ^ digits' + mark' → d.toNat / 64 ^ digits' + mark' < 256 →
      marked mark digits c.toNat ++ l < marked mark' digits' d.toNat ++ l' := by
    intro mark mark' digits digits' first room
    obtain ⟨rest, hc⟩ := exists_marked mark digits c.toNat
    obtain ⟨rest', hd⟩ := exists_marked mark' digits' d.toNat
    rw [hc, hd]
    exact (ofNat_cons_lt_iff (by omega) room).2 (.inl first)
  rcases utf8EncodeChar_eq_marked c with ⟨hc, ec⟩ | ⟨hc, hc', ec⟩ | ⟨hc, hc', ec⟩ | ⟨hc, hc', ec⟩ <;>
  rcases utf8EncodeChar_eq_marked d with ⟨hd, ed⟩ | ⟨hd, hd', ed⟩ | ⟨hd, hd', ed⟩ | ⟨hd, hd', ed⟩ <;>
  rw [ec, ed] <;>
  first
  | exact marked_lt less (by omega) l l'
  | exact apart (by omega) (by omega)

/-! ## Texts -/

theorem bytes_lt_of_lt {s t : String} (h : s < t) : bytes s < bytes t := by
  have lists : ∀ {l l' : List Char}, List.Lex (· < ·) l l' →
      l.flatMap String.utf8EncodeChar < l'.flatMap String.utf8EncodeChar := by
    intro l l' h
    induction h with
    | @nil c rest =>
      obtain ⟨b, bs, some_byte⟩ := List.exists_cons_of_ne_nil (String.utf8EncodeChar_ne_nil (c := c))
      rw [List.flatMap_cons, some_byte]
      exact List.nil_lt_cons _ _
    | cons _ ih => exact List.append_left_lt ih
    | rel first => exact utf8EncodeChar_lt first _ _
  rw [bytes_eq, bytes_eq]
  exact lists h

/-- **A text comes before another** exactly if its bytes do. -/
theorem lt_iff_bytes_lt {s t : String} : s < t ↔ bytes s < bytes t := by
  refine ⟨bytes_lt_of_lt, fun h => ?_⟩
  by_contra not_before
  by_cases behind : t < s
  · exact List.lt_asymm h (bytes_lt_of_lt behind)
  · have same : s = t := String.le_antisymm (String.not_lt.1 behind) (String.not_lt.1 not_before)
    exact List.lt_irrefl _ (same ▸ h)

end FeatureAssembly.Text
