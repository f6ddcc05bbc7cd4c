import FeatureAssembly.Json.Codec
import FeatureAssembly.Proofs.Json.Lexemes

/-!
# Spellings

A spelling of a document (`Json.Spells`) is a text of it in any layout: blanks stand anywhere
between its parts but before colons and commas, and strings and numbers are written as the printer
writes them. The compact and the indented form are spellings.

**The law** (`Json.exists_start`): a spelling of a document whose numbers are integers starts with a
character that is neither blank nor a separator, so where a value starts is never in doubt.

What it does not establish: that every text of a document is a spelling. A reader accepts other
escapes and other numbers, and blanks behind a value.
-/

set_option autoImplicit false

namespace FeatureAssembly.Json

/-! ## Integral documents and their nesting -/

mutual

/-- **All numbers are integers** of at most 64 bits. -/
def integral : Json → Bool
  | .number (.integer n) => decide (-(Nat.pow 2 63 : Int) ≤ n ∧ n < significandBound)
  | .number (.real _) => false
  | .array items => integralItems items
  | .object fields => integralFields fields
  | .null | .boolean _ | .string _ => true

def integralItems : List Json → Bool
  | [] => true
  | x :: rest => integral x && integralItems rest

def integralFields : List (String × Json) → Bool
  | [] => true
  | (_, x) :: rest => integral x && integralFields rest

end

mutual

/-- How many lists and objects a document nests. -/
def height : Json → Nat
  | .array items => heightItems items + 1
  | .object fields => heightFields fields + 1
  | .null | .boolean _ | .number _ | .string _ => 0

def heightItems : List Json → Nat
  | [] => 0
  | x :: rest => max (height x) (heightItems rest)

def heightFields : List (String × Json) → Nat
  | [] => 0
  | (_, x) :: rest => max (height x) (heightFields rest)

end

theorem integralItems_iff {items : List Json} :
    integralItems items = true ↔ ∀ x ∈ items, x.integral = true := by
  induction items with
  | nil => simp [integralItems]
  | cons x rest ih => simp [integralItems, ih]

theorem integralFields_iff {fields : List (String × Json)} :
    integralFields fields = true ↔ ∀ f ∈ fields, f.2.integral = true := by
  induction fields with
  | nil => simp [integralFields]
  | cons f rest ih => obtain ⟨name, x⟩ := f; simp [integralFields, ih]

theorem heightItems_le_iff {items : List Json} {n : Nat} :
    heightItems items ≤ n ↔ ∀ x ∈ items, x.height ≤ n := by
  induction items with
  | nil => simp [heightItems]
  | cons x rest ih => rw [heightItems, Nat.max_le, ih, List.forall_mem_cons]

theorem heightFields_le_iff {fields : List (String × Json)} {n : Nat} :
    heightFields fields ≤ n ↔ ∀ f ∈ fields, f.2.height ≤ n := by
  induction fields with
  | nil => simp [heightFields]
  | cons f rest ih => obtain ⟨name, x⟩ := f; rw [heightFields, Nat.max_le, ih, List.forall_mem_cons]

/-- Items nest one level less than their list. -/
theorem heights_of_array {items : List Json} {depth : Nat} (h : (array items).height ≤ depth) :
    ∃ d, depth = d + 1 ∧ ∀ x ∈ items, x.height ≤ d := by
  cases depth with
  | zero => exact absurd h (Nat.not_succ_le_zero _)
  | succ d => exact ⟨d, rfl, heightItems_le_iff.1 (Nat.le_of_succ_le_succ h)⟩

/-- Members nest one level less than their object. -/
theorem heights_of_object {fields : List (String × Json)} {depth : Nat} (h : (object fields).height ≤ depth) :
    ∃ d, depth = d + 1 ∧ ∀ f ∈ fields, f.2.height ≤ d := by
  cases depth with
  | zero => exact absurd h (Nat.not_succ_le_zero _)
  | succ d => exact ⟨d, rfl, heightFields_le_iff.1 (Nat.le_of_succ_le_succ h)⟩

/-! ## Spellings -/

/-- What stands before an item or a field, unless it is the first one. -/
def lead (first : Bool) : List Char := if first then [] else [',']

mutual

/-- **A text spells a document**, in some layout. -/
def Spells : Json → List Char → Prop
  | .null, cs => cs = "null".toList
  | .boolean b, cs => cs = booleanText b
  | .number n, cs => cs = numberText n
  | .string s, cs => cs = quoted s
  | .array items, cs => ∃ body, cs = '[' :: body ∧ SpellsItems true items body
  | .object fields, cs => ∃ body, cs = '\x7b' :: body ∧ SpellsFields true fields body

/-- The items of a list and its end, behind the bracket or behind an item. -/
def SpellsItems (first : Bool) : List Json → List Char → Prop
  | [], body => ∃ gap, Blank gap ∧ body = gap ++ [']']
  | x :: rest, body => ∃ gap cs more, Blank gap ∧ Spells x cs ∧ SpellsItems false rest more ∧
      body = lead first ++ (gap ++ (cs ++ more))

/-- The fields of an object and its end, behind the brace or behind a field. -/
def SpellsFields (first : Bool) : List (String × Json) → List Char → Prop
  | [], body => ∃ gap, Blank gap ∧ body = gap ++ ['\x7d']
  | (name, x) :: rest, body => ∃ gap gap' cs more, Blank gap ∧ Blank gap' ∧ Spells x cs ∧
      SpellsFields false rest more ∧
      body = lead first ++ (gap ++ (quoted name ++ ':' :: (gap' ++ (cs ++ more))))

end

theorem blank_nil : Blank [] := nofun

theorem blank_newLine (level : Nat) : Blank (newLine level) := by
  intro c hc
  rcases List.mem_cons.1 hc with rfl | hc
  · rfl
  · rw [List.eq_of_mem_replicate hc]
    rfl

mutual

/-- The compact form spells a document. -/
theorem spells_compact : ∀ j : Json, Spells j j.compactChars
  | .null | .boolean _ | .number _ | .string _ => rfl
  | .array [] => ⟨_, rfl, [], blank_nil, rfl⟩
  | .array (x :: rest) => ⟨_, rfl, [], _, _, blank_nil, spells_compact x, spells_compactItems rest, by
      simp [lead]⟩
  | .object [] => ⟨_, rfl, [], blank_nil, rfl⟩
  | .object ((name, x) :: rest) => ⟨_, rfl, [], [], _, _, blank_nil, blank_nil, spells_compact x,
      spells_compactFields rest, by simp [lead]⟩

theorem spells_compactItems : ∀ items : List Json, SpellsItems false items (compactItems items ++ [']'])
  | [] => ⟨[], blank_nil, rfl⟩
  | x :: rest => ⟨[], _, _, blank_nil, spells_compact x, spells_compactItems rest, by
      simp [compactItems, lead]⟩

theorem spells_compactFields :
    ∀ fields : List (String × Json), SpellsFields false fields (compactFields fields ++ ['\x7d'])
  | [] => ⟨[], blank_nil, rfl⟩
  | (name, x) :: rest => ⟨[], [], _, _, blank_nil, blank_nil, spells_compact x,
      spells_compactFields rest, by simp [compactFields, lead]⟩

end

mutual

/-- The indented form spells a document. -/
theorem spells_indented : ∀ (level : Nat) (j : Json), Spells j (j.indentedChars level)
  | _, .null | _, .boolean _ | _, .number _ | _, .string _ => rfl
  | _, .array [] => ⟨_, rfl, [], blank_nil, rfl⟩
  | level, .array (x :: rest) => ⟨_, rfl, newLine (level + 1), _, _, blank_newLine _,
      spells_indented (level + 1) x, spells_indentedItems (level + 1) level rest, by
      simp [lead]⟩
  | _, .object [] => ⟨_, rfl, [], blank_nil, rfl⟩
  | level, .object ((name, x) :: rest) => ⟨_, rfl, newLine (level + 1), [' '], _, _, blank_newLine _,
      by simp [Blank, isBlank], spells_indented (level + 1) x, spells_indentedFields (level + 1) level rest, by
      simp [lead]⟩

theorem spells_indentedItems : ∀ (level outer : Nat) (items : List Json),
    SpellsItems false items (indentedItems level items ++ (newLine outer ++ [']']))
  | _, outer, [] => ⟨newLine outer, blank_newLine outer, rfl⟩
  | level, outer, x :: rest => ⟨newLine level, _, _, blank_newLine _, spells_indented level x,
      spells_indentedItems level outer rest, by simp [indentedItems, lead]⟩

theorem spells_indentedFields : ∀ (level outer : Nat) (fields : List (String × Json)),
    SpellsFields false fields (indentedFields level fields ++ (newLine outer ++ ['\x7d']))
  | _, outer, [] => ⟨newLine outer, blank_newLine outer, rfl⟩
  | level, outer, (name, x) :: rest => ⟨newLine level, [' '], _, _, blank_newLine _,
      by simp [Blank, isBlank], spells_indented level x, spells_indentedFields level outer rest, by
      simp [indentedFields, lead]⟩

end

/-! ## Where a value starts -/

/-- The text of an integer of at most 64 bits: its sign and its digits. -/
theorem numberText_integral {n : Number} (h : integral (.number n) = true) :
    ∃ m < significandBound, (numberText n = Nat.toDigits 10 m ∧ integerNumber false m = n) ∨
      (numberText n = '-' :: Nat.toDigits 10 m ∧ integerNumber true m = n) := by
  cases n with
  | real x => cases h
  | integer n =>
    obtain ⟨low, high⟩ := of_decide_eq_true h
    have half : Nat.pow 2 63 < significandBound := by decide
    rcases Int.le_total 0 n with positive | negative
    · obtain ⟨m, rfl⟩ := Int.eq_ofNat_of_zero_le positive
      exact ⟨m, by omega, .inl ⟨numberText_ofNat m, rfl⟩⟩
    · obtain ⟨m, rfl⟩ := Int.exists_eq_neg_ofNat negative
      rcases Nat.eq_zero_or_pos m with rfl | positive
      · exact ⟨0, by decide, .inl ⟨numberText_ofNat 0, rfl⟩⟩
      · refine ⟨m, by omega, .inr ⟨numberText_neg positive, ?_⟩⟩
        have fits : ¬ (m = 0 ∨ Nat.pow 2 63 < m) := by omega
        simp [integerNumber, fits]

/-- The digits of a number start with a digit. -/
theorem exists_digit (n : Nat) : ∃ c rest, Nat.toDigits 10 n = c :: rest ∧ c.isDigit = true := by
  cases h : Nat.toDigits 10 n with
  | nil => exact absurd h Nat.toDigits_ne_nil
  | cons c rest =>
    exact ⟨c, rest, rfl, Nat.isDigit_of_mem_toDigits (by decide) (by decide)
      (h ▸ List.mem_cons_self)⟩

/-- **What a value starts with**: a blank or the end of a list never, the letter of null only if it is
null. -/
structure Starts (j : Json) (c : Char) : Prop where
  visible : isBlank c = false
  not_listEnd : c ≠ ']'
  null_of_n : c = 'n' → j = .null

theorem ne_of_isDigit {c d : Char} (hc : c.isDigit = true) (hd : d.isDigit = false) : c ≠ d := by
  rintro rfl
  rw [hc] at hd
  cases hd

theorem isBlank_of_isDigit {c : Char} (h : c.isDigit = true) : isBlank c = false := by
  simp only [isBlank, Bool.or_eq_false_iff, beq_eq_false_iff_ne]
  exact ⟨⟨⟨ne_of_isDigit h rfl, ne_of_isDigit h rfl⟩, ne_of_isDigit h rfl⟩, ne_of_isDigit h rfl⟩

theorem starts_of_isDigit {j : Json} {c : Char} (h : c.isDigit = true) : Starts j c :=
  ⟨isBlank_of_isDigit h, ne_of_isDigit h rfl, fun hn => absurd hn (ne_of_isDigit h rfl)⟩

/-- The other characters that values start with. -/
theorem starts_of_mem {j : Json} {c : Char} (h : c ∈ ['t', 'f', '-', '"', '[', '\x7b']) : Starts j c := by
  simp only [List.mem_cons, List.not_mem_nil, or_false] at h
  rcases h with rfl | rfl | rfl | rfl | rfl | rfl
  all_goals exact ⟨rfl, by decide, fun hn => absurd hn (by decide)⟩

/-- **A spelling has a first character, and it starts a value.** -/
theorem exists_start {j : Json} {cs : List Char} (h : Spells j cs) (hi : j.integral = true) :
    ∃ c rest, cs = c :: rest ∧ Starts j c := by
  cases j with
  | null => exact ⟨'n', _, h, rfl, by decide, fun _ => rfl⟩
  | boolean b =>
    cases b
    · exact ⟨_, _, h, starts_of_mem (by decide)⟩
    · exact ⟨_, _, h, starts_of_mem (by decide)⟩
  | number n =>
    obtain ⟨m, -, ⟨text, -⟩ | ⟨text, -⟩⟩ := numberText_integral hi
    · obtain ⟨c, rest, digits, digit⟩ := exists_digit m
      exact ⟨c, rest, h.trans (text.trans digits), starts_of_isDigit digit⟩
    · exact ⟨_, _, h.trans text, starts_of_mem (by decide)⟩
  | string s => exact ⟨_, _, h, starts_of_mem (by decide)⟩
  | array items =>
    obtain ⟨body, rfl, -⟩ := h
    exact ⟨_, _, rfl, starts_of_mem (by decide)⟩
  | object fields =>
    obtain ⟨body, rfl, -⟩ := h
    exact ⟨_, _, rfl, starts_of_mem (by decide)⟩

end FeatureAssembly.Json
