import FeatureAssembly.Proofs.Json.Spelling

/-!
# Reading spellings

What the readers of lists, objects and whole documents make of a spelling.

**The law** (`Json.readAny_spells`): whatever follows that can follow a value, the reader of
documents reads from a spelling the document that is spelled, as long as its numbers are integers
and it nests no deeper than the reader goes. And what it reads nests no deeper than that
(`Json.height_le_of_readAny`).

The loops over items and fields are taken with any reader of single items and fields, so that what
is shown of them serves all codecs: they read spellings (`Json.readItems_spells`,
`Json.readFields_spells`), and what they answer comes from what they read
(`Json.mem_of_readItems`, `Json.readFields_keeps`).

What it does not establish: how numbers with fractions are read back.
-/

set_option autoImplicit false

namespace FeatureAssembly.Json

/-! ## Steps that succeed -/

section Except

variable {ε α β : Type} {x : Except ε α}

theorem ok_of_bind {f : α → Except ε β} {b : β} (h : x >>= f = .ok b) :
    ∃ a, x = .ok a ∧ f a = .ok b := by
  cases x with
  | error e => cases h
  | ok a => exact ⟨a, rfl, h⟩

theorem ok_of_map {f : α → β} {b : β} (h : x.map f = .ok b) : ∃ a, x = .ok a ∧ f a = b := by
  cases x with
  | error e => cases h
  | ok a => exact ⟨a, rfl, Except.ok.inj h⟩

theorem ok_of_toOption {a : α} (h : x.toOption = some a) : x = .ok a := by
  cases x with
  | error e => cases h
  | ok b => exact congrArg Except.ok (Option.some.inj h)

/-- What holds before a fold and is kept by its steps holds after it. -/
theorem foldlM_keeps {step : β → α → Except ε β} {P : β → Prop} {l : List α}
    (keep : ∀ a ∈ l, ∀ s s', P s → step s a = .ok s' → P s') {s s' : β}
    (h : l.foldlM step s = .ok s') (hs : P s) : P s' := by
  induction l generalizing s with
  | nil =>
    cases h
    exact hs
  | cons a l ih =>
    rw [List.foldlM_cons] at h
    obtain ⟨t, ht, h⟩ := ok_of_bind h
    exact ih (fun b hb => keep b (List.mem_cons_of_mem _ hb)) h (keep a List.mem_cons_self _ _ hs ht)

end Except

/-! ## Separators -/

variable {gap : List Char}

theorem nextItem_spells {j : Json} {cs : List Char} (first : Bool) (hg : Blank gap) (h : Spells j cs)
    (hi : j.integral = true) (tail : List Char) :
    nextItem first (lead first ++ (gap ++ (cs ++ tail))) = .ok (some (cs ++ tail)) := by
  obtain ⟨c, rest, rfl, start⟩ := exists_start h hi
  have skipped : skipBlanks (gap ++ (c :: rest ++ tail)) = c :: (rest ++ tail) := by
    rw [skipBlanks_append hg]
    exact skipBlanks_cons start.visible _
  cases first with
  | true =>
    simp only [lead, if_true, List.nil_append]
    rw [nextItem, skipped]
    split
    · next h => cases h
    · next h => exact absurd (List.cons.inj h).1 start.not_listEnd
    · next h =>
      obtain ⟨rfl, rfl⟩ := List.cons.inj h
      rfl
  | false =>
    simp only [lead, Bool.false_eq_true, if_false, List.singleton_append]
    rw [nextItem, skipBlanks_cons rfl]
    split
    · next h => cases h
    · next h => cases h
    · next h =>
      obtain ⟨rfl, rfl⟩ := List.cons.inj h
      rw [if_neg Bool.false_ne_true, if_pos rfl, skipped]
      split
      · next h => cases h
      · next h => exact absurd (List.cons.inj h).1 start.not_listEnd
      · rfl

theorem nextItem_end (first : Bool) (hg : Blank gap) (tail : List Char) :
    nextItem first (gap ++ ']' :: tail) = .ok none := by
  rw [nextItem, skipBlanks_append hg, skipBlanks_cons rfl]
  rfl

theorem closeList_end (hg : Blank gap) (tail : List Char) : closeList (gap ++ ']' :: tail) = .ok tail := by
  rw [closeList, skipBlanks_append hg, skipBlanks_cons rfl]
  rfl

theorem skipBlanks_quoted (hg : Blank gap) (s : String) (tail : List Char) :
    skipBlanks (gap ++ (quoted s ++ tail)) = '"' :: (escapedAll s.toList ++ '"' :: tail) := by
  rw [skipBlanks_append hg, quoted, List.append_assoc]
  exact skipBlanks_cons rfl _

theorem nextName_quoted (first : Bool) (hg : Blank gap) (name : String) (tail : List Char) :
    nextName first (lead first ++ (gap ++ (quoted name ++ tail))) = .ok (some (name, tail)) := by
  have scanned : scanName (escapedAll name.toList ++ '"' :: tail) = .ok (some (name, tail)) := by
    rw [scanName, scanString_escapedAll]
    simp only [String.ofList_toList]
  cases first with
  | true =>
    simp only [lead, if_true, List.nil_append]
    rw [nextName, skipBlanks_quoted hg]
    exact scanned
  | false =>
    simp only [lead, Bool.false_eq_true, if_false, List.singleton_append]
    rw [nextName, skipBlanks_cons rfl]
    split
    · next h => cases h
    · next h => cases h
    · next h =>
      obtain ⟨rfl, rfl⟩ := List.cons.inj h
      rw [if_neg Bool.false_ne_true, if_pos rfl, skipBlanks_quoted hg]
      exact scanned

theorem nextName_end (first : Bool) (hg : Blank gap) (tail : List Char) :
    nextName first (gap ++ '\x7d' :: tail) = .ok none := by
  rw [nextName, skipBlanks_append hg, skipBlanks_cons rfl]
  rfl

theorem closeObject_end (hg : Blank gap) (tail : List Char) :
    closeObject (gap ++ '\x7d' :: tail) = .ok tail := by
  rw [closeObject, skipBlanks_append hg, skipBlanks_cons rfl]
  rfl

theorem skipColon_colon (tail : List Char) : skipColon (':' :: tail) = .ok tail := by
  rw [skipColon, skipBlanks_cons rfl]
  rfl

/-! ## What follows an item or a field -/

theorem ends_cons {c : Char} (h : c = ',' ∨ c = ']' ∨ c = '\x7d') (tail : List Char) : Ends (c :: tail) := by
  rintro d hd
  cases hd
  exact .inr h

theorem ends_blank {end_ : Char} (h : end_ = ',' ∨ end_ = ']' ∨ end_ = '\x7d') (hg : Blank gap)
    (tail : List Char) : Ends (gap ++ end_ :: tail) := by
  cases gap with
  | nil => exact ends_cons h tail
  | cons c gap =>
    rintro d hd
    cases hd
    exact .inl (hg c List.mem_cons_self)

theorem SpellsItems.ends {items : List Json} {body : List Char} (h : SpellsItems false items body)
    (tail : List Char) : Ends (body ++ tail) := by
  cases items with
  | nil =>
    obtain ⟨gap, hg, rfl⟩ := h
    rw [List.append_assoc]
    exact ends_blank (.inr (.inl rfl)) hg tail
  | cons x rest =>
    obtain ⟨gap, cs, more, -, -, -, rfl⟩ := h
    exact ends_cons (.inl rfl) _

theorem SpellsFields.ends {fields : List (String × Json)} {body : List Char}
    (h : SpellsFields false fields body) (tail : List Char) : Ends (body ++ tail) := by
  cases fields with
  | nil =>
    obtain ⟨gap, hg, rfl⟩ := h
    rw [List.append_assoc]
    exact ends_blank (.inr (.inr rfl)) hg tail
  | cons f rest =>
    obtain ⟨gap, gap', cs, more, -, -, -, -, rfl⟩ := h
    exact ends_cons (.inl rfl) _

/-! ## Loops -/

/-- **Items are read back**, if each of them is. -/
theorem readItems_spells {α : Type} {item : List Char → Except Fault (α × List Char)} {f : α → Json}
    {xs : List α} (integral : ∀ x ∈ xs, (f x).integral = true)
    (reads : ∀ x ∈ xs, ∀ cs tail, Spells (f x) cs → Ends tail → item (cs ++ tail) = .ok (x, tail))
    {first : Bool} {body : List Char} (h : SpellsItems first (xs.map f) body) {bound : Nat}
    (hb : body.length ≤ bound) (tail : List Char) :
    readItems item bound first (body ++ tail) = .ok (xs, tail) := by
  induction xs generalizing first body bound with
  | nil =>
    obtain ⟨gap, hg, rfl⟩ := h
    obtain ⟨bound, rfl⟩ : ∃ n, bound = n + 1 := ⟨bound - 1, by simp at hb; omega⟩
    rw [readItems, List.append_assoc, List.cons_append, List.nil_append, nextItem_end first hg]
    simp only [closeList_end hg, bind, Except.bind, pure, Except.pure]
  | cons x xs ih =>
    obtain ⟨gap, cs, more, hg, hx, hxs, rfl⟩ := h
    have start : 0 < cs.length := by
      obtain ⟨c, rest, rfl, -⟩ := exists_start hx (integral x List.mem_cons_self)
      exact Nat.succ_pos _
    obtain ⟨bound, rfl⟩ : ∃ n, bound = n + 1 := ⟨bound - 1, by simp at hb; omega⟩
    have later : readItems item bound false (more ++ tail) = .ok (xs, tail) :=
      ih (fun y hy => integral y (List.mem_cons_of_mem _ hy))
        (fun y hy => reads y (List.mem_cons_of_mem _ hy)) hxs (by simp at hb; omega)
    rw [readItems]
    simp only [List.append_assoc]
    rw [nextItem_spells first hg hx (integral x List.mem_cons_self)]
    simp only [bind, Except.bind, reads x List.mem_cons_self cs _ hx (hxs.ends tail), later, pure,
      Except.pure]

/-- **Fields are read back**, if each of them is read to what it is taken to: then the whole object
is read to what it is taken to, up to its end. -/
theorem readFields_spells {σ : Type} (field : σ → String → List Char → Except Fault (σ × List Char))
    {take : σ → String × Json → Except Fault σ} {fields : List (String × Json)}
    (agree : ∀ f ∈ fields, ∀ s s' gap cs tail, take s f = .ok s' → Blank gap → Spells f.2 cs →
      Ends tail → field s f.1 (':' :: (gap ++ (cs ++ tail))) = .ok (s', tail))
    {first : Bool} {body : List Char} (h : SpellsFields first fields body) (bound : Nat)
    (hb : body.length ≤ bound) {s s' : σ} (taken : fields.foldlM take s = .ok s') (tail : List Char) :
    ∃ rest, readFields field bound first s (body ++ tail) = .ok (s', rest) ∧
      closeObject rest = .ok tail := by
  induction fields generalizing first body bound s with
  | nil =>
    obtain ⟨gap, hg, rfl⟩ := h
    obtain ⟨bound, rfl⟩ : ∃ n, bound = n + 1 := ⟨bound - 1, by simp at hb; omega⟩
    cases taken
    refine ⟨gap ++ '\x7d' :: tail, ?_, closeObject_end hg tail⟩
    rw [readFields, List.append_assoc, List.cons_append, List.nil_append, nextName_end first hg]
    rfl
  | cons f fields ih =>
    obtain ⟨gap, gap', cs, more, hg, hg', hx, hmore, rfl⟩ := h
    obtain ⟨bound, rfl⟩ : ∃ n, bound = n + 1 := ⟨bound - 1, by simp [quoted] at hb; omega⟩
    have shorter : more.length ≤ bound := by
      simp [quoted] at hb
      omega
    rw [List.foldlM_cons] at taken
    obtain ⟨t, ht, taken⟩ := ok_of_bind taken
    obtain ⟨rest, later, closed⟩ :=
      ih (fun g hg => agree g (List.mem_cons_of_mem _ hg)) hmore bound shorter taken
    refine ⟨rest, ?_, closed⟩
    rw [readFields]
    simp only [List.append_assoc, List.cons_append]
    rw [nextName_quoted first hg]
    simp only [bind, Except.bind, agree f List.mem_cons_self s t gap' cs (more ++ tail) ht hg' hx
      (hmore.ends tail), later]

/-- Every item of the answer was read. -/
theorem mem_of_readItems {α : Type} {item : List Char → Except Fault (α × List Char)} {bound : Nat}
    {first : Bool} {cs : List Char} {xs : List α} {rest : List Char}
    (h : readItems item bound first cs = .ok (xs, rest)) :
    ∀ x ∈ xs, ∃ cs rest, item cs = .ok (x, rest) := by
  induction bound generalizing first cs xs rest with
  | zero => cases h
  | succ bound ih =>
    rw [readItems] at h
    obtain ⟨next, -, h⟩ := ok_of_bind h
    cases next with
    | none =>
      obtain ⟨tail, -, h⟩ := ok_of_bind h
      cases h
      exact nofun
    | some start =>
      obtain ⟨⟨x, more⟩, hx, h⟩ := ok_of_bind h
      obtain ⟨⟨ys, tail⟩, hys, h⟩ := ok_of_bind h
      cases h
      intro y hy
      rcases List.mem_cons.1 hy with rfl | hy
      · exact ⟨start, more, hx⟩
      · exact ih hys y hy

/-- What holds before a loop over fields and is kept by every field holds after it. -/
theorem readFields_keeps {σ : Type} {field : σ → String → List Char → Except Fault (σ × List Char)}
    {P : σ → Prop} (keep : ∀ s name cs s' rest, P s → field s name cs = .ok (s', rest) → P s')
    {bound : Nat} {first : Bool} {s s' : σ} {cs rest : List Char}
    (h : readFields field bound first s cs = .ok (s', rest)) (hs : P s) : P s' := by
  induction bound generalizing first s cs with
  | zero => cases h
  | succ bound ih =>
    rw [readFields] at h
    obtain ⟨next, -, h⟩ := ok_of_bind h
    cases next with
    | none =>
      cases h
      exact hs
    | some found =>
      obtain ⟨name, start⟩ := found
      obtain ⟨⟨t, more⟩, ht, h⟩ := ok_of_bind h
      exact ih h (keep _ _ _ _ _ hs ht)

/-! ## The reader of documents, by first character -/

theorem readAny_gap (depth : Nat) (hg : Blank gap) (cs : List Char) :
    readAny depth (gap ++ cs) = readAny depth cs := by
  rw [readAny.eq_def, readAny.eq_def depth cs]
  dsimp only
  rw [skipBlanks_append hg]

theorem readAny_minus (depth : Nat) (rest : List Char) :
    readAny depth ('-' :: rest) = (scanNumber true rest).map fun n => (.number n.1, n.2) := by
  rw [readAny.eq_def]
  rfl

theorem readAny_digit (depth : Nat) {c : Char} (h : c.isDigit = true) (rest : List Char) :
    readAny depth (c :: rest) = (scanNumber false (c :: rest)).map fun n => (.number n.1, n.2) := by
  rw [readAny.eq_def]
  simp only [skipBlanks_cons (isBlank_of_isDigit h), ne_of_isDigit h (d := 'n') rfl, ne_of_isDigit h (d := 't') rfl,
    ne_of_isDigit h (d := 'f') rfl, ne_of_isDigit h (d := '-') rfl, h, if_true, if_false]

theorem readAny_string (depth : Nat) (rest : List Char) :
    readAny depth ('"' :: rest) = (scanString rest).map fun s => (.string (String.ofList s.1), s.2) := by
  rw [readAny.eq_def]
  rfl

theorem readAny_array (depth : Nat) (rest : List Char) :
    readAny (depth + 1) ('[' :: rest) =
      (readItems (readAny depth) (rest.length + 1) true rest).map fun r => (.array r.1, r.2) := by
  rw [readAny.eq_def]
  rfl

/-- What the reader of documents does with the fields of an object. -/
def readAnyField (depth : Nat) (fields : List (String × Json)) (name : String) (cs : List Char) :
    Except Fault (List (String × Json) × List Char) :=
  (skipColon cs).bind fun cs => (readAny depth cs).map fun r => ((name, r.1) :: fields, r.2)

theorem readAny_object (depth : Nat) (rest : List Char) :
    readAny (depth + 1) ('\x7b' :: rest) =
      (readFields (readAnyField depth) (rest.length + 1) true [] rest).bind fun r =>
        (closeObject r.2).map fun cs => (.object r.1.reverse, cs) := by
  rw [readAny.eq_def]
  rfl

/-! ## Any document -/

theorem foldlM_push (fields done : List (String × Json)) :
    fields.foldlM (fun done f => (.ok (f :: done) : Except Fault _)) done =
      .ok (fields.reverse ++ done) := by
  induction fields generalizing done with
  | nil => rfl
  | cons f fields ih =>
    rw [List.foldlM_cons]
    exact (ih (f :: done)).trans (by simp)

/-- **A document is read back** from any spelling of it. -/
theorem readAny_spells {depth : Nat} {j : Json} (fits : j.height ≤ depth) (hi : j.integral = true)
    (hg : Blank gap) {cs tail : List Char} (h : Spells j cs) (ends : Ends tail) :
    readAny depth (gap ++ (cs ++ tail)) = .ok (j, tail) := by
  -- Lists and objects are read with a smaller bound on the depth.
  induction depth using Nat.strongRecOn generalizing j gap cs tail with
  | _ depth ih =>
  rw [readAny_gap depth hg]
  cases j with
  | null =>
    cases h
    rw [readAny.eq_def]
    rfl
  | boolean b =>
    cases h
    rw [readAny.eq_def]
    cases b <;> rfl
  | number n =>
    obtain ⟨m, bounded, ⟨text, rfl⟩ | ⟨text, rfl⟩⟩ := numberText_integral hi
    · obtain ⟨c, rest, digits, digit⟩ := exists_digit m
      rw [h, text, digits, List.cons_append, readAny_digit depth digit, ← List.cons_append, ← digits,
        scanNumber_digits false bounded ends]
      rfl
    · rw [h, text, List.cons_append, readAny_minus, scanNumber_digits true bounded ends]
      rfl
  | string s =>
    rw [h, quoted, List.append_assoc, List.cons_append, readAny_string, List.cons_append,
      scanString_escapedAll]
    simp only [Except.map, String.ofList_toList, List.nil_append]
  | array items =>
    obtain ⟨body, rfl, spells⟩ := h
    obtain ⟨depth, rfl, heights⟩ := heights_of_array fits
    have integrals := integralItems_iff.1 hi
    rw [List.cons_append, readAny_array,
      readItems_spells (f := id) integrals
        (fun x hx cs tail hs ends => ih depth (Nat.lt_succ_self _) (heights x hx) (integrals x hx) blank_nil hs ends)
        (by rwa [List.map_id]) (by simp; omega) tail]
    rfl
  | object fields =>
    obtain ⟨body, rfl, spells⟩ := h
    obtain ⟨depth, rfl, heights⟩ := heights_of_object fits
    have integrals := integralFields_iff.1 hi
    have agree : ∀ f ∈ fields, ∀ s s' gap cs tail, .ok (f :: s) = (.ok s' : Except Fault _) → Blank gap →
        Spells f.2 cs → Ends tail →
        readAnyField depth s f.1 (':' :: (gap ++ (cs ++ tail))) = .ok (s', tail) := by
      rintro f hf s s' gap cs tail hs hg spelled ends
      cases hs
      rw [readAnyField, skipColon_colon]
      simp only [Except.bind, Except.map,
        ih depth (Nat.lt_succ_self _) (heights f hf) (integrals f hf) hg spelled ends]
    obtain ⟨rest, read, closed⟩ := readFields_spells (readAnyField depth) agree spells
      ((body ++ tail).length + 1) (by simp; omega) (foldlM_push fields []) tail
    rw [List.cons_append, readAny_object, read]
    simp only [Except.bind, Except.map, closed, List.append_nil, List.reverse_reverse]

theorem height_of_map {α : Type} {x : Except Fault α} {f : α → Json × List Char} {r : Json × List Char}
    (h : x.map f = .ok r) (leaf : ∀ a, (f a).1.height = 0) : r.1.height = 0 := by
  obtain ⟨a, -, rfl⟩ := ok_of_map h
  exact leaf a

/-- What is read is a leaf, or a list or object whose parts were read with a smaller bound. -/
theorem readAny_cases {depth : Nat} {cs rest : List Char} {j : Json}
    (h : readAny depth cs = .ok (j, rest)) :
    j.height = 0 ∨
      (∃ d items bound start tail, depth = d + 1 ∧ j = .array items ∧
        readItems (readAny d) bound true start = .ok (items, tail)) ∨
      (∃ d fields bound start tail, depth = d + 1 ∧ j = .object fields.reverse ∧
        readFields (readAnyField d) bound true [] start = .ok (fields, tail)) := by
  rw [readAny.eq_def] at h
  repeat' split at h
  · cases h
  · exact .inl (height_of_map h fun _ => rfl)
  · exact .inl (height_of_map h fun _ => rfl)
  · exact .inl (height_of_map h fun _ => rfl)
  · exact .inl (height_of_map h fun _ => rfl)
  · exact .inl (height_of_map h fun _ => rfl)
  · exact .inl (height_of_map h fun _ => rfl)
  · cases h
  · obtain ⟨⟨items, tail⟩, read, h⟩ := ok_of_map h
    cases h
    exact .inr (.inl ⟨_, items, _, _, tail, rfl, rfl, read⟩)
  · cases h
  · obtain ⟨⟨fields, tail⟩, read, h⟩ := ok_of_bind h
    obtain ⟨_, -, h⟩ := ok_of_map h
    cases h
    exact .inr (.inr ⟨_, fields, _, _, tail, rfl, rfl, read⟩)
  · cases h

/-- **What is read nests no deeper than the bound.** -/
theorem height_le_of_readAny {depth : Nat} {cs rest : List Char} {j : Json}
    (h : readAny depth cs = .ok (j, rest)) : j.height ≤ depth := by
  induction depth using Nat.strongRecOn generalizing cs j rest with
  | _ depth ih =>
  rcases readAny_cases h with leaf | ⟨d, items, bound, start, tail, rfl, rfl, read⟩ |
    ⟨d, fields, bound, start, tail, rfl, rfl, read⟩
  · omega
  · refine Nat.succ_le_succ (heightItems_le_iff.2 fun x hx => ?_)
    obtain ⟨cs, rest, hx⟩ := mem_of_readItems read x hx
    exact ih d (Nat.lt_succ_self d) hx
  · refine Nat.succ_le_succ (heightFields_le_iff.2 fun f hf => ?_)
    refine readFields_keeps (P := fun fields => ∀ f ∈ fields, f.2.height ≤ d) ?_ read nofun f
      (List.mem_reverse.1 hf)
    rintro s name cs s' rest hs step f hf
    obtain ⟨cs', -, step⟩ := ok_of_bind (x := skipColon cs) step
    obtain ⟨⟨x, more⟩, hx, step⟩ := ok_of_map step
    cases step
    rcases List.mem_cons.1 hf with rfl | hf
    · exact ih d (Nat.lt_succ_self d) hx
    · exact hs f hf

end FeatureAssembly.Json
