import FeatureAssembly.Proofs.Json.Reading
import FeatureAssembly.Proofs.Json.SortedForm

/-!
# Laws of codecs

For each codec, which values it keeps (`Codec.Keeps`) and which values it can come by
(`Codec.Obtains`). A value is kept if it is read back from every spelling of the document that is
written for it, with anything behind that can follow a value, and taken back from the document
itself. The codecs of lists, tables and other types keep what the codecs of their parts keep, and
come by what those come by.

Both are bound to a depth: what is kept must nest no deeper than the reader goes, and what is
obtained was read with a bound, which is how a nested document is known to fit when it is written
again.

**The law** (`Codec.Keeps.decode`): what is kept within the limit of whole texts is decoded from any
spelling.
-/

set_option autoImplicit false

namespace FeatureAssembly.Json.Codec

variable {α β : Type} {depth : Nat}

/-- **A value is kept**: what is written for it nests no deeper than the bound, has no numbers but
integers, and is read back from a text in any layout and taken back from the document. -/
structure Keeps (c : Codec α) (depth : Nat) (x : α) : Prop where
  height : (c.toJson x).height ≤ depth
  integral : (c.toJson x).integral = true
  read : ∀ gap cs tail, Blank gap → Spells (c.toJson x) cs → Ends tail →
    c.read depth (gap ++ (cs ++ tail)) = .ok (x, tail)
  take : c.ofJson (c.toJson x) = .ok x

/-- **A value is obtained**: it is read from some text, or taken from some document that nests no
deeper than the bound. -/
def Obtains (c : Codec α) (depth : Nat) (x : α) : Prop :=
  (∃ cs rest, c.read depth cs = .ok (x, rest)) ∨ ∃ j, j.height ≤ depth ∧ c.ofJson j = .ok x

theorem obtains_of_decode {c : Codec α} {text : String} {x : α} (h : c.decode text = .ok x) :
    c.Obtains depthLimit x := by
  unfold decode at h
  split at h
  · cases h
  · next value rest read =>
    split at h
    · cases h
      exact .inl ⟨_, _, read⟩
    · cases h

/-- What is kept is decoded from any text that spells it. -/
theorem Keeps.decode {c : Codec α} {x : α} (h : c.Keeps depthLimit x) {cs : List Char}
    (spelled : Spells (c.toJson x) cs) : c.decode (String.ofList cs) = .ok x := by
  have read := h.read [] cs [] blank_nil spelled ends_nil
  rw [List.append_nil, List.nil_append] at read
  unfold Codec.decode
  rw [String.toList_ofList, read]
  rfl

/-! ## Leaves -/

theorem keeps_textAs (wanted : String) (depth : Nat) (s : String) : (textAs wanted).Keeps depth s where
  height := Nat.zero_le _
  integral := rfl
  read gap cs tail hg h _ := by
    cases h
    simp only [textAs, skipBlanks_quoted hg, scanString_escapedAll, Except.map, String.ofList_toList]
  take := rfl

theorem keeps_flag (depth : Nat) (b : Bool) : flag.Keeps depth b where
  height := Nat.zero_le _
  integral := rfl
  read gap cs tail hg h _ := by
    cases h
    simp only [flag, skipBlanks_append hg]
    cases b <;> rfl
  take := rfl

theorem wordOfNumber_toNat (n : UInt32) : wordOfNumber (.integer n.toNat) = .ok n := by
  have bound : n.toNat < UInt32.size := n.toNat_lt_size
  simp [wordOfNumber, bound]

theorem keeps_word (depth : Nat) (n : UInt32) : word.Keeps depth n where
  height := Nat.zero_le _
  integral := by
    have bound : n.toNat < significandBound := Nat.lt_trans n.toNat_lt_size (by decide)
    simp only [word, Json.integral, decide_eq_true_eq]
    exact ⟨by omega, Int.ofNat_lt.2 bound⟩
  read gap cs tail hg h ends := by
    have bound : n.toNat < significandBound := Nat.lt_trans n.toNat_lt_size (by decide)
    obtain ⟨c, rest, digits, digit⟩ := exists_digit n.toNat
    have scanned : scanNumber false (c :: (rest ++ tail)) = .ok (.integer n.toNat, tail) := by
      rw [← List.cons_append, ← digits]
      exact scanNumber_digits false bound ends
    have start : cs = c :: rest := h.trans ((numberText_ofNat _).trans digits)
    rw [start]
    simp only [word, skipBlanks_append hg, List.cons_append,
      skipBlanks_cons (isBlank_of_isDigit digit), ne_of_isDigit digit (d := '-') rfl,
      if_false, digit, if_true, scanned, bind, Except.bind, wordOfNumber_toNat]
    rfl
  take := wordOfNumber_toNat n

theorem keeps_choice {all : List α} {name : α → String} {a : α}
    (found : all.find? (fun b => name b == name a) = some a) (depth : Nat) :
    (choice all name).Keeps depth a where
  height := Nat.zero_le _
  integral := rfl
  read gap cs tail hg h _ := by
    cases h
    simp only [choice, skipBlanks_quoted hg, scanString_escapedAll, bind, Except.bind, choose,
      String.ofList_toList, found]
    rfl
  take := by
    simp only [choice, choose, found]

/-! ## Values with texts of their own -/

section ViaText

variable {parse : String → Except String α} {print : α → String} {a : α}

theorem keeps_viaText (parsed : parse (print a) = .ok a) (depth : Nat) :
    (viaText parse print).Keeps depth a where
  height := Nat.zero_le _
  integral := rfl
  read gap cs tail hg h ends := by
    have read := (keeps_textAs "a string" depth (print a)).read gap cs tail hg h ends
    simp only [viaText, text, read, bind, Except.bind, parsed]
    rfl
  take := by
    simp only [viaText, text, textAs, bind, Except.bind, parsed]
    rfl

theorem obtains_viaText (h : (viaText parse print).Obtains depth a) : ∃ s, parse s = .ok a := by
  rcases h with ⟨cs, rest, h⟩ | ⟨j, -, h⟩
  · obtain ⟨⟨s, tail⟩, -, h⟩ := ok_of_bind h
    refine ⟨s, ?_⟩
    dsimp only at h
    split at h
    · next parsed =>
      cases h
      exact parsed
    · cases h
  · obtain ⟨s, -, h⟩ := ok_of_bind h
    refine ⟨s, ?_⟩
    split at h
    · next parsed =>
      cases h
      exact parsed
    · cases h

end ViaText

/-! ## Absent values, lists, tables -/

variable {c : Codec α}

/-- A value or null is kept, if the value is kept and is not written as null. -/
theorem keeps_nullable {x : Option α} (h : ∀ a ∈ x, c.Keeps depth a ∧ c.toJson a ≠ .null) :
    c.nullable.Keeps depth x := by
  cases x with
  | none =>
    refine ⟨Nat.zero_le _, rfl, fun gap cs tail hg h _ => ?_, rfl⟩
    cases h
    simp only [nullable, skipBlanks_append hg]
    rfl
  | some a =>
    obtain ⟨kept, nonnull⟩ := h a rfl
    refine ⟨kept.height, kept.integral, fun gap cs tail hg h ends => ?_, ?_⟩
    · obtain ⟨d, rest, rfl, start⟩ := exists_start h kept.integral
      have read := kept.read [] (d :: rest) tail blank_nil h ends
      have letter : d ≠ 'n' := fun hd => nonnull (start.null_of_n hd)
      simp only [nullable, skipBlanks_append hg, List.cons_append, skipBlanks_cons start.visible]
      split
      · next h => exact absurd (List.cons.inj h).1 letter
      · rw [List.nil_append, List.cons_append] at read
        rw [read]
        rfl
    · simp only [nullable, kept.take]
      rfl

theorem obtains_nullable {a : α} (h : c.nullable.Obtains depth (some a)) : c.Obtains depth a := by
  rcases h with ⟨cs, rest, h⟩ | ⟨j, height, h⟩
  · simp only [nullable] at h
    split at h
    · obtain ⟨_, -, h⟩ := ok_of_map h
      cases h
    · obtain ⟨r, read, h⟩ := ok_of_map h
      cases h
      exact .inl ⟨_, _, read⟩
  · simp only [nullable] at h
    split at h
    · cases h
    · obtain ⟨_, taken, h⟩ := ok_of_map h
      cases h
      exact .inr ⟨_, height, taken⟩

theorem keeps_list {xs : List α} (h : ∀ x ∈ xs, c.Keeps depth x) : c.list.Keeps (depth + 1) xs where
  height := by
    refine Nat.succ_le_succ (heightItems_le_iff.2 fun j hj => ?_)
    obtain ⟨x, hx, rfl⟩ := List.mem_map.1 hj
    exact (h x hx).height
  integral := by
    refine integralItems_iff.2 fun j hj => ?_
    obtain ⟨x, hx, rfl⟩ := List.mem_map.1 hj
    exact (h x hx).integral
  read gap cs tail hg spelled ends := by
    obtain ⟨body, rfl, spelled⟩ := spelled
    have items : readItems (c.read depth) ((body ++ tail).length + 1) true (body ++ tail) = .ok (xs, tail) :=
      readItems_spells (f := c.toJson) (fun x hx => (h x hx).integral)
        (fun x hx cs tail hs ends => (h x hx).read [] cs tail blank_nil hs ends) spelled
        (by simp; omega) tail
    simp only [list, skipBlanks_append hg, List.cons_append, skipBlanks_cons (c := '[') rfl]
    exact items
  take := by
    show (xs.map c.toJson).mapM c.ofJson = _
    induction xs with
    | nil => rfl
    | cons x xs ih =>
      rw [List.map_cons, List.mapM_cons, (h x List.mem_cons_self).take,
        ih fun y hy => h y (List.mem_cons_of_mem x hy)]
      rfl

theorem mem_of_mapM_ok {ε : Type} {f : α → Except ε β} {l : List α} {ys : List β}
    (h : l.mapM f = .ok ys) : ∀ y ∈ ys, ∃ x ∈ l, f x = .ok y := by
  induction l generalizing ys with
  | nil =>
    cases h
    exact nofun
  | cons x l ih =>
    rw [List.mapM_cons] at h
    obtain ⟨y, hy, h⟩ := ok_of_bind h
    obtain ⟨zs, hzs, h⟩ := ok_of_bind h
    cases h
    intro z hz
    rcases List.mem_cons.1 hz with rfl | hz
    · exact ⟨x, List.mem_cons_self, hy⟩
    · obtain ⟨w, hw, hz⟩ := ih hzs z hz
      exact ⟨w, List.mem_cons_of_mem x hw, hz⟩

theorem wrongStart_ne_ok {wanted : String} {cs : List Char} {a : α} : wrongStart wanted cs ≠ .ok a := by
  have late : ∀ {β : Type} {text : Except Fault β} {m : β → Mismatch}, afterText text m ≠ .ok a := by
    intro β text m h
    cases text <;> cases h
  cases cs with
  | nil => nofun
  | cons c rest =>
    rw [wrongStart]
    repeat' split
    · exact late
    · exact late
    · exact late
    · exact late
    · exact late
    · exact late
    · nofun
    · nofun
    · nofun

/-- Going deeper takes one from the bound. -/
theorem depth_of_deeper {d : Nat} (h : deeper depth = .ok d) : depth = d + 1 := by
  cases depth with
  | zero => cases h
  | succ depth =>
    cases h
    rfl

theorem obtains_list {xs : List α} (h : c.list.Obtains depth xs) :
    ∃ d, depth = d + 1 ∧ ∀ x ∈ xs, c.Obtains d x := by
  rcases h with ⟨cs, rest, h⟩ | ⟨j, height, h⟩
  · simp only [list] at h
    split at h
    · obtain ⟨d, deep, h⟩ := ok_of_bind h
      refine ⟨d, depth_of_deeper deep, fun x hx => ?_⟩
      exact .inl (mem_of_readItems h x hx)
    · exact absurd h wrongStart_ne_ok
  · simp only [list] at h
    split at h
    · next items =>
      obtain ⟨d, rfl, heights⟩ := heights_of_array height
      refine ⟨d, rfl, fun x hx => ?_⟩
      obtain ⟨j, hj, taken⟩ := mem_of_mapM_ok h x hx
      exact .inr ⟨j, heights j hj, taken⟩
    · cases h

section Table

variable {κ : Type} [Ord κ] [Std.TransOrd κ] {key : String → κ} {name : κ → String} {m : SortedMap κ α}

/-- What the reader of a table does with a field. -/
def tableField (key : String → κ) (c : Codec α) (depth : Nat) (m : SortedMap κ α) (s : String)
    (cs : List Char) : Except Fault (SortedMap κ α × List Char) :=
  (skipColon cs).bind fun cs => (c.read depth cs).map fun r => (m.insert (key s) r.1, r.2)

/-- The entries of a table are taken back to the table. -/
theorem foldlM_table (named : ∀ k, key (name k) = k) {l : List (κ × α)}
    (h : ∀ e ∈ l, c.ofJson (c.toJson e.2) = .ok e.2) (done : SortedMap κ α) :
    (l.map fun e => (name e.1, c.toJson e.2)).foldlM
      (fun m f => (c.ofJson f.2).map fun a => m.insert (key f.1) a) done =
        .ok (l.foldl (fun m e => m.insert e.1 e.2) done) := by
  induction l generalizing done with
  | nil => rfl
  | cons e l ih =>
    rw [List.map_cons, List.foldlM_cons, h e List.mem_cons_self, named]
    exact ih (fun e he => h e (List.mem_cons_of_mem _ he)) _

theorem keeps_table (named : ∀ k, key (name k) = k) (h : ∀ e ∈ m.entries, c.Keeps depth e.2) :
    (table key name c).Keeps (depth + 1) m := by
  have taken := foldlM_table named (fun e he => (h e he).take) .empty
  rw [SortedMap.foldl_insert_entries] at taken
  refine ⟨?_, ?_, fun gap cs tail hg spelled ends => ?_, taken⟩
  · refine Nat.succ_le_succ (heightFields_le_iff.2 fun f hf => ?_)
    obtain ⟨e, he, rfl⟩ := List.mem_map.1 hf
    exact (h e he).height
  · refine integralFields_iff.2 fun f hf => ?_
    obtain ⟨e, he, rfl⟩ := List.mem_map.1 hf
    exact (h e he).integral
  · obtain ⟨body, rfl, spelled⟩ := spelled
    have agree : ∀ f ∈ m.entries.map (fun e => (name e.1, c.toJson e.2)), ∀ s s' gap cs tail,
        (c.ofJson f.2).map (fun a => s.insert (key f.1) a) = .ok s' → Blank gap → Spells f.2 cs → Ends tail →
          tableField key c depth s f.1 (':' :: (gap ++ (cs ++ tail))) = .ok (s', tail) := by
      intro f hf s s' gap cs tail hs hg spelled ends
      obtain ⟨e, he, rfl⟩ := List.mem_map.1 hf
      rw [(h e he).take] at hs
      cases hs
      simp only [tableField, skipColon_colon, (h e he).read gap cs tail hg spelled ends, Except.bind, Except.map]
    obtain ⟨rest, read, closed⟩ := readFields_spells (tableField key c depth) agree spelled
      ((body ++ tail).length + 1) (by simp; omega) taken tail
    simp only [table, skipBlanks_append hg, List.cons_append, skipBlanks_cons (c := '\x7b') rfl]
    show (readFields (tableField key c depth) _ true _ (body ++ tail)).bind (fun r =>
      (closeObject r.2).map fun cs => (r.1, cs)) = _
    rw [read]
    simp only [Except.bind, closed, Except.map]

theorem obtains_table (h : (table key name c).Obtains depth m) :
    ∃ d, depth = d + 1 ∧ ∀ e ∈ m.entries, c.Obtains d e.2 := by
  have put : ∀ {d : Nat} {m : SortedMap κ α} {k : κ} {a : α}, (∀ e ∈ m.entries, c.Obtains d e.2) →
      c.Obtains d a → ∀ e ∈ (m.insert k a).entries, c.Obtains d e.2 := by
    intro d m k a hm ha e he
    rcases SortedMap.of_mem_insertEntry he with value | he
    · exact value ▸ ha
    · exact hm e he
  rcases h with ⟨cs, rest, h⟩ | ⟨j, height, h⟩
  · simp only [table] at h
    split at h
    · obtain ⟨d, deep, h⟩ := ok_of_bind h
      obtain ⟨⟨m', tail⟩, read, h⟩ := ok_of_bind h
      obtain ⟨_, -, h⟩ := ok_of_bind h
      cases h
      refine ⟨d, depth_of_deeper deep,
        readFields_keeps (P := fun m : SortedMap κ α => ∀ e ∈ m.entries, c.Obtains d e.2) ?_ read
          fun _ absent => absurd absent List.not_mem_nil⟩
      intro s name cs s' rest hs step
      obtain ⟨cs', -, step⟩ := ok_of_bind step
      obtain ⟨⟨a, more⟩, ha, step⟩ := ok_of_bind step
      cases step
      exact put hs (.inl ⟨_, _, ha⟩)
    · exact absurd h wrongStart_ne_ok
  · simp only [table] at h
    split at h
    · next fields =>
      obtain ⟨d, rfl, heights⟩ := heights_of_object height
      refine ⟨d, rfl, foldlM_keeps (P := fun m : SortedMap κ α => ∀ e ∈ m.entries, c.Obtains d e.2) ?_ h
        fun _ absent => absurd absent List.not_mem_nil⟩
      intro f hf s s' hs step
      obtain ⟨a, ha, rfl⟩ := ok_of_map step
      exact put hs (.inr ⟨f.2, heights f hf, ha⟩)
    · cases h

end Table

theorem keeps_named {m : SortedMap String α} (h : ∀ e ∈ m.entries, c.Keeps depth e.2) :
    c.named.Keeps (depth + 1) m :=
  keeps_table (fun _ => rfl) h

theorem obtains_named {m : SortedMap String α} (h : c.named.Obtains depth m) :
    ∃ d, depth = d + 1 ∧ ∀ e ∈ m.entries, c.Obtains d e.2 :=
  obtains_table h

/-! ## The same documents for another type -/

section Via

variable {make : α → β} {parts : β → α} {b : β}

theorem keeps_via (whole : make (parts b) = b) (h : c.Keeps depth (parts b)) :
    (c.via make parts).Keeps depth b where
  height := h.height
  integral := h.integral
  read gap cs tail hg spelled ends := by
    simp only [via, h.read gap cs tail hg spelled ends, Except.map, whole]
  take := by
    simp only [via, h.take, Except.map, whole]

theorem obtains_via (h : (c.via make parts).Obtains depth b) : ∃ a, make a = b ∧ c.Obtains depth a := by
  rcases h with ⟨cs, rest, h⟩ | ⟨j, height, h⟩
  · obtain ⟨r, read, h⟩ := ok_of_map h
    cases h
    exact ⟨r.1, rfl, .inl ⟨_, _, read⟩⟩
  · obtain ⟨a, taken, h⟩ := ok_of_map h
    exact ⟨a, h, .inr ⟨j, height, taken⟩⟩

end Via

end FeatureAssembly.Json.Codec
