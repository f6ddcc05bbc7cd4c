import FeatureAssembly.Proofs.Json.Codecs

/-!
# Laws of records

**The law** (`Codec.keeps_record`): a record whose fields have different names is kept if each of
its values is kept, or is hidden and the default of its field. And a record is obtained from values
that are obtained or defaults (`Codec.obtains_record`), whether it was an object or a list.

The proofs follow the list of fields: a written field finds the slot of its name and leaves the
others alone, so the fields may be read one after the other.
-/

set_option autoImplicit false

namespace FeatureAssembly.Json

namespace Fields

variable {β σ : Type} {depth : Nat}

/-! ## Names and values -/

def names : {β σ : Type} → Fields β σ → List String
  | _, _, .nil => []
  | _, _, .cons name _ _ _ rest => name :: rest.names

/-- **The values of a record are kept**: each value that is hidden is the default, and any other is
kept by the codec of its field. -/
def Kept (depth : Nat) : {β σ : Type} → Fields β σ → β → Prop
  | _, _, .nil, _ => True
  | _, _, .cons _ codec default hide rest, (a, b) =>
    (if hide a then default = some a else codec.Keeps depth a) ∧ rest.Kept depth b

/-- **The values of a record are obtained**: each one by the codec of its field, or as the
default. -/
def Obtained (depth : Nat) : {β σ : Type} → Fields β σ → β → Prop
  | _, _, .nil, _ => True
  | _, _, .cons _ codec default _ rest, (a, b) =>
    (default = some a ∨ codec.Obtains depth a) ∧ rest.Obtained depth b

/-- What is read of the values so far is obtained. -/
def Filled (depth : Nat) : {β σ : Type} → Fields β σ → σ → Prop
  | _, _, .nil, _ => True
  | _, _, .cons _ codec _ _ rest, (slot, slots) =>
    (∀ a ∈ slot, codec.Obtains depth a) ∧ rest.Filled depth slots

section Kinds

variable {α : Type} {name : String} {codec : Codec α} {default a : α} {hide : α → Bool}
  {rest : Fields β σ} {b : β}

theorem Kept.required (h : codec.Keeps depth a) (later : rest.Kept depth b) :
    (required name codec rest).Kept depth (a, b) :=
  ⟨h, later⟩

theorem Kept.defaulted (h : codec.Keeps depth a) (later : rest.Kept depth b) :
    (defaulted name codec default rest).Kept depth (a, b) :=
  ⟨h, later⟩

theorem Kept.optional (hidden : hide a = true → a = default) (shown : codec.Keeps depth a)
    (later : rest.Kept depth b) : (optional name codec default hide rest).Kept depth (a, b) := by
  refine ⟨?_, later⟩
  split
  · next h => rw [hidden h]
  · exact shown

theorem Obtained.required (h : (required name codec rest).Obtained depth (a, b)) :
    codec.Obtains depth a ∧ rest.Obtained depth b :=
  ⟨h.1.resolve_left nofun, h.2⟩

theorem Obtained.optional (h : (optional name codec default hide rest).Obtained depth (a, b)) :
    (a = default ∨ codec.Obtains depth a) ∧ rest.Obtained depth b :=
  ⟨h.1.imp_left fun e => (Option.some.inj e).symm, h.2⟩

end Kinds

/-! ## Writing -/

theorem mem_names_of_mem_write {fields : Fields β σ} {b : β} {f : String × Json}
    (h : f ∈ fields.write b) : f.1 ∈ fields.names := by
  induction fields with
  | nil => cases h
  | cons name codec default hide rest ih =>
    obtain ⟨a, b⟩ := b
    rw [write] at h
    split at h
    · exact List.mem_cons_of_mem _ (ih h)
    · rcases List.mem_cons.1 h with rfl | h
      · exact List.mem_cons_self
      · exact List.mem_cons_of_mem _ (ih h)

/-- What is written for kept values nests no deeper than the bound and has no numbers but
integers. -/
theorem Kept.written {fields : Fields β σ} {b : β} (kept : fields.Kept depth b) :
    ∀ f ∈ fields.write b, f.2.height ≤ depth ∧ f.2.integral = true := by
  induction fields with
  | nil => exact nofun
  | cons name codec default hide rest ih =>
    obtain ⟨a, b⟩ := b
    obtain ⟨first, later⟩ := kept
    rw [write]
    split at first
    · next hidden =>
      rw [if_pos hidden]
      exact ih later
    · next shown =>
      rw [if_neg shown]
      intro f hf
      rcases List.mem_cons.1 hf with rfl | hf
      · exact ⟨first.height, first.integral⟩
      · exact ih later f hf

/-! ## Reading what is written -/

/-- A written field is read from any spelling to what it is taken to. -/
theorem Kept.readField {fields : Fields β σ} {b : β} (kept : fields.Kept depth b)
    (distinct : fields.names.Nodup) {f : String × Json} (hf : f ∈ fields.write b) {s s' : σ}
    (taken : fields.takeField s f = .ok s') {gap cs tail : List Char} (hg : Blank gap)
    (spelled : Spells f.2 cs) (ends : Ends tail) :
    fields.readField depth s f.1 (':' :: (gap ++ (cs ++ tail))) = .ok (s', tail) := by
  induction fields with
  | nil => cases hf
  | cons name codec default hide rest ih =>
    obtain ⟨a, b⟩ := b
    obtain ⟨slot, slots⟩ := s
    obtain ⟨first, later⟩ := kept
    obtain ⟨new, distinct⟩ := List.nodup_cons.1 distinct
    rw [takeField] at taken
    rw [Fields.readField]
    by_cases hn : f.1 = name
    · -- The later fields have other names, so this is the first one.
      have written : hide a = false ∧ f = (name, codec.toJson a) := by
        rw [write] at hf
        have absent : f ∉ rest.write b := fun h => new (hn ▸ mem_names_of_mem_write h)
        split at hf
        · exact absurd hf absent
        · next shown =>
          exact ⟨by simpa using shown, (List.mem_cons.1 hf).resolve_right absent⟩
      obtain ⟨shown, rfl⟩ := written
      rw [shown, if_neg Bool.false_ne_true] at first
      rw [if_pos hn] at taken ⊢
      split at taken
      · cases taken
      · next free =>
        rw [if_neg free, skipColon_colon]
        rw [first.take] at taken
        cases taken
        simp only [bind, Except.bind, first.read gap cs tail hg spelled ends]
        rfl
    · rw [if_neg hn] at taken ⊢
      obtain ⟨slots', taken', rfl⟩ := ok_of_map taken
      have hf : f ∈ rest.write b := by
        rw [write] at hf
        split at hf
        · exact hf
        · refine (List.mem_cons.1 hf).resolve_left ?_
          rintro rfl
          exact hn rfl
      rw [ih later distinct hf taken']
      rfl

/-- Fields with other names leave the slot of the first field alone. -/
theorem foldlM_takeField_cons {α : Type} {name : String} {codec : Codec α} {default : Option α}
    {hide : α → Bool} {rest : Fields β σ} {l : List (String × Json)} (other : ∀ f ∈ l, f.1 ≠ name)
    (slot : Option α) (slots : σ) :
    l.foldlM (fun s f => (cons name codec default hide rest).takeField s f) (slot, slots) =
      (l.foldlM (fun s f => rest.takeField s f) slots).map (slot, ·) := by
  induction l generalizing slots with
  | nil => rfl
  | cons f l ih =>
    rw [List.foldlM_cons, List.foldlM_cons, takeField, if_neg (other f List.mem_cons_self)]
    cases rest.takeField slots f with
    | error e => rfl
    | ok slots' => exact ih (fun g hg => other g (List.mem_cons_of_mem f hg)) slots'

/-- **Kept values are taken from what is written for them**: the hidden ones come back as the
defaults. -/
theorem Kept.complete {fields : Fields β σ} {b : β} (kept : fields.Kept depth b)
    (distinct : fields.names.Nodup) :
    ∃ slots, (fields.write b).foldlM (fun s f => fields.takeField s f) fields.blank = .ok slots ∧
      fields.complete slots = .ok b := by
  induction fields with
  | nil => exact ⟨(), rfl, rfl⟩
  | cons name codec default hide rest ih =>
    obtain ⟨a, b⟩ := b
    obtain ⟨first, later⟩ := kept
    obtain ⟨new, distinct⟩ := List.nodup_cons.1 distinct
    obtain ⟨slots, taken, completed⟩ := ih later distinct
    have other : ∀ f ∈ rest.write b, f.1 ≠ name := by
      rintro f hf rfl
      exact new (mem_names_of_mem_write hf)
    rw [write, blank]
    split at first
    · next hidden =>
      rw [if_pos hidden, foldlM_takeField_cons other, taken]
      refine ⟨(none, slots), rfl, ?_⟩
      simp only [Fields.complete, first, Option.none_or, completed, Except.map]
    · next shown =>
      rw [if_neg shown, List.foldlM_cons, takeField, if_pos rfl, if_neg (by simp), first.take]
      refine ⟨(some a, slots), ?_, ?_⟩
      · show (rest.write b).foldlM _ (some a, rest.blank) = _
        rw [foldlM_takeField_cons other, taken]
        rfl
      · simp only [Fields.complete, Option.some_or, completed, Except.map]

/-! ## Where values come from -/

theorem filled_blank (fields : Fields β σ) : fields.Filled depth fields.blank := by
  induction fields with
  | nil => exact trivial
  | cons name codec default hide rest ih => exact ⟨nofun, ih⟩

theorem Filled.readField {fields : Fields β σ} {s s' : σ} (filled : fields.Filled depth s)
    {key : String} {cs tail : List Char} (h : fields.readField depth s key cs = .ok (s', tail)) :
    fields.Filled depth s' := by
  induction fields generalizing tail with
  | nil => trivial
  | cons name codec default hide rest ih =>
    obtain ⟨slot, slots⟩ := s
    obtain ⟨first, later⟩ := filled
    rw [Fields.readField] at h
    split at h
    · split at h
      · cases h
      · obtain ⟨_, -, h⟩ := ok_of_bind h
        obtain ⟨⟨a, more⟩, read, h⟩ := ok_of_bind h
        cases h
        refine ⟨?_, later⟩
        rintro _ ⟨⟩
        exact .inl ⟨_, _, read⟩
    · obtain ⟨⟨slots', more⟩, read, h⟩ := ok_of_bind h
      cases h
      exact ⟨first, ih later read⟩

theorem Filled.takeField {fields : Fields β σ} {s s' : σ} (filled : fields.Filled depth s)
    {f : String × Json} (height : f.2.height ≤ depth) (h : fields.takeField s f = .ok s') :
    fields.Filled depth s' := by
  induction fields with
  | nil => trivial
  | cons name codec default hide rest ih =>
    obtain ⟨slot, slots⟩ := s
    obtain ⟨first, later⟩ := filled
    rw [Fields.takeField] at h
    split at h
    · split at h
      · cases h
      · obtain ⟨a, taken, rfl⟩ := ok_of_map h
        refine ⟨?_, later⟩
        rintro _ ⟨⟩
        exact .inr ⟨_, height, taken⟩
    · obtain ⟨slots', taken, rfl⟩ := ok_of_map h
      exact ⟨first, ih later taken⟩

theorem Filled.obtained {fields : Fields β σ} {s : σ} (filled : fields.Filled depth s) {b : β}
    (h : fields.complete s = .ok b) : fields.Obtained depth b := by
  induction fields with
  | nil => trivial
  | cons name codec default hide rest ih =>
    obtain ⟨slot, slots⟩ := s
    obtain ⟨first, later⟩ := filled
    rw [Fields.complete] at h
    split at h
    · next a ha =>
      obtain ⟨b, completed, rfl⟩ := ok_of_map h
      refine ⟨?_, ih later completed⟩
      rcases Option.or_eq_some_iff.1 ha with filled | ⟨-, missing⟩
      · exact .inr (first a filled)
      · exact .inl missing
    · cases h

theorem obtained_of_readInOrder {short : Nat → Fault} {fields : Fields β σ} {place : Nat}
    {start : Bool} {cs tail : List Char} {b : β}
    (h : fields.readInOrder depth short place start cs = .ok (b, tail)) : fields.Obtained depth b := by
  induction fields generalizing place start cs tail with
  | nil => trivial
  | cons name codec default hide rest ih =>
    rw [readInOrder.eq_def] at h
    dsimp only at h
    obtain ⟨next, -, h⟩ := ok_of_bind h
    cases next with
    | some item =>
      obtain ⟨⟨a, more⟩, read, h⟩ := ok_of_bind h
      obtain ⟨⟨b, tail⟩, later, h⟩ := ok_of_bind h
      cases h
      exact ⟨.inr (.inl ⟨_, _, read⟩), ih later⟩
    | none =>
      cases default with
      | none => cases h
      | some a =>
        obtain ⟨⟨b, tail⟩, later, h⟩ := ok_of_bind h
        cases h
        exact ⟨.inl rfl, ih later⟩

theorem obtained_of_takeInOrder {short : Nat → Fault} {fields : Fields β σ} {place : Nat}
    {items left : List Json} (heights : ∀ j ∈ items, j.height ≤ depth) {b : β}
    (h : fields.takeInOrder short place items = .ok (b, left)) : fields.Obtained depth b := by
  induction fields generalizing place items left with
  | nil => trivial
  | cons name codec default hide rest ih =>
    rw [takeInOrder.eq_def] at h
    dsimp only at h
    split at h
    · next j items =>
      obtain ⟨a, taken, h⟩ := ok_of_bind h
      obtain ⟨⟨b, left⟩, later, h⟩ := ok_of_bind h
      cases h
      exact ⟨.inr (.inr ⟨j, heights j List.mem_cons_self, taken⟩),
        ih (fun j hj => heights j (List.mem_cons_of_mem _ hj)) later⟩
    · cases h
    · obtain ⟨⟨b, left⟩, later, h⟩ := ok_of_bind h
      cases h
      exact ⟨.inl rfl, ih heights later⟩

end Fields

namespace Codec

variable {β σ ρ : Type} {depth : Nat} {name : String} {fields : Fields β σ} {make : β → ρ} {parts : ρ → β}

/-- **A record is kept** if its values are. -/
theorem keeps_record (distinct : fields.names.Nodup) {r : ρ} (whole : make (parts r) = r)
    (kept : fields.Kept depth (parts r)) : (record name fields make parts).Keeps (depth + 1) r := by
  obtain ⟨slots, taken, completed⟩ := kept.complete distinct
  refine ⟨?_, ?_, fun gap cs tail hg spelled ends => ?_, ?_⟩
  · exact Nat.succ_le_succ (heightFields_le_iff.2 fun f hf => (kept.written f hf).1)
  · exact integralFields_iff.2 fun f hf => (kept.written f hf).2
  · obtain ⟨body, rfl, spelled⟩ := spelled
    obtain ⟨rest, read, closed⟩ := readFields_spells (fun s key cs => fields.readField depth s key cs)
      (fun f hf _ _ _ _ _ taken hg spelled ends => kept.readField distinct hf taken hg spelled ends)
      spelled ((body ++ tail).length + 1) (by simp; omega) taken tail
    simp only [record, skipBlanks_append hg, List.cons_append, skipBlanks_cons (c := '\x7b') rfl, deeper,
      bind, Except.bind, read, completed, closed, pure, Except.pure, whole]
  · show ((fields.write (parts r)).foldlM (fun s f => fields.takeField s f) fields.blank >>= fun slots =>
      fields.complete slots >>= fun values => pure (make values)) = _
    rw [taken]
    show (fields.complete slots >>= fun values => pure (make values)) = _
    rw [completed]
    exact congrArg Except.ok whole

/-- **A record is obtained** from obtained values. -/
theorem obtains_record {r : ρ} (h : (record name fields make parts).Obtains depth r) :
    ∃ d b, depth = d + 1 ∧ r = make b ∧ fields.Obtained d b := by
  rcases h with ⟨cs, rest, h⟩ | ⟨j, height, h⟩
  · simp only [record] at h
    split at h
    · obtain ⟨d, deep, h⟩ := ok_of_bind h
      obtain ⟨⟨slots, tail⟩, read, h⟩ := ok_of_bind h
      obtain ⟨b, completed, h⟩ := ok_of_bind h
      obtain ⟨_, -, h⟩ := ok_of_bind h
      cases h
      have filled : fields.Filled d slots := readFields_keeps (P := fields.Filled d)
        (fun s key cs s' rest filled step => filled.readField step) read fields.filled_blank
      exact ⟨d, b, depth_of_deeper deep, rfl, filled.obtained completed⟩
    · obtain ⟨d, deep, h⟩ := ok_of_bind h
      obtain ⟨⟨b, tail⟩, read, h⟩ := ok_of_bind h
      obtain ⟨_, -, h⟩ := ok_of_bind h
      cases h
      exact ⟨d, b, depth_of_deeper deep, rfl, Fields.obtained_of_readInOrder read⟩
    · exact absurd h wrongStart_ne_ok
  · simp only [record] at h
    split at h
    · next members =>
      obtain ⟨d, rfl, heights⟩ := heights_of_object height
      obtain ⟨slots, taken, h⟩ := ok_of_bind h
      obtain ⟨b, completed, h⟩ := ok_of_bind h
      cases h
      have filled : fields.Filled d slots := foldlM_keeps (P := fields.Filled d)
        (fun f hf s s' filled step => filled.takeField (heights f hf) step) taken fields.filled_blank
      exact ⟨d, b, rfl, rfl, filled.obtained completed⟩
    · next items =>
      obtain ⟨d, rfl, heights⟩ := heights_of_array height
      obtain ⟨⟨b, left⟩, taken, h⟩ := ok_of_bind h
      dsimp only at h
      split at h
      · cases h
        exact ⟨d, b, rfl, rfl, Fields.obtained_of_takeInOrder heights taken⟩
      · cases h
    · cases h

end Codec

end FeatureAssembly.Json
