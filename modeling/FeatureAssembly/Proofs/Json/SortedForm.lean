import FeatureAssembly.Proofs.SortedMap
import FeatureAssembly.Proofs.Json.Spelling

/-!
# The sorted form

**The law** (`Json.sorted_sorted`): the sorted form of a document is its own sorted form, so a
document that was kept once is kept as it is ever after. It nests no deeper than the document
(`Json.height_sorted_le`).
-/

set_option autoImplicit false

namespace FeatureAssembly.Json

/-! ## Kept documents -/

/-- Sorted fields are kept as they are, behind fields with smaller names. -/
theorem sortedFields_append {done fields : List (String × Json)} (ascend : KeysAscend (done ++ fields))
    (kept : ∀ f ∈ fields, f.2.sorted = f.2) : sortedFields done fields = done ++ fields := by
  induction fields generalizing done with
  | nil => exact (List.append_nil done).symm
  | cons f fields ih =>
    have last : SortedMap.insertEntry f.1 f.2 done = done ++ [f] :=
      SortedMap.insertEntry_append f.2 fun e he =>
        (List.pairwise_append.1 ascend).2.2 e he f List.mem_cons_self
    rw [sortedFields, kept f List.mem_cons_self, last, ih, List.append_assoc]
    · rfl
    · rw [List.append_assoc]
      exact ascend
    · exact fun g hg => kept g (List.mem_cons_of_mem f hg)

theorem keysAscend_sortedFields {done : List (String × Json)} (h : KeysAscend done)
    (fields : List (String × Json)) : KeysAscend (sortedFields done fields) := by
  induction fields generalizing done with
  | nil => exact h
  | cons f fields ih => exact ih (SortedMap.keysAscend_insertEntry _ _ h)

/-- What holds of the fields so far and of the sorted values holds of the sorted fields. -/
theorem of_mem_sortedFields {P : Json → Prop} {done fields : List (String × Json)}
    (sorted : ∀ f ∈ fields, P f.2.sorted) (hd : ∀ f ∈ done, P f.2) :
    ∀ f ∈ sortedFields done fields, P f.2 := by
  induction fields generalizing done with
  | nil => exact hd
  | cons f fields ih =>
    refine ih (fun g hg => sorted g (List.mem_cons_of_mem f hg)) fun g hg => ?_
    rcases SortedMap.of_mem_insertEntry hg with value | hg
    · rw [value]
      exact sorted f List.mem_cons_self
    · exact hd g hg

theorem sortedItems_eq_map (items : List Json) : sortedItems items = items.map sorted := by
  induction items with
  | nil => rfl
  | cons x rest ih => rw [sortedItems, ih, List.map_cons]

/-! ## The law -/

mutual

/-- **The sorted form is kept.** -/
theorem sorted_sorted : ∀ j : Json, j.sorted.sorted = j.sorted
  | .null | .boolean _ | .number _ | .string _ => rfl
  | .array items => by
    rw [sorted, sorted, sortedItems_eq_map items, sortedItems_eq_map, List.map_map]
    exact congrArg array (List.map_congr_left (sorted_sorted_items items))
  | .object fields => by
    have kept : ∀ f ∈ sortedFields [] fields, f.2.sorted = f.2 :=
      of_mem_sortedFields (P := fun x => x.sorted = x) (sorted_sorted_fields fields) nofun
    rw [sorted, sorted, sortedFields_append (keysAscend_sortedFields .nil fields) kept, List.nil_append]

theorem sorted_sorted_items : ∀ items : List Json, ∀ x ∈ items, x.sorted.sorted = x.sorted
  | [], _, h => nomatch h
  | x :: rest, y, h => by
    rcases List.mem_cons.1 h with e | h
    · exact e ▸ sorted_sorted x
    · exact sorted_sorted_items rest y h

theorem sorted_sorted_fields : ∀ fields : List (String × Json), ∀ f ∈ fields, f.2.sorted.sorted = f.2.sorted
  | [], _, h => nomatch h
  | (name, x) :: rest, f, h => by
    rcases List.mem_cons.1 h with e | h
    · exact e ▸ sorted_sorted x
    · exact sorted_sorted_fields rest f h

end

mutual

/-- **The sorted form nests no deeper.** -/
theorem height_sorted_le : ∀ j : Json, j.sorted.height ≤ j.height
  | .null | .boolean _ | .number _ | .string _ => Nat.le_refl _
  | .array items => by
    rw [sorted, sortedItems_eq_map, height, height]
    refine Nat.succ_le_succ (heightItems_le_iff.2 fun y hy => ?_)
    obtain ⟨x, hx, rfl⟩ := List.mem_map.1 hy
    exact height_sorted_items items x hx
  | .object fields =>
    Nat.succ_le_succ (heightFields_le_iff.2
      (of_mem_sortedFields (P := fun x => x.height ≤ heightFields fields) (height_sorted_fields fields) nofun))

theorem height_sorted_items : ∀ items : List Json, ∀ x ∈ items, x.sorted.height ≤ heightItems items
  | [], _, h => nomatch h
  | x :: rest, y, h => by
    rw [heightItems]
    rcases List.mem_cons.1 h with e | h
    · rw [e]
      exact Nat.le_trans (height_sorted_le x) (Nat.le_max_left _ _)
    · exact Nat.le_trans (height_sorted_items rest y h) (Nat.le_max_right _ _)

theorem height_sorted_fields :
    ∀ fields : List (String × Json), ∀ f ∈ fields, f.2.sorted.height ≤ heightFields fields
  | [], _, h => nomatch h
  | (name, x) :: rest, f, h => by
    rw [heightFields]
    rcases List.mem_cons.1 h with e | h
    · rw [e]
      exact Nat.le_trans (height_sorted_le x) (Nat.le_max_left _ _)
    · exact Nat.le_trans (height_sorted_fields rest f h) (Nat.le_max_right _ _)

end

end FeatureAssembly.Json
