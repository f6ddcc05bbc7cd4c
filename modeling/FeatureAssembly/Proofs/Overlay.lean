import FeatureAssembly.Proofs.RepeatedArtifacts
import Mathlib.Data.List.Count

/-!
# Overlays in closed form

What the operations that lay features over each other come to, without the order of their steps.

**The laws**: artifacts that are put in one at a time leave the old ones in place, each as it was put
in last, and add the new identities in the order in which they first occur
(`Artifacts.entries_insertAll`). Tables that are laid over each other are merged key by key
(`SortedMap.get?_foldl_merge`).

A list of artifacts without repetitions is its identities and what it finds for them
(`Artifacts.entries_eq`), and both are simpler than the list: new identities go to the end
(`Artifacts.ids_insertAll`), and what is found is the last that was put in (`Artifacts.get?_insertAll`).

What it does not establish: which place a repeated identity has. An insertion replaces the first
artifact that has it, and an erasure drops that one only.
-/

set_option autoImplicit false

namespace FeatureAssembly

/-! ## Lists of artifacts -/

namespace Artifacts

variable {c : Artifacts} {l : List Artifact} {id : Identity} {removed : List Identity}

/-- The last artifact of a list with an identity. -/
def last? (l : List Artifact) (id : Identity) : Option Artifact := l.findRev? fun a => a.id == id

/-- **One list of artifacts laid over another**: the artifacts of the lower one in their places, each as
the last of its identity in the upper one if it is there as well, and then the identities that only
the upper one has, in the order in which they first occur, each as the last of them. -/
def combined (lower upper : List Artifact) : List Artifact :=
  lower.map (fun a => (last? upper a.id).getD a) ++
    ((upper.map (·.id)).removeAll (lower.map (·.id))).eraseDups.filterMap (last? upper)

/-- **Artifacts put in one at a time** from the start: the identities in the order in which they first
occur, each as the last of them. -/
def gathered (l : List Artifact) : List Artifact := (l.map (·.id)).eraseDups.filterMap (last? l)

theorem last?_cons (a : Artifact) (l : List Artifact) (id : Identity) :
    last? (a :: l) id = (last? l id).or (if a.id = id then some a else none) := by
  unfold last?
  rw [List.findRev?]
  cases l.findRev? fun a => a.id == id <;> simp

theorem mem_ids_iff : id ∈ c.ids ↔ ∃ a, c.get? id = some a := by
  rw [get?, ← Option.isSome_iff_exists, List.find?_isSome, ids, List.mem_map]
  simp only [beq_iff_eq]

theorem get?_insert (c : Artifacts) (a : Artifact) (id : Identity) :
    (c.insert a).get? id = if a.id = id then some a else c.get? id := by
  obtain ⟨l⟩ := c
  show (insertEntry a l).find? _ = if a.id = id then some a else l.find? _
  induction l with
  | nil => simp [insertEntry, List.find?_singleton]
  | cons b rest ih =>
    rw [insertEntry]
    split
    · next same =>
      rw [List.find?_cons, List.find?_cons, same]
      by_cases here : a.id = id
      · rw [if_pos here, beq_iff_eq.2 here]
      · rw [if_neg here, beq_false_of_ne here]
    · next other =>
      rw [List.find?_cons, List.find?_cons, ih]
      by_cases here : b.id = id
      · have elsewhere : a.id ≠ id := fun there => other (here.trans there.symm)
        rw [beq_iff_eq.2 here]
        exact (if_neg elsewhere).symm
      · rw [beq_false_of_ne here]

/-- What is found after a list is put in: the last one of the list, or what was there. -/
theorem get?_insertAll (c : Artifacts) (l : List Artifact) (id : Identity) :
    (c.insertAll l).get? id = (last? l id).or (c.get? id) := by
  induction l generalizing c with
  | nil => rfl
  | cons a l ih =>
    rw [last?_cons, Option.or_assoc]
    refine (ih (c.insert a)).trans ?_
    rw [get?_insert]
    split <;> rfl

/-- Identities that are put in are added in the order in which they first occur. -/
theorem ids_insertAll (c : Artifacts) (l : List Artifact) :
    (c.insertAll l).ids = c.ids ++ ((l.map (·.id)).removeAll c.ids).eraseDups := by
  induction l generalizing c with
  | nil => exact (List.append_nil _).symm
  | cons a l ih =>
    refine (ih (c.insert a)).trans ?_
    rw [ids_insert, List.map_cons, List.cons_removeAll]
    split
    · next there => simp [there]
    · next absent =>
      -- What is left of the list is neither among the old identities nor the new one.
      have rest : (l.map (·.id)).removeAll (c.ids ++ [a.id]) =
          ((l.map (·.id)).removeAll c.ids).filter fun id => !id == a.id := by
        rw [List.removeAll, List.removeAll, List.filter_filter]
        refine List.filter_congr fun id _ => ?_
        rw [Bool.eq_iff_iff]
        simp [and_comm]
      simp [absent, List.eraseDups_cons, rest]

theorem mem_ids_insertAll : id ∈ (c.insertAll l).ids ↔ id ∈ c.ids ∨ id ∈ l.map (·.id) := by
  rw [ids_insertAll, List.mem_append, List.mem_eraseDups, List.removeAll, List.mem_filter]
  by_cases there : id ∈ c.ids <;> simp [there]

theorem nodup_ids_insertAll (h : c.ids.Nodup) (l : List Artifact) : (c.insertAll l).ids.Nodup :=
  nodup_ids_iff.2 fun id twice => nodup_ids_iff.1 h id twice.of_insertAll

theorem get?_of_mem (h : c.ids.Nodup) {a : Artifact} (ha : a ∈ c.entries) : c.get? a.id = some a := by
  obtain ⟨b, hb⟩ := mem_ids_iff.1 (List.mem_map_of_mem (f := (·.id)) ha)
  have same : b.id = a.id := by simpa using List.find?_some hb
  rw [hb, List.inj_on_of_nodup_map h (List.mem_of_find?_eq_some hb) ha same]

/-- **A list without repetitions is its identities and what it finds for them.** -/
theorem entries_eq (h : c.ids.Nodup) : c.entries = c.ids.filterMap c.get? := by
  rw [ids, List.filterMap_map]
  exact (List.filterMap_some.symm.trans (List.filterMap_congr fun a ha => (get?_of_mem h ha).symm))

/-- **Artifacts put in one at a time**, in closed form. -/
theorem entries_insertAll (h : c.ids.Nodup) (l : List Artifact) :
    (c.insertAll l).entries = combined c.entries l := by
  rw [entries_eq (nodup_ids_insertAll h l), ids_insertAll, List.filterMap_append]
  congr 1
  · rw [ids, List.filterMap_map, ← List.filterMap_eq_map]
    refine List.filterMap_congr fun a ha => ?_
    rw [Function.comp_apply, get?_insertAll, get?_of_mem h ha, Function.comp_apply]
    cases last? l a.id <;> rfl
  · refine List.filterMap_congr fun id hid => ?_
    have absent : id ∉ c.ids := by
      rw [List.mem_eraseDups, List.removeAll, List.mem_filter] at hid
      simpa using hid.2
    rw [get?_insertAll, Option.eq_none_iff_forall_ne_some.2 fun a ha => absent (mem_ids_iff.2 ⟨a, ha⟩),
      Option.or_none]

theorem entries_ofList (l : List Artifact) : (ofList l).entries = gathered l := by
  refine (entries_insertAll (c := empty) List.nodup_nil l).trans ?_
  simp [combined, gathered, empty, List.removeAll]

/-- Identities are erased as often as they are listed. -/
theorem ids_foldl_erase (c : Artifacts) (removed : List Identity) :
    (removed.foldl erase c).ids = c.ids.diff removed := by
  induction removed generalizing c with
  | nil => rfl
  | cons id removed ih =>
    have first : (c.erase id).ids = c.ids.erase id := by
      rw [List.erase_eq_eraseP', ids, ids, List.eraseP_map]
      rfl
    rw [List.foldl_cons, ih, first, List.diff_cons]

theorem entries_erase (h : c.ids.Nodup) (id : Identity) :
    (c.erase id).entries = c.entries.filter fun a => a.id != id := by
  obtain ⟨l⟩ := c
  show l.eraseP _ = _
  induction l with
  | nil => rfl
  | cons a rest ih =>
    obtain ⟨absent, h⟩ : a.id ∉ rest.map (·.id) ∧ (rest.map (·.id)).Nodup := List.nodup_cons.1 h
    by_cases here : a.id = id
    · have others : ∀ b ∈ rest, b.id != id := fun b hb =>
        bne_iff_ne.2 fun same => absent (here.trans same.symm ▸ List.mem_map_of_mem (f := (·.id)) hb)
      rw [List.eraseP_cons_of_pos (by simp [here]), List.filter_cons_of_neg (by simp [here]),
        List.filter_eq_self.2 others]
    · rw [List.eraseP_cons_of_neg (by simp [here]), List.filter_cons_of_pos (by simp [here]), ih h]

/-- Where nothing is repeated, all that is listed is erased. -/
theorem entries_foldl_erase (h : c.ids.Nodup) (removed : List Identity) :
    (removed.foldl erase c).entries = c.entries.filter fun a => a.id ∉ removed := by
  induction removed generalizing c with
  | nil => simp
  | cons id removed ih =>
    have fewer : (c.erase id).ids.Sublist c.ids := List.eraseP_sublist.map _
    rw [List.foldl_cons, ih (h.sublist fewer), entries_erase h, List.filter_filter]
    refine List.filter_congr fun a _ => ?_
    rw [Bool.eq_iff_iff]
    simp [and_comm]

end Artifacts

/-! ## Tables -/

namespace SortedMap

variable {κ α : Type} [Ord κ] [Std.LawfulEqOrd κ] [DecidableEq κ]

/-- **Entries that are merged into a table one at a time** are merged key by key. -/
theorem get?_foldl_merge {f : SortedMap κ α → κ × α → SortedMap κ α} {op : α → α → α}
    (step : ∀ m e k, (f m e).get? k = Option.merge op (m.get? k) (if k = e.1 then some e.2 else none))
    {l : List (κ × α)} (ascend : KeysAscend l) (m : SortedMap κ α) (k : κ) :
    (l.foldl f m).get? k = Option.merge op (m.get? k) (lookupEntry k l) := by
  induction l generalizing m with
  | nil => exact Option.merge_none_right.symm
  | cons e l ih =>
    obtain ⟨first, ascend⟩ := List.pairwise_cons.1 ascend
    rw [List.foldl_cons, ih ascend, step, lookupEntry]
    by_cases here : k = e.1
    · -- Its key does not come again.
      have last : lookupEntry k l = none := Option.eq_none_iff_forall_ne_some.2 fun v found => by
        have := first _ (mem_of_lookupEntry found)
        rw [here, Std.ReflOrd.compare_self] at this
        cases this
      rw [if_pos here, last, Option.merge_none_right, here, Std.ReflOrd.compare_self]
    · rw [if_neg here, Option.merge_none_right]
      split
      · next same => exact absurd (Std.LawfulEqOrd.eq_of_compare same) here
      · rfl

/-- A table that is put into another wins key by key. -/
theorem get?_insertAll_entries [Std.TransOrd κ] (m m' : SortedMap κ α) (k : κ) :
    (m.insertAll m'.entries).get? k = (m'.get? k).or (m.get? k) := by
  have step : ∀ (m : SortedMap κ α) (e : κ × α) (k : κ), (m.insert e.1 e.2).get? k =
      Option.merge (fun _ v => v) (m.get? k) (if k = e.1 then some e.2 else none) := fun m e k => by
    rw [get?_insert_eq]
    split <;> cases m.get? k <;> rfl
  refine (get?_foldl_merge step m'.ascend m k).trans ?_
  show Option.merge _ _ (m'.get? k) = _
  cases m.get? k <;> cases m'.get? k <;> rfl

theorem get?_foldl_erase (m : SortedMap κ α) (keys : List κ) (k : κ) :
    (keys.foldl erase m).get? k = if k ∈ keys then none else m.get? k := by
  induction keys generalizing m with
  | nil => simp
  | cons k' keys ih =>
    rw [List.foldl_cons, ih, get?_erase]
    by_cases here : k = k' <;> simp [here]

end SortedMap

/-! ## Features -/

/-- **One extension laid over another**: two that list artifacts are combined, with the state of the
upper one, and any other gives way. -/
def Extension.combined (lower upper : Extension) : Extension :=
  match lower.content, upper.content with
  | .artifacts old, .artifacts new =>
    ⟨upper.state, .artifacts ⟨Artifacts.combined old.entries new.entries⟩⟩
  | _, _ => upper

/-- Where the lower extension repeats nothing, the two are combined. -/
theorem Extension.overlay_eq_combined {lower upper : Extension}
    (h : ∀ list, lower.content = .artifacts list → list.ids.Nodup) :
    lower.overlay upper = lower.combined upper := by
  obtain ⟨state, content⟩ := lower
  obtain ⟨state', content'⟩ := upper
  cases content with
  | artifacts old =>
    cases content' with
    | artifacts new =>
      refine congrArg (fun entries => Extension.mk state' (.artifacts ⟨entries⟩)) ?_
      exact Artifacts.entries_insertAll (h old rfl) new.entries
    | structured | text => rfl
  | structured | text => rfl

/-- **Extensions are laid over each other name by name.** -/
theorem Feature.get?_foldl_overlayExtension (m m' : SortedMap String Extension) (name : String) :
    (m'.entries.foldl overlayExtension m).get? name =
      Option.merge Extension.overlay (m.get? name) (m'.get? name) := by
  refine SortedMap.get?_foldl_merge (fun m e k => ?_) m'.ascend m name
  unfold overlayExtension
  split
  · next old found =>
    rw [SortedMap.get?_insert_eq]
    split
    · next here => rw [here, found]; rfl
    · rw [Option.merge_none_right]
  · next missing =>
    rw [SortedMap.get?_insert_eq]
    split
    · next here => rw [here, missing]; rfl
    · rw [Option.merge_none_right]

end FeatureAssembly
