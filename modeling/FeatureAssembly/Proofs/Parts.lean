import FeatureAssembly.Merge.Overlay
import FeatureAssembly.Proofs.SortedMap

/-!
# The parts of features

What a feature holds that comes from a document and goes into one: identities, and the documents
in its extensions.

**The law** (`Feature.part_of_overlay`, `Feature.part_of_inherited`): merging makes nothing up.
Every part of a merged feature is a part of one of the features that were merged, or the identity
that was given to it.

What it does not establish: which of them it keeps. That is told by the rules of merging.
-/

set_option autoImplicit false

namespace FeatureAssembly

/-! ## Parts -/

/-- An identity, or a document. -/
inductive Part where
  | identity (id : Identity)
  | document (value : Json)

def Artifacts.parts (c : Artifacts) : List Part := c.ids.map .identity

def Extension.parts (e : Extension) : List Part :=
  match e.content with
  | .artifacts list => list.parts
  | .structured value => [.document value]
  | .text _ => []

def Prototype.parts (p : Prototype) : List Part := .identity p.id :: p.removedBundles.map .identity

namespace Feature

/-- **The parts of a feature.** -/
def parts (f : Feature) : List Part :=
  .identity f.id :: f.bundles.parts ++ f.extensions.values.flatMap Extension.parts ++
    f.prototype.toList.flatMap Prototype.parts

variable {part : Part} {f g : Feature}

/-- A part is the identity of the feature, or it is found in one of three places. -/
theorem mem_parts_iff : part ∈ f.parts ↔ part = .identity f.id ∨ part ∈ f.bundles.parts ∨
    (∃ e ∈ f.extensions.entries, part ∈ e.2.parts) ∨ ∃ p ∈ f.prototype, part ∈ p.parts := by
  have extensions : part ∈ f.extensions.values.flatMap Extension.parts ↔
      ∃ e ∈ f.extensions.entries, part ∈ e.2.parts := by
    rw [SortedMap.values, List.flatMap_map, List.mem_flatMap]
  simp only [parts, List.mem_append, List.mem_cons, extensions, List.mem_flatMap, Option.mem_toList,
    or_assoc, Option.mem_def]

theorem part_of_id (f : Feature) : .identity f.id ∈ f.parts := mem_parts_iff.2 (.inl rfl)

theorem part_of_bundles (h : part ∈ f.bundles.parts) : part ∈ f.parts := mem_parts_iff.2 (.inr (.inl h))

theorem part_of_extension {e : String × Extension} (he : e ∈ f.extensions.entries) (h : part ∈ e.2.parts) :
    part ∈ f.parts :=
  mem_parts_iff.2 (.inr (.inr (.inl ⟨e, he, h⟩)))

theorem part_of_prototype {p : Prototype} (hp : p ∈ f.prototype) (h : part ∈ p.parts) : part ∈ f.parts :=
  mem_parts_iff.2 (.inr (.inr (.inr ⟨p, hp, h⟩)))

end Feature

/-! ## Artifacts -/

namespace Artifacts

variable {part : Part}

theorem mem_parts_iff {c : Artifacts} : part ∈ c.parts ↔ ∃ a ∈ c.entries, part = .identity a.id := by
  simp [parts, ids, eq_comm]

theorem eq_or_mem_of_mem_insertEntry {a b : Artifact} {l : List Artifact} (h : b ∈ insertEntry a l) :
    b = a ∨ b ∈ l := by
  induction l with
  | nil => exact .inl (List.mem_singleton.1 h)
  | cons c rest ih =>
    rw [insertEntry] at h
    split at h
    · rcases List.mem_cons.1 h with rfl | h
      · exact .inl rfl
      · exact .inr (List.mem_cons_of_mem c h)
    · rcases List.mem_cons.1 h with rfl | h
      · exact .inr List.mem_cons_self
      · exact (ih h).imp_right (List.mem_cons_of_mem c)

theorem part_of_insert {c : Artifacts} {a : Artifact} (h : part ∈ (c.insert a).parts) :
    part = .identity a.id ∨ part ∈ c.parts := by
  obtain ⟨b, hb, rfl⟩ := mem_parts_iff.1 h
  rcases eq_or_mem_of_mem_insertEntry hb with rfl | hb
  · exact .inl rfl
  · exact .inr (mem_parts_iff.2 ⟨b, hb, rfl⟩)

theorem part_of_insertAll {c c' : Artifacts} (h : part ∈ (c.insertAll c'.entries).parts) :
    part ∈ c.parts ∨ part ∈ c'.parts := by
  obtain ⟨l⟩ := c'
  induction l generalizing c with
  | nil => exact .inl h
  | cons a l ih =>
    rcases ih (c := c.insert a) h with h | h
    · rcases part_of_insert h with rfl | h
      · exact .inr (mem_parts_iff.2 ⟨a, List.mem_cons_self, rfl⟩)
      · exact .inl h
    · obtain ⟨b, hb, rfl⟩ := mem_parts_iff.1 h
      exact .inr (mem_parts_iff.2 ⟨b, List.mem_cons_of_mem a hb, rfl⟩)

theorem part_of_erase {ids : List Identity} {c : Artifacts} (h : part ∈ (ids.foldl erase c).parts) :
    part ∈ c.parts := by
  induction ids generalizing c with
  | nil => exact h
  | cons id ids ih =>
    obtain ⟨a, ha, rfl⟩ := mem_parts_iff.1 (ih h)
    exact mem_parts_iff.2 ⟨a, List.mem_of_mem_eraseP ha, rfl⟩

end Artifacts

/-! ## Extensions -/

variable {part : Part}

theorem Extension.part_of_overlay {lower upper : Extension} (h : part ∈ (lower.overlay upper).parts) :
    part ∈ lower.parts ∨ part ∈ upper.parts := by
  obtain ⟨state, content⟩ := lower
  obtain ⟨state', content'⟩ := upper
  cases content with
  | artifacts old =>
    cases content' with
    | artifacts new => exact Artifacts.part_of_insertAll h
    | structured | text => exact .inr h
  | structured | text => exact .inr h

theorem part_of_overlayExtension {lower : SortedMap String Extension} {u e : String × Extension}
    (he : e ∈ (overlayExtension lower u).entries) (h : part ∈ e.2.parts) :
    (∃ e' ∈ lower.entries, part ∈ e'.2.parts) ∨ part ∈ u.2.parts := by
  unfold overlayExtension at he
  split at he
  · next old found =>
    rcases SortedMap.of_mem_insertEntry he with value | he
    · rw [value] at h
      refine (Extension.part_of_overlay h).imp_left fun h => ?_
      exact ⟨(u.1, old), SortedMap.get?_eq_some_iff.1 found, h⟩
    · exact .inl ⟨e, he, h⟩
  · rcases SortedMap.of_mem_insertEntry he with value | he
    · exact .inr (value ▸ h)
    · exact .inl ⟨e, he, h⟩

theorem part_of_overlayExtensions {upper : List (String × Extension)} {lower : SortedMap String Extension}
    {e : String × Extension} (he : e ∈ (upper.foldl overlayExtension lower).entries)
    (h : part ∈ e.2.parts) :
    (∃ e' ∈ lower.entries, part ∈ e'.2.parts) ∨ ∃ u ∈ upper, part ∈ u.2.parts := by
  induction upper generalizing lower with
  | nil => exact .inl ⟨e, he, h⟩
  | cons u upper ih =>
    rcases ih he with ⟨e', he', h'⟩ | ⟨u', hu', h'⟩
    · rcases part_of_overlayExtension he' h' with lower | here
      · exact .inl lower
      · exact .inr ⟨u, List.mem_cons_self, here⟩
    · exact .inr ⟨u', List.mem_cons_of_mem u hu', h'⟩

theorem mem_of_mem_erase {names : List String} {m : SortedMap String Extension} {e : String × Extension}
    (h : e ∈ (names.foldl SortedMap.erase m).entries) : e ∈ m.entries := by
  induction names generalizing m with
  | nil => exact h
  | cons name names ih => exact (List.mem_filter.1 (ih h)).1

/-! ## Features -/

namespace Feature

/-- **A feature that is laid over another** has its parts from the two of them. -/
theorem part_of_overlay {lower upper : Feature} (h : part ∈ (lower.overlay upper).parts) :
    part ∈ lower.parts ∨ part ∈ upper.parts := by
  rcases mem_parts_iff.1 h with rfl | h | ⟨e, he, h⟩ | ⟨p, hp, h⟩
  · exact .inl lower.part_of_id
  · exact (Artifacts.part_of_insertAll h).imp part_of_bundles part_of_bundles
  · rcases part_of_overlayExtensions he h with ⟨e', he', h'⟩ | ⟨u, hu, h'⟩
    · exact .inl (part_of_extension he' h')
    · exact .inr (part_of_extension hu h')
  · exact .inl (part_of_prototype hp h)

/-- **What is inherited** has its parts from the prototype, but for the identity. -/
theorem part_of_inherited {id : Identity} {parent : Feature} {prototype : Prototype}
    (h : part ∈ (inherited id parent prototype).parts) : part = .identity id ∨ part ∈ parent.parts := by
  rcases mem_parts_iff.1 h with rfl | h | ⟨e, he, h⟩ | ⟨p, hp, -⟩
  · exact .inl rfl
  · exact .inr (part_of_bundles (Artifacts.part_of_erase h))
  · exact .inr (part_of_extension (mem_of_mem_erase he) h)
  · cases hp

/-- A final feature has no parts from its prototype. -/
theorem part_of_finished {f : Feature} (h : part ∈ f.finished.parts) : part ∈ f.parts := by
  rcases mem_parts_iff.1 h with rfl | h | ⟨e, he, h⟩ | ⟨p, hp, -⟩
  · exact f.part_of_id
  · exact part_of_bundles h
  · exact part_of_extension he h
  · cases hp

/-- A feature that has only an identity. -/
theorem part_of_of {id : Identity} (h : part ∈ (of id).parts) : part = .identity id := by
  rcases mem_parts_iff.1 h with rfl | h | ⟨e, he, -⟩ | ⟨p, hp, -⟩
  · rfl
  · cases h
  · cases he
  · cases hp

theorem part_of_overlays {features : List Feature} {base : Feature}
    (h : part ∈ (features.foldl overlay base).parts) :
    part ∈ base.parts ∨ ∃ f ∈ features, part ∈ f.parts := by
  induction features generalizing base with
  | nil => exact .inl h
  | cons f features ih =>
    rcases ih h with h | ⟨g, hg, h⟩
    · exact (part_of_overlay h).imp_right fun h => ⟨f, List.mem_cons_self, h⟩
    · exact .inr ⟨g, List.mem_cons_of_mem f hg, h⟩

/-- **Features in layers** have their parts from one of them, but for the identity. -/
theorem part_of_layered {id : Identity} {features : List Feature} (h : part ∈ (layered id features).parts) :
    part = .identity id ∨ ∃ f ∈ features, part ∈ f.parts :=
  (part_of_overlays h).imp_left part_of_of

end Feature

end FeatureAssembly
