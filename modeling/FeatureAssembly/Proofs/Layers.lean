import FeatureAssembly.Proofs.Overlay
import Mathlib.Data.List.DropRight

/-!
# Features in layers

What features laid over each other in order come to, whatever their number.

**The law** (`Feature.layers_layered`): each part of the result is read off the list of layers. A text
and the value of a key are the last that is there, and a bundle is the last of its identity, in the
order in which identities first occur. For the extensions of one name it is the last as well, unless
that lists artifacts: then it takes in all directly before it that do, and no more (`Extension.joined?`).

A fold of overlays is a fold of what happens to one field (`Feature.layered_hom`). So two inductions on
the number of layers are enough: for what is replaced where it is there (`foldl_or_eq_getLast?`), and
for extensions.

What it does not establish: that the artifacts of an extension are without repetitions. The first list
of a run is taken as it is, and bundles are put in one at a time from the start.
-/

set_option autoImplicit false

namespace FeatureAssembly

/-! ## What is there last -/

/-- A value that is replaced by each that is there is the last that is there. -/
theorem foldl_or_eq_getLast? {α β : Type} (pick : α → Option β) (l : List α) :
    l.foldl (fun last a => (pick a).or last) none = (l.filterMap pick).getLast? := by
  induction l using List.reverseRecOn with
  | nil => rfl
  | append_singleton l a ih =>
    rw [List.foldl_concat, ih, List.filterMap_append]
    cases h : pick a <;> simp [h]

/-! ## Extensions of one name -/

namespace Extension

variable {lower upper : Extension}

/-- The lists of artifacts at the end of some layers, back to what lists none. -/
def finalLists (layers : List Extension) : List Artifacts :=
  (layers.rtakeWhile fun e => e.artifacts?.isSome).filterMap artifacts?

/-- **Extensions of one name in layers**: the last, unless it lists artifacts. Then it is the artifacts
of all at the end that do, those of the first as they are and the others put in one at a time, with the
state of the last. -/
def joined? (layers : List Extension) : Option Extension :=
  match finalLists layers with
  | [] => layers.getLast?
  | first :: others => layers.getLast?.map fun last =>
      ⟨last.state, .artifacts (others.foldl (fun c c' => c.insertAll c'.entries) first)⟩

theorem finalLists_concat_of_none (layers : List Extension) {e : Extension} (h : e.artifacts? = none) :
    finalLists (layers ++ [e]) = [] := by
  rw [finalLists, List.rtakeWhile_concat_neg _ _ _ (by simp [h]), List.filterMap_nil]

theorem finalLists_concat_of_some (layers : List Extension) {e : Extension} {c : Artifacts}
    (h : e.artifacts? = some c) : finalLists (layers ++ [e]) = finalLists layers ++ [c] := by
  rw [finalLists, List.rtakeWhile_concat_pos _ _ _ (by simp [h]), List.filterMap_append]
  simp [finalLists, h]

theorem eq_of_artifacts? {e : Extension} {c : Artifacts} (h : e.artifacts? = some c) :
    e = ⟨e.state, .artifacts c⟩ := by
  obtain ⟨state, content⟩ := e
  cases content with
  | artifacts list =>
    cases h
    rfl
  | structured | text => cases h

/-- Where one of the two lists no artifacts, the upper one replaces the other. -/
theorem overlay_of_none (h : lower.artifacts? = none ∨ upper.artifacts? = none) :
    lower.overlay upper = upper := by
  obtain ⟨state, content⟩ := lower
  obtain ⟨state', content'⟩ := upper
  cases content with
  | artifacts list =>
    cases content' with
    | artifacts list' => cases h <;> contradiction
    | structured | text => rfl
  | structured | text => rfl

/-- **One more layer** is laid over what the others come to. -/
theorem joined?_concat (layers : List Extension) (e : Extension) :
    joined? (layers ++ [e]) = Option.merge overlay (joined? layers) (some e) := by
  cases content : e.artifacts? with
  | none =>
    have last : joined? (layers ++ [e]) = some e := by
      rw [joined?, finalLists_concat_of_none layers content, List.getLast?_concat]
    rw [last]
    cases joined? layers with
    | none => rfl
    | some lower => exact congrArg some (overlay_of_none (.inr content)).symm
  | some c =>
    rw [joined?, finalLists_concat_of_some layers content, List.getLast?_concat, joined?,
      eq_of_artifacts? content]
    cases layers using List.reverseRecOn with
    | nil => rfl
    | append_singleton layers last =>
      rw [List.getLast?_concat]
      cases before : last.artifacts? with
      | none =>
        -- The run begins with the new layer.
        rw [finalLists_concat_of_none layers before]
        exact congrArg some (overlay_of_none (.inl before)).symm
      | some c' =>
        rw [finalLists_concat_of_some layers before]
        cases finalLists layers with
        | nil => rfl
        | cons first others =>
          simp only [List.cons_append, Option.map_some, List.foldl_append, List.foldl_cons, List.foldl_nil]
          rfl

/-- The extensions of one name, one laid over the other. -/
theorem foldl_merge_eq_joined? {α : Type} (pick : α → Option Extension) (l : List α) :
    l.foldl (fun lower a => Option.merge overlay lower (pick a)) none = joined? (l.filterMap pick) := by
  induction l using List.reverseRecOn with
  | nil => rfl
  | append_singleton l a ih =>
    rw [List.foldl_concat, ih, List.filterMap_append]
    cases h : pick a with
    | none => simp [h]
    | some e => simp [h, joined?_concat]

end Extension

/-! ## Features -/

namespace Feature

/-- **What features come to in layers**, under a new identity. -/
structure Layers (id : Identity) (parts : List Feature) (g : Feature) : Prop where
  id : g.id = id
  final : g.assembled = true
  original : g.prototype = none
  title : g.title = (parts.filterMap (·.title)).getLast?
  description : g.description = (parts.filterMap (·.description)).getLast?
  vendor : g.vendor = (parts.filterMap (·.vendor)).getLast?
  license : g.license = (parts.filterMap (·.license)).getLast?
  bundles : g.bundles.entries = Artifacts.gathered (parts.flatMap (·.bundles.entries))
  extensions : ∀ name, g.extensions.get? name =
    Extension.joined? (parts.filterMap (·.extensions.get? name))
  variableValues : ∀ key, g.variableValues.get? key =
    (parts.filterMap (·.variableValues.get? key)).getLast?
  frameworkProperties : ∀ key, g.frameworkProperties.get? key =
    (parts.filterMap (·.frameworkProperties.get? key)).getLast?

variable (id : Identity) (parts : List Feature)

/-- What an overlay does to a part of a feature is what layers do to it in turn. -/
theorem layered_hom {α : Type} (part : Feature → α) (lay : α → Feature → α)
    (step : ∀ lower upper : Feature, part (lower.overlay upper) = lay (part lower) upper) :
    part (layered id parts) = parts.foldl lay (part (of id)) :=
  (List.foldl_hom part fun lower upper => (step lower upper).symm).symm

/-- A part in which the upper one wins where it is there. -/
theorem layered_last {α : Type} (part : Feature → Option α)
    (step : ∀ lower upper : Feature, part (lower.overlay upper) = (part upper).or (part lower))
    (start : part (of id) = none) :
    part (layered id parts) = (parts.filterMap part).getLast? := by
  rw [layered_hom id parts part (fun last f => (part f).or last) step, start]
  exact foldl_or_eq_getLast? part parts

theorem bundles_layered : (layered id parts).bundles = .ofList (parts.flatMap (·.bundles.entries)) := by
  rw [Artifacts.ofList, Artifacts.insertAll, List.foldl_flatMap]
  exact layered_hom id parts (·.bundles) _ fun _ _ => rfl

/-- **Features in layers**, in closed form. -/
theorem layers_layered : Layers id parts { layered id parts with assembled := true } where
  id := Build.id_layered id parts
  final := rfl
  original :=
    (layered_hom id parts (·.prototype) (fun lower _ => lower) fun _ _ => rfl).trans (List.foldl_fixed parts)
  title := layered_last id parts (·.title) (fun _ _ => rfl) rfl
  description := layered_last id parts (·.description) (fun _ _ => rfl) rfl
  vendor := layered_last id parts (·.vendor) (fun _ _ => rfl) rfl
  license := layered_last id parts (·.license) (fun _ _ => rfl) rfl
  bundles := by rw [← Artifacts.entries_ofList, ← bundles_layered id]
  extensions name := by
    have together := layered_hom id parts (·.extensions.get? name)
      (fun lower f => Option.merge Extension.overlay lower (f.extensions.get? name))
      fun lower upper => get?_foldl_overlayExtension lower.extensions upper.extensions name
    exact together.trans (Extension.foldl_merge_eq_joined? _ parts)
  variableValues key :=
    layered_last id parts (·.variableValues.get? key)
      (fun lower upper => SortedMap.get?_insertAll_entries lower.variableValues _ key) rfl
  frameworkProperties key :=
    layered_last id parts (·.frameworkProperties.get? key)
      (fun lower upper => SortedMap.get?_insertAll_entries lower.frameworkProperties _ key) rfl

end Feature

end FeatureAssembly
