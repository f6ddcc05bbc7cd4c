import FeatureAssembly.Feature

/-!
# Laying features over each other

`Feature.overlay` lays one feature over another: texts that the upper one has win,
artifacts are replaced or appended, and tables are overridden key by key.
`Feature.inherited` turns a prototype into the feature to lay something over.

**The rules** for what both features have:

- a bundle of the upper feature takes the place of the first one with its identity;
- two extensions that list artifacts are merged like bundles, with the state of the
  upper one; any other extension of the upper feature replaces the lower one;
- variables and framework properties of the upper feature win.
-/

namespace FeatureAssembly

/-- Lay an extension over another of the same name. -/
def Extension.overlay (lower upper : Extension) : Extension :=
  match lower.content, upper.content with
  | .artifacts old, .artifacts new => ⟨upper.state, .artifacts (old.insertAll new.entries)⟩
  | _, _ => upper

/-- Lay an extension over the one of its name, if there is one. -/
def overlayExtension (lower : SortedMap String Extension) (e : String × Extension) :
    SortedMap String Extension :=
  match lower.get? e.1 with
  | some old => lower.insert e.1 (old.overlay e.2)
  | none => lower.insert e.1 e.2

namespace Feature

/-- **Lay a feature over another.** Identity, prototype and mark are those of the lower
one. -/
def overlay (lower upper : Feature) : Feature :=
  { lower with
    title := upper.title.or lower.title
    description := upper.description.or lower.description
    vendor := upper.vendor.or lower.vendor
    license := upper.license.or lower.license
    bundles := lower.bundles.insertAll upper.bundles.entries
    extensions := upper.extensions.entries.foldl overlayExtension lower.extensions
    variableValues := lower.variableValues.insertAll upper.variableValues.entries
    frameworkProperties := lower.frameworkProperties.insertAll upper.frameworkProperties.entries }

/-- **What a feature inherits from a prototype**: all but its title, its description and
what is left out. -/
def inherited (id : Identity) (parent : Feature) (prototype : Prototype) : Feature :=
  { parent with
    id
    title := none
    description := none
    bundles := prototype.removedBundles.foldl Artifacts.erase parent.bundles
    extensions := prototype.removedExtensions.foldl SortedMap.erase parent.extensions
    prototype := none
    assembled := false }

/-- The feature as a final one. -/
def finished (f : Feature) : Feature := { f with prototype := none, assembled := true }

/-- Features laid over each other, in order, under a new identity. -/
def layered (id : Identity) (parts : List Feature) : Feature := parts.foldl overlay (.of id)

end Feature

end FeatureAssembly
