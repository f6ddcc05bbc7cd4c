import FeatureAssembly.Feature
import FeatureAssembly.Files.FileError
import FeatureAssembly.Json.Fault

/-!
# Loaders

Features that no module of the build owns come from a loader, which answers with
the feature of an identity or says why it cannot.
-/

namespace FeatureAssembly

/-- Why an external artifact cannot be loaded. -/
inductive LoadError where
  | notFound (id : Identity)
  /-- The identity has no place in a repository. -/
  | invalidCoordinate (id : Identity)
  | read (path : String) (reason : FileError)
  /-- The artifact is no feature. -/
  | parse (path : String) (fault : Json.Fault)
deriving DecidableEq

namespace LoadError

/-- Whether the artifact does not exist. -/
def isNotFound : LoadError → Bool
  | .notFound _ => true
  | _ => false

def message : LoadError → String
  | .notFound id => s!"artifact {id.text} not found"
  | .invalidCoordinate id => s!"artifact {id.text} cannot be stored in a repository"
  | .read path reason => s!"failed to read '{path}': {reason.message}"
  | .parse path fault => s!"failed to parse feature '{path}': {fault.message}"

end LoadError

/-- **A loader of features.** It answers an identity the same way each time: what it reads is not changed
while a build runs. -/
abbrev FeatureLoader : Type := Identity → Except LoadError Feature

/-- The loader that has the features of a table and nothing else. -/
def FeatureLoader.ofTable (features : SortedMap Identity Feature) : FeatureLoader :=
  fun id =>
    match features.get? id with
    | some f => .ok f
    | none => .error (.notFound id)

end FeatureAssembly
