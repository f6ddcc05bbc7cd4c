import FeatureAssembly.Feature.Codec
import FeatureAssembly.Files.FileSystem
import FeatureAssembly.Loader

/-!
# Repositories

The loader of a build that works on files. An artifact has its file in a directory for
its group, its name and its version:

    <root>/org/example/base/1.0/base-1.0-web.feature

Only identities whose parts can stand in a path have a file in the repository.
-/

namespace FeatureAssembly

/-- **A repository**, given by the path of its directory. -/
structure Repository where
  root : String
deriving DecidableEq, Inhabited

namespace Repository

def fileName (id : Identity) : String :=
  match id.classifier with
  | some c => s!"{id.name}-{id.version}-{c}.{id.type}"
  | none => s!"{id.name}-{id.version}.{id.type}"

/-- The parts of a group, for which there is a directory each. -/
def groupParts (id : Identity) : List String := Text.segments '.' id.group

/-- **The path of an artifact.** -/
def artifactPath (r : Repository) (id : Identity) : String :=
  (groupParts id ++ [id.name, id.version, fileName id]).foldl Path.join r.root

/-- Whether an identity has a file in the repository: its parts are path components, and
so are the parts of its group, of which some may be empty. -/
def hasPlace (id : Identity) : Bool :=
  ((groupParts id).filter (· != "") ++ [id.name, id.version, id.type] ++ id.classifier.toList).all
    isPathComponent

/-- The path of an artifact that has a place. -/
def checkedPath (r : Repository) (id : Identity) : Except LoadError String :=
  if hasPlace id then .ok (r.artifactPath id) else .error (.invalidCoordinate id)

/-- **Load the feature of an identity.** -/
def load (r : Repository) (fs : FileSystem) : FeatureLoader := fun id => do
  let path ← r.checkedPath id
  match fs.readText path with
  | .error .notFound => throw (.notFound id)
  | .error e => throw (.read path e)
  | .ok text => (Feature.codec.decode text).mapError (.parse path)

/-- **The file of an artifact.** -/
def locate (r : Repository) (fs : FileSystem) (id : Identity) : Except LoadError String := do
  let path ← r.checkedPath id
  if fs.isFile path then return path else throw (.notFound id)

end Repository

end FeatureAssembly
