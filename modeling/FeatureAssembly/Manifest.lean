import FeatureAssembly.Config
import FeatureAssembly.Files.FileSystem
import FeatureAssembly.Reactor

/-!
# Manifests

The document that describes a build: its modules, its options, and the repository for
features from outside. Relative paths in it are meant from the directory of the
manifest.
-/

namespace FeatureAssembly

open Json

/-- **The description of a build.** -/
structure Manifest where
  /-- The directory of the repository, if it is not the default one. -/
  repository : Option String
  config : AssemblyConfig
  modules : List Module
deriving DecidableEq, Inhabited

/-- Why a manifest cannot be had. -/
inductive ManifestError where
  | read (path : String) (reason : FileError)
  | parse (path : String) (fault : Json.Fault)
deriving DecidableEq

def ManifestError.message : ManifestError → String
  | .read path reason => s!"failed to read reactor manifest '{path}': {reason.message}"
  | .parse path fault => s!"failed to parse reactor manifest '{path}': {fault.message}"

namespace Manifest

def codec : Codec Manifest :=
  .record "ReactorManifest"
    (.optional "repository" (.nullable .path) none Option.isNone <|
      .defaulted "config" AssemblyConfig.codec .default <|
      .required "modules" (.list Module.codec) .nil)
    (fun (repository, config, modules, ()) => { repository, config, modules })
    (fun m => (m.repository, m.config, m.modules, ()))

/-- A module with its directory meant from a base. A module without directory is in the
directory of its name. -/
def resolveModule (base : String) (m : Module) : Module :=
  { m with dir := Path.join base (if m.dir = "" then m.name else m.dir) }

/-- The manifest with all paths meant from a base. -/
def resolve (base : String) (m : Manifest) : Manifest :=
  { m with
    modules := m.modules.map (resolveModule base)
    repository := m.repository.map (Path.join base) }

/-- The directory that the paths of a manifest are meant from: the one that holds it, in
its canonical form if it has one. -/
def baseOf (fs : FileSystem) (path : String) : String :=
  match Path.parent? path with
  | none => ""
  | some parent =>
    match fs.canonical parent with
    | .ok base => base
    | .error _ => parent

/-- **Load a manifest** and resolve its paths. -/
def load (fs : FileSystem) (path : String) : Except ManifestError Manifest := do
  let text ← (fs.readText path).mapError (.read path)
  let manifest ← (codec.decode text).mapError (.parse path)
  return manifest.resolve (baseOf fs path)

def reactor (m : Manifest) : Except ReactorError Reactor := Reactor.ofModules m.modules

end Manifest

end FeatureAssembly
