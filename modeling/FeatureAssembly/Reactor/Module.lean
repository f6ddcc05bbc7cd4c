import FeatureAssembly.Feature.Codec

/-!
# Modules

A module of the build: its coordinates, its packaging, its directory, the modules
that must be built before it, and its dependencies. A dependency is added to a module
only if the module does not own it and does not have it yet.
-/

namespace FeatureAssembly

open Json

/-- A declared dependency of a module. -/
structure Dependency where
  id : Identity
  scope : String
deriving DecidableEq, Inhabited

namespace Dependency

/-- Whether a dependency is missing in the list of a module: the module does not own it
and it is not listed yet. -/
def isMissing (key : ModuleKey) (listed : List Dependency) (id : Identity) : Bool :=
  !id.isOwnedBy key && !listed.any fun d => d.id == id

/-- The list of a module with a dependency, added with a scope if it is missing. -/
def ensure (key : ModuleKey) (listed : List Dependency) (id : Identity) (scope : String) :
    List Dependency :=
  if isMissing key listed id then listed ++ [⟨id, scope⟩] else listed

end Dependency

/-- **A module of the build.** -/
structure Module where
  group : String
  name : String
  version : String
  /-- The packaging of what the module builds: `jar`, `bundle`, `pom`, `feature`, … -/
  packaging : String
  dir : String
  /-- The modules that must be built before this one. -/
  dependsOn : List ModuleKey
  dependencies : List Dependency
deriving DecidableEq, Inhabited

namespace Module

/-- The module with the default packaging, in the directory of its name. -/
def of (group name version : String) : Module :=
  { group, name, version, packaging := defaultType, dir := name, dependsOn := [],
    dependencies := [] }

def key (m : Module) : ModuleKey := .of m.group m.name

def identityAs (m : Module) (type : String) : Identity :=
  (Identity.of m.group m.name m.version).withType type

def identity (m : Module) : Identity := m.identityAs m.packaging

/-- Whether the module builds exactly one packaged unit. -/
def hasPackagedUnit (m : Module) : Bool := m.packaging != "pom" && m.packaging != featureType

def lacks (m : Module) (id : Identity) : Bool := Dependency.isMissing m.key m.dependencies id

/-- The module with other dependencies. -/
def dependingOn (m : Module) (dependencies : List Dependency) : Module := { m with dependencies }

@[simp] theorem key_dependingOn (m : Module) (dependencies : List Dependency) :
    (m.dependingOn dependencies).key = m.key := rfl

/-- Add a dependency that is missing, with a scope. -/
def ensure (m : Module) (id : Identity) (scope : String) : Module :=
  { m with dependencies := Dependency.ensure m.key m.dependencies id scope }

end Module

/-! ## Documents -/

def Dependency.codec : Codec Dependency :=
  .record "Dependency"
    (.required "id" Identity.codec <| .required "scope" .text .nil)
    (fun (id, scope, ()) => ⟨id, scope⟩)
    (fun d => (d.id, d.scope, ()))

def Module.codec : Codec Module :=
  .record "Module"
    (.required "group" .text <|
      .required "name" .text <|
      .required "version" .text <|
      .defaulted "packaging" .text defaultType <|
      .defaulted "dir" .path "" <|
      .optional "depends_on" (.list ModuleKey.codec) [] List.isEmpty <|
      .optional "dependencies" (.list Dependency.codec) [] List.isEmpty .nil)
    (fun (group, name, version, packaging, dir, dependsOn, dependencies, ()) =>
      { group, name, version, packaging, dir, dependsOn, dependencies })
    (fun m => (m.group, m.name, m.version, m.packaging, m.dir, m.dependsOn, m.dependencies, ()))

end FeatureAssembly
