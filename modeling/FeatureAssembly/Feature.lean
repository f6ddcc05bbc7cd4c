import FeatureAssembly.Identity
import FeatureAssembly.SortedMap
import FeatureAssembly.Json.Value

/-!
# Features

A feature is a named, versioned descriptor: bundles to install, extensions,
variables and framework properties, and perhaps a prototype to inherit from. A
raw feature is as somebody wrote it; an assembled one is final and is never
merged again.
-/

namespace FeatureAssembly

/-! ## Artifacts -/

/-- A reference to a bundle or a module artifact. -/
structure Artifact where
  id : Identity
  startOrder : Option UInt32
  /-- Notes for other tools, kept as they are. -/
  metadata : SortedMap String String
deriving DecidableEq, Inhabited

def Artifact.of (id : Identity) : Artifact := ⟨id, none, .empty⟩

/-- **An ordered collection of artifacts.** Its operations keep the identities
distinct; a collection that was read from a document holds what stood there. -/
structure Artifacts where
  entries : List Artifact
deriving DecidableEq, Inhabited

namespace Artifacts

def empty : Artifacts := ⟨[]⟩

/-- Put an artifact in the place of the first one with its identity, or at the end. -/
def insertEntry (a : Artifact) : List Artifact → List Artifact
  | [] => [a]
  | b :: rest => if b.id = a.id then a :: rest else b :: insertEntry a rest

/-- Put an artifact in the place of the first one with its identity, or at the end. -/
def insert (c : Artifacts) (a : Artifact) : Artifacts := ⟨insertEntry a c.entries⟩

/-- Put all artifacts of a list, in turn. -/
def insertAll (c : Artifacts) (l : List Artifact) : Artifacts := l.foldl insert c

/-- The collection of a list of artifacts, inserted in turn. -/
def ofList (l : List Artifact) : Artifacts := empty.insertAll l

/-- The first artifact with an identity. -/
def get? (c : Artifacts) (id : Identity) : Option Artifact := c.entries.find? fun a => a.id == id

def contains (c : Artifacts) (id : Identity) : Bool := (c.get? id).isSome

/-- Put an artifact in as `insert` does, and tell whether its identity is new. -/
def put (c : Artifacts) (a : Artifact) : Bool × Artifacts :=
  match c.entries.findIdx? fun b => b.id == a.id with
  | some position => (false, ⟨c.entries.set position a⟩)
  | none => (true, ⟨c.entries ++ [a]⟩)

/-- Drop the first artifact with an identity. -/
def erase (c : Artifacts) (id : Identity) : Artifacts :=
  ⟨c.entries.eraseP fun a => a.id == id⟩

/-- Take the first artifact with an identity out, and tell which it was. -/
def take (c : Artifacts) (id : Identity) : Option Artifact × Artifacts :=
  match c.entries.findIdx? fun a => a.id == id with
  | some position => (c.entries[position]?, ⟨c.entries.eraseIdx position⟩)
  | none => (none, c)

def ids (c : Artifacts) : List Identity := c.entries.map (·.id)

def size (c : Artifacts) : Nat := c.entries.length

def isEmpty (c : Artifacts) : Bool := c.entries.isEmpty

end Artifacts

/-! ## Extensions -/

/-- Whether a consumer must understand an extension. -/
inductive ExtensionState where
  | required
  | optional
deriving DecidableEq, Repr, Inhabited

/-- What an extension holds. -/
inductive ExtensionContent where
  | artifacts (list : Artifacts)
  | structured (value : Json)
  | text (s : String)
deriving DecidableEq, Inhabited

/-- An extension; its name is its key in the feature. -/
structure Extension where
  state : ExtensionState
  content : ExtensionContent
deriving DecidableEq, Inhabited

def Extension.artifacts? (e : Extension) : Option Artifacts :=
  match e.content with
  | .artifacts list => some list
  | _ => none

/-! ## Features -/

/-- The feature to inherit from, and what to leave out of it. -/
structure Prototype where
  id : Identity
  removedBundles : List Identity
  removedExtensions : List String
deriving DecidableEq, Inhabited

/-- **A feature**, raw or assembled. -/
structure Feature where
  id : Identity
  title : Option String
  description : Option String
  vendor : Option String
  license : Option String
  bundles : Artifacts
  extensions : SortedMap String Extension
  variableValues : SortedMap String String
  frameworkProperties : SortedMap String String
  prototype : Option Prototype
  /-- The feature is final. -/
  assembled : Bool
deriving DecidableEq, Inhabited

namespace Feature

/-- The raw feature with an identity and nothing else. -/
def of (id : Identity) : Feature :=
  { id, title := none, description := none, vendor := none, license := none,
    bundles := .empty, extensions := .empty, variableValues := .empty,
    frameworkProperties := .empty, prototype := none, assembled := false }

def classifier (f : Feature) : Option String := f.id.classifier

/-- The identities of all bundles and of all artifacts listed in extensions. -/
def referencedArtifacts (f : Feature) : List Identity :=
  f.bundles.ids ++
    f.extensions.values.flatMap fun e => (e.artifacts?.map Artifacts.ids).getD []

end Feature

/-- The features of one scope, by location. -/
abbrev FeatureMap := SortedMap String Feature

/-- The first feature with an identity, and its location. -/
def FeatureMap.findById? (m : FeatureMap) (id : Identity) : Option (String × Feature) :=
  m.entries.find? fun e => e.2.id == id

end FeatureAssembly
