import FeatureAssembly.Text.Segments

/-!
# Scopes and locations

A module has features in two scopes, main and test, each read from a directory
of its own. Within a scope a feature is known by its location: the path of its
file, or, for a feature put together from others, an aggregate key.

The two kinds of location share one space of texts. An aggregate key is the
classifier of the aggregate behind `:aggregate:`.
-/

namespace FeatureAssembly

open Text

/-- **The build scope of a feature.** -/
inductive Scope where
  | main
  | test
deriving DecidableEq, Repr, Inhabited

namespace Scope

def all : List Scope := [.main, .test]

theorem mem_all (scope : Scope) : scope ∈ all := by cases scope <;> simp [all]

def word : Scope → String
  | .main => "main"
  | .test => "test"

instance : ToString Scope := ⟨Scope.word⟩

/-- Where the features of a scope are kept, relative to the module directory. -/
def featuresDir : Scope → String
  | .main => "src/main/features"
  | .test => "src/test/features"

/-- The scopes whose features are visible from a scope, nearest first: test
features see main features, and not the other way. -/
def visible : Scope → List Scope
  | .main => [.main]
  | .test => [.test, .main]

end Scope

/-! ## Aggregate keys -/

/-- What every aggregate key starts with. -/
def aggregateMark : String := ":aggregate:"

def aggregateKey (classifier : String) : String := aggregateMark ++ classifier

def isAggregateKey (location : String) : Bool := startsWith aggregateMark location

/-- A location for the reader of a message: aggregates are set off from files. -/
def displayLocation (location : String) : String :=
  match stripLeading? aggregateMark location with
  | some classifier => s!"<aggregate {classifier}>"
  | none => location

/-- Several locations for the reader of a message. -/
def displayLocations (locations : List String) : String :=
  joinWith ", " (locations.map displayLocation)

end FeatureAssembly
