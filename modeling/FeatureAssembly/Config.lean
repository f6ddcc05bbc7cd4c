import FeatureAssembly.Feature.Codec
import FeatureAssembly.Scope

/-!
# Configuration

What a build may be told: whether the packaged unit of a module is attached to its
feature, how references become dependencies, and which aggregates are to be put
together from the assembled features of a module.
-/

namespace FeatureAssembly

open Json

/-! ## Aggregates -/

/-- **The declaration of an aggregate**: a feature that is put together from the
assembled features of one scope of a module. -/
structure AggregateDecl where
  classifier : String
  scope : Scope
  /-- The classifiers of the features to take. A star takes every feature, and the
  empty text takes the feature without classifier. -/
  includes : List String
deriving DecidableEq, Inhabited

namespace AggregateDecl

/-- What takes every feature. -/
def star : String := "*"

/-- The aggregate of main features. -/
def of (classifier : String) (includes : List String) : AggregateDecl :=
  ⟨classifier, .main, includes⟩

def inScope (d : AggregateDecl) (scope : Scope) : AggregateDecl := { d with scope }

/-- Whether a feature with the given classifier is taken. -/
def selects (d : AggregateDecl) (classifier : Option String) : Bool :=
  d.includes.any fun name => name == star || name == classifier.getD ""

/-- **What an aggregate takes**: everything if it includes the star; else a feature whose classifier it
includes, and the one that has none if it includes the empty text. -/
theorem selects_iff {d : AggregateDecl} {classifier : Option String} : d.selects classifier = true ↔
    star ∈ d.includes ∨ (∃ c ∈ d.includes, classifier = some c) ∨ "" ∈ d.includes ∧ classifier = none := by
  cases classifier <;> simp [selects, exists_or, and_or_left]

end AggregateDecl

/-! ## Options -/

/-- **The options of a build.** -/
structure AssemblyConfig where
  /-- The packaged unit of a module is attached to its only main feature. -/
  attachPackagedUnit : Bool
  /-- The type of the attached artifact, if it is not the packaging of the module. -/
  packagedUnitType : Option String
  packagedUnitStartOrder : Option UInt32
  /-- References do not become dependencies. -/
  skipDependencyAugmentation : Bool
  /-- The scope of the dependencies that references become. -/
  dependencyScope : String
  aggregates : SortedMap ModuleKey (List AggregateDecl)
deriving DecidableEq

namespace AssemblyConfig

/-- The scope of added dependencies, if none is given. -/
def defaultDependencyScope : String := "provided"

/-- The options of a build that is told nothing. -/
def default : AssemblyConfig :=
  { attachPackagedUnit := false, packagedUnitType := none, packagedUnitStartOrder := none,
    skipDependencyAugmentation := false, dependencyScope := defaultDependencyScope,
    aggregates := .empty }

instance : Inhabited AssemblyConfig := ⟨default⟩

def aggregatesOf (c : AssemblyConfig) (key : ModuleKey) : List AggregateDecl :=
  (c.aggregates.get? key).getD []

end AssemblyConfig

/-! ## Documents -/

def Scope.codec : Codec Scope := .choice Scope.all Scope.word

def AggregateDecl.codec : Codec AggregateDecl :=
  .record "AggregateDecl"
    (.required "classifier" .text <|
      .defaulted "scope" Scope.codec .main <|
      .required "includes" (.list .text) .nil)
    (fun (classifier, scope, includes, ()) => { classifier, scope, includes })
    (fun d => (d.classifier, d.scope, d.includes, ()))

def AssemblyConfig.codec : Codec AssemblyConfig :=
  .record "AssemblyConfig"
    (.defaulted "attach_packaged_unit" .flag false <|
      .optional "packaged_unit_type" (.nullable .text) none Option.isNone <|
      .optional "packaged_unit_start_order" (.nullable .word) none Option.isNone <|
      .defaulted "skip_dependency_augmentation" .flag false <|
      .defaulted "dependency_scope" .text defaultDependencyScope <|
      .optional "aggregates" (.table ModuleKey.mk ModuleKey.text (.list AggregateDecl.codec))
        .empty SortedMap.isEmpty .nil)
    (fun (attachPackagedUnit, packagedUnitType, packagedUnitStartOrder,
        skipDependencyAugmentation, dependencyScope, aggregates, ()) =>
      { attachPackagedUnit, packagedUnitType, packagedUnitStartOrder,
        skipDependencyAugmentation, dependencyScope, aggregates })
    (fun c => (c.attachPackagedUnit, c.packagedUnitType, c.packagedUnitStartOrder,
      c.skipDependencyAugmentation, c.dependencyScope, c.aggregates, ()))

end FeatureAssembly
