import FeatureAssembly.Config

/-!
# Classifiers of a module

Within a module a classifier names at most one feature. The features of a module
fall into buckets, one for each classifier and one for those without classifier,
and no bucket may hold more than one.

**The law**: of several crowded buckets the least one is reported, the bucket
without classifier before all others, with the locations of all its features in the
order in which they were given.

Main and test are checked each on its own first, and then the main features together
with the classified test features and the declared aggregates.
-/

namespace FeatureAssembly

/-- Why the classifiers of a module clash. -/
inductive ClassifierError where
  | multipleUnclassified (module : ModuleKey) (locations : List String)
  | duplicateClassifier (module : ModuleKey) (classifier : String) (locations : List String)
deriving DecidableEq

namespace ClassifierError

def module : ClassifierError → ModuleKey
  | .multipleUnclassified module _ => module
  | .duplicateClassifier module _ _ => module

def locations : ClassifierError → List String
  | .multipleUnclassified _ locations => locations
  | .duplicateClassifier _ _ locations => locations

def message : ClassifierError → String
  | .multipleUnclassified module locations =>
    s!"module {module.text} defines more than one feature without classifier: " ++
      displayLocations locations
  | .duplicateClassifier module classifier locations =>
    s!"module {module.text} defines classifier '{classifier}' more than once: " ++
      displayLocations locations

end ClassifierError

namespace Classifiers

/-- A location and the classifier of the feature there. -/
abbrev Entry : Type := String × Option String

/-- Put an entry into its bucket, behind the earlier ones. -/
def addEntry (buckets : SortedMap (Option String) (List String)) (e : Entry) :
    SortedMap (Option String) (List String) :=
  buckets.insert e.2 ((buckets.get? e.2).getD [] ++ [e.1])

def buckets (entries : List Entry) : SortedMap (Option String) (List String) :=
  entries.foldl addEntry .empty

/-- The error of a crowded bucket. -/
def clash (module : ModuleKey) (classifier : Option String) (locations : List String) :
    ClassifierError :=
  match classifier with
  | none => .multipleUnclassified module locations
  | some c => .duplicateClassifier module c locations

/-- **Check that no bucket is crowded.** -/
def check (module : ModuleKey) (entries : List Entry) : Except ClassifierError Unit :=
  match (buckets entries).entries.find? fun b => 2 ≤ b.2.length with
  | none => .ok ()
  | some (classifier, locations) => .error (clash module classifier locations)

def entriesOf (features : FeatureMap) : List Entry :=
  features.entries.map fun e => (e.1, e.2.classifier)

def checkFeatures (module : ModuleKey) (features : FeatureMap) : Except ClassifierError Unit :=
  check module (entriesOf features)

def entriesOfAggregates (decls : List AggregateDecl) : List Entry :=
  decls.map fun d => (aggregateKey d.classifier, some d.classifier)

/-- **Check the features of a module.** A test feature without classifier may stand
beside a main feature without classifier. -/
def checkModule (module : ModuleKey) (main test : FeatureMap) (decls : List AggregateDecl) :
    Except ClassifierError Unit := do
  checkFeatures module main
  checkFeatures module test
  check module
    (entriesOf main ++ (entriesOf test).filter (fun e => e.2.isSome) ++ entriesOfAggregates decls)

end Classifiers

end FeatureAssembly
