import FeatureAssembly.Classifiers
import FeatureAssembly.Loader
import FeatureAssembly.Reactor
import FeatureAssembly.Source

/-!
# Errors of an assembly

Everything that can end an assembly, as a cause.
-/

namespace FeatureAssembly

/-- **Why an assembly ends early.** -/
inductive AssemblyError where
  /-- A feature needs another one that could not be provided. -/
  | unresolvedReference (feature reference : Identity)
  /-- The loader failed, and not because the feature does not exist. -/
  | externalResolution (id : Identity) (error : LoadError)
  | classifier (error : ClassifierError)
  /-- There are several features to which a packaged unit could be attached. -/
  | ambiguousPackagedUnit (module : ModuleKey) (locations : List String)
  | source (module : ModuleKey) (scope : Scope) (error : SourceError)
  | unknownModule (key : ModuleKey)
  /-- A declared aggregate has the empty classifier. -/
  | unclassifiedAggregate (module : ModuleKey)
  /-- A declared aggregate takes no feature at all. -/
  | emptyAggregate (module : ModuleKey) (classifier : String)
  | reactor (error : ReactorError)
deriving DecidableEq

def AssemblyError.message : AssemblyError → String
  | .unresolvedReference feature reference =>
    s!"feature {feature.text} references {reference.text}, which could not be resolved"
  | .externalResolution id error =>
    s!"failed to resolve external feature {id.text}: {error.message}"
  | .classifier error => error.message
  | .ambiguousPackagedUnit module locations =>
    s!"module {module.text} produces a packaged unit but defines more than one feature: " ++
      Text.joinWith ", " locations
  | .source module scope error =>
    s!"failed to load {scope.word} features of module {module.text}: {error.message}"
  | .unknownModule key => s!"module {key.text} is not part of the reactor"
  | .unclassifiedAggregate module => s!"an aggregate of module {module.text} has an empty classifier"
  | .emptyAggregate module name =>
    s!"aggregate '{name}' of module {module.text} selects no features"
  | .reactor error => error.message

end FeatureAssembly
