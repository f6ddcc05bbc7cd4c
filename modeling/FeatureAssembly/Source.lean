import FeatureAssembly.Reactor.Module
import FeatureAssembly.Scope
import FeatureAssembly.Files.FileError

/-!
# Sources

The raw features of a module come from a source, which answers with the features of
one scope by location or says why it cannot. It answers the same module and scope the
same way each time. But a build adds dependencies to its modules, and asks with the
module as it is by then: what a source makes of its dependencies is up to the source.
-/

namespace FeatureAssembly

/-- Why the features of a module cannot be had. -/
inductive SourceError where
  | walk (path message : String)
  | read (path : String) (reason : FileError)
  /-- A feature file holds no feature. -/
  | parse (path : String) (fault : Json.Fault)
deriving DecidableEq

def SourceError.message : SourceError → String
  | .walk path message => s!"failed to scan feature directory '{path}': {message}"
  | .read path reason => s!"failed to read feature file '{path}': {reason.message}"
  | .parse path fault => s!"failed to parse feature file '{path}': {fault.message}"

/-- **A source of raw features.** -/
abbrev FeatureSource : Type := Module → Scope → Except SourceError FeatureMap

/-- **A source that ignores dependencies**: whatever is added to those of a module, it has
the same features. -/
def FeatureSource.IgnoresDependencies (source : FeatureSource) : Prop :=
  ∀ m dependencies scope, source (m.dependingOn dependencies) scope = source m scope

end FeatureAssembly
