import FeatureAssembly.Command.Duration
import FeatureAssembly.Command.Report
import FeatureAssembly.Session

/-!
# Summaries

What the command that assembles has to tell at its end: the assembled features and the
added dependencies of each module, the bundles that are missing, the diagnostics, and
where features were written. A summary is printed as text or as a document.
-/

namespace FeatureAssembly

structure FeatureSummary where
  scope : Scope
  location : String
  id : Identity
  digest : String
deriving DecidableEq

structure ModuleSummary where
  module : ModuleKey
  features : List FeatureSummary
  addedDependencies : List Identity
deriving DecidableEq

/-- **What there is to tell at the end of an assembly.** -/
structure Summary where
  modules : List ModuleSummary
  missingArtifacts : List Identity
  diagnostics : List Diagnostic
  /-- Where features were written, if they were. -/
  out : Option String
deriving DecidableEq

/-! ## Making summaries -/

def FeatureSummary.ofScope (store : FeatureStore) (scope : Scope) : List FeatureSummary :=
  (store.assembled scope).entries.map fun e => ⟨scope, e.1, e.2.id, e.2.shownDigest⟩

/-- The dependencies that a module has and that are not declared. -/
def Session.addedDependencies (s : Session) (m : Module) : List Identity :=
  ((s.dependenciesOf m.key).filter fun d => !m.dependencies.contains d).map Dependency.id

def ModuleSummary.of (s : Session) (m : Module) : ModuleSummary :=
  { module := m.key
    features := Scope.all.flatMap (FeatureSummary.ofScope (s.store m.key))
    addedDependencies := s.addedDependencies m }

/-! ## Documents -/

open Json

def textList (l : List String) : Json := .array (l.map Json.string)

def FeatureSummary.toJson (f : FeatureSummary) : Json :=
  .object [("scope", Scope.codec.toJson f.scope), ("key", .string f.location),
    ("id", .string f.id.text), ("digest", .string f.digest)]

def ModuleSummary.toJson (m : ModuleSummary) : Json :=
  .object [("module", .string m.module.text),
    ("features", .array (m.features.map FeatureSummary.toJson)),
    ("added_dependencies", textList (m.addedDependencies.map Identity.text))]

/-- The document of a summary, with the time that the assembly took. -/
def Summary.toJson (s : Summary) (elapsed : Nat) : Json :=
  .object <|
    [("modules", .array (s.modules.map ModuleSummary.toJson))] ++
      (if s.missingArtifacts.isEmpty then []
        else [("missing_artifacts", textList (s.missingArtifacts.map Identity.text))]) ++
      [("diagnostics", .array (s.diagnostics.map Diagnostic.codec.toJson))] ++
      (s.out.toList.map fun path => ("out", Json.string path)) ++
      [("elapsed_ms", .number (.integer elapsed))]

/-! ## Lines -/

def FeatureSummary.line (f : FeatureSummary) : Line :=
  .out s!"  {Status.note.symbol} {f.scope.word} {f.id.text} {f.digest}"

def ModuleSummary.lines (m : ModuleSummary) : List Line :=
  if m.features.isEmpty && m.addedDependencies.isEmpty then []
  else
    [.out "", .out m.module.text] ++ m.features.map FeatureSummary.line ++
      m.addedDependencies.map fun id => .out s!"  + {id.text}"

def Summary.featureCount (s : Summary) : Nat := (s.modules.flatMap fun m => m.features).length

def labelled (label value : String) : Line := .out s!"  {label}: {value}"

/-- The lines of a summary, with the time that the assembly took. -/
def Summary.lines (s : Summary) (elapsed : Nat) : List Line :=
  [Status.done.line s!"Assembled {s.featureCount} feature(s) in {s.modules.length} module(s)"] ++
    s.modules.flatMap ModuleSummary.lines ++
    s.diagnostics.map Diagnostic.line ++
    (s.missingArtifacts.map fun id =>
      Status.warning.line s!"Artifact {id.text} not found in repository") ++
    [.out ""] ++
    (s.out.toList.map (labelled "Written to")) ++
    (if s.modules.isEmpty then [Status.note.line "Reactor declares no modules"] else []) ++
    [labelled "Duration" (Duration.ofMilliseconds elapsed)]

end FeatureAssembly
