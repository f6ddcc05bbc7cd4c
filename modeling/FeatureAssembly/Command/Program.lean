import FeatureAssembly.Assembly.Run
import FeatureAssembly.Command.Invocation
import FeatureAssembly.Command.Summary
import FeatureAssembly.Files.DefaultPaths
import FeatureAssembly.Files.FeatureDirectory
import FeatureAssembly.Files.Repository
import FeatureAssembly.Merge.ByPrototype

/-!
# The program

What an invocation does: it reads a manifest and the feature files of its modules from a
file system, assembles or validates, and ends with a report and with the file system as
it is then.

Assembled features are written below a directory for each module and scope:

    <out>/<group>/<name>/<scope>/<path below the feature directory>
    <out>/<group>/<name>/<scope>/aggregate-<classifier>.json

What was written before a failure stays.
-/

namespace FeatureAssembly

/-! ## Building from a manifest -/

namespace Manifest

def repositoryIn (m : Manifest) (env : Environment) : Repository :=
  ⟨m.repository.getD env.repositoryDir⟩

/-- The build of a manifest, over the files that it reads. -/
def build (m : Manifest) (r : Reactor) (env : Environment) (fs : FileSystem) : Build :=
  { reactor := r
    config := m.config
    merger := .byPrototype
    loader := (m.repositoryIn env).load fs
    source := FeatureDirectory.source fs (FeatureDirectory.readAll fs r) }

/-- Load a manifest for a command. -/
def open? (fs : FileSystem) (path : String) : Except Failure (Manifest × Reactor) := do
  let m ← (load fs path).mapError fun e =>
    ⟨s!"Failed to load reactor manifest: {path}", e.message :: e.causes⟩
  let r ← m.reactor.mapError fun e => ⟨"Invalid reactor", [e.message]⟩
  return (m, r)

end Manifest

/-! ## Writing features -/

def featurePath (out : String) (m : Module) (scope : Scope) (location : String) : String :=
  let dir := [m.group, m.name, scope.word].foldl Path.join out
  match Text.stripLeading? aggregateMark location with
  | some classifier => Path.join dir s!"aggregate-{classifier}.{FeatureDirectory.extension}"
  | none =>
    let relative :=
      match Text.stripLeading? scope.featuresDir location with
      | some rest => String.ofList (rest.toList.dropWhile (· == '/'))
      | none => location
    (Text.segments '/' relative).foldl Path.join dir

/-- The files for all assembled features of a module. -/
def moduleFiles (out : String) (s : Session) (m : Module) : List (String × String) :=
  Scope.all.flatMap fun scope =>
    ((s.store m.key).assembled scope).entries.map fun e =>
      (featurePath out m scope e.1, Feature.codec.encodeIndented e.2)

/-- Write a file, in a directory that is made if it is not there. -/
def writeFile (fs : FileSystem) (path text : String) : FileSystem × Option Failure :=
  match (Path.parent? path).map fun dir => (dir, fs.makeDirectories dir) with
  | some (dir, .error e) => (fs, some ⟨s!"Failed to create directory: {dir}", [e.message]⟩)
  | some (_, .ok made) => write made
  | none => write fs
where
  write (fs : FileSystem) : FileSystem × Option Failure :=
    match fs.writeText path text with
    | .ok fs => (fs, none)
    | .error e => (fs, some ⟨s!"Failed to write feature: {path}", [e.message]⟩)

/-- Write files in turn, up to the first that fails. -/
def writeFiles (fs : FileSystem) : List (String × String) → FileSystem × Option Failure
  | [] => (fs, none)
  | (path, text) :: rest =>
    match writeFile fs path text with
    | (fs, none) => writeFiles fs rest
    | (fs, some failure) => (fs, some failure)

/-! ## Commands -/

/-- **What a command has to report.** -/
inductive Report where
  | usage
  | help
  | version
  | failed (failure : Failure)
  | assembled (summary : Summary) (format : ReportFormat)
  /-- Each module, and why it is not valid if it is not. -/
  | validated (checks : List (ModuleKey × Option AssemblyError))

/-- The bundles from outside that are not in the repository. -/
def missingArtifacts (fs : FileSystem) (repository : Repository) :
    List Identity → Except Failure (List Identity)
  | [] => .ok []
  | id :: rest =>
    match repository.locate fs id with
    | .ok _ => missingArtifacts fs repository rest
    | .error e =>
      if e.isNotFound then (missingArtifacts fs repository rest).map (id :: ·)
      else .error ⟨s!"Failed to locate artifact {id.text}", e.message :: e.causes⟩

def assemblyFailure (e : AssemblyError) : Failure := ⟨"Assembly failed", e.message :: e.causes⟩

/-- Report on an assembled session, after its features are written where that is wanted. -/
def reportAssembled (o : AssembleOptions) (r : Reactor) (repository : Repository) (s : Session)
    (fs : FileSystem) : FileSystem × Report :=
  let (fs, failure) :=
    match o.out with
    | some out => writeFiles fs (r.modules.flatMap (moduleFiles out s))
    | none => (fs, none)
  match failure with
  | some failure => (fs, .failed failure)
  | none =>
    let wanted := if o.locate then (s.externalArtifacts r).keys else []
    match missingArtifacts fs repository wanted with
    | .error failure => (fs, .failed failure)
    | .ok missing =>
      (fs, .assembled
        { modules := r.modules.map (ModuleSummary.of s)
          missingArtifacts := missing
          diagnostics := s.diagnostics
          out := o.out.map fun out => (fs.canonical out).toOption.getD out }
        o.format)

/-- The manifest with the options of the command line. -/
def Manifest.withOptions (m : Manifest) (o : AssembleOptions) : Manifest :=
  { m with
    config :=
      { m.config with
        attachPackagedUnit := m.config.attachPackagedUnit || o.attachPackagedUnit
        skipDependencyAugmentation :=
          m.config.skipDependencyAugmentation || o.skipDependencies } }

/-- **Assemble the features of every module.** -/
def assemble (o : AssembleOptions) (env : Environment) (fs : FileSystem) : FileSystem × Report :=
  match Manifest.open? fs o.manifest with
  | .error failure => (fs, .failed failure)
  | .ok (m, r) =>
    let build := (m.withOptions o).build r env fs
    match build.processAll (Session.start r) with
    | none => (fs, .failed (.of "Assembly failed"))
    | some outcome =>
      match outcome.result with
      | .error e => (fs, .failed (assemblyFailure e))
      | .ok () => reportAssembled o r (m.repositoryIn env) outcome.session fs

/-- **Check the features of every module** without assembling them. -/
def validate (manifest : String) (env : Environment) (fs : FileSystem) : Report :=
  match Manifest.open? fs manifest with
  | .error failure => .failed failure
  | .ok (m, r) =>
    let build := m.build r env fs
    .validated <| r.modules.map fun module =>
      (module.key, match build.validate module with
        | .ok () => none
        | .error e => some e)

/-- **Do what the arguments ask for.** -/
def perform (args : List String) (env : Environment) (fs : FileSystem) : FileSystem × Report :=
  match Invocation.ofArguments args with
  | none => (fs, .usage)
  | some .help => (fs, .help)
  | some .version => (fs, .version)
  | some (.assemble o) => assemble o env fs
  | some (.validate manifest) => (fs, validate manifest env fs)

/-! ## Reports -/

namespace Report

def versionText : String := "fab 0.7.0"

def usageText : String :=
  "Usage: fab [-v] assemble [--out DIR] [--attach-packaged-unit] [--skip-dependencies]\n" ++
  "                [--locate] [--format text|json] [MANIFEST]\n" ++
  "       fab [-v] validate [MANIFEST]"

def checkLine (c : ModuleKey × Option AssemblyError) : Line :=
  match c.2 with
  | none => Status.done.line c.1.text
  | some e => Status.failed.line s!"{c.1.text}: {e.message}"

/-- The number of modules that are not valid. -/
def failureCount (checks : List (ModuleKey × Option AssemblyError)) : Nat :=
  checks.countP fun c => c.2.isSome

/-- The lines behind those of the checked modules. -/
def checkEnd (checks : List (ModuleKey × Option AssemblyError)) : List Line :=
  if failureCount checks = 0 then []
  else [.err (Failure.of s!"{failureCount checks} module(s) failed validation").message]

/-- The lines of a report, with the time that the command took. -/
def lines (elapsed : Nat) : Report → List Line
  | .usage => [.err usageText]
  | .help => [.out usageText]
  | .version => [.out versionText]
  | .failed failure => [.err failure.message]
  | .assembled summary .text => summary.lines elapsed
  | .assembled summary .json => [.out (summary.toJson elapsed).indented]
  | .validated checks => checks.map checkLine ++ checkEnd checks

def exitCode : Report → UInt32
  | .usage => 2
  | .failed _ => 1
  | .validated checks => if failureCount checks = 0 then 0 else 1
  | .help | .version | .assembled .. => 0

end Report

end FeatureAssembly
