import FeatureAssembly.Files.FileSystem
import FeatureAssembly.Reactor
import FeatureAssembly.Source

/-!
# Feature directories

The source of a build that works on files. Every file with the extension of feature
files below the feature directory of a scope holds one raw feature, whose location is
the path of its file from the module directory.

**The order**: directories are walked by name, a directory before what it holds, and the
first file or directory that is at fault ends the walk.
-/

namespace FeatureAssembly.FeatureDirectory

open FeatureAssembly

/-- The extension of feature files. -/
def extension : String := "json"

/-- Whether a file with these names holds a feature. -/
def isFeatureFile (names : List String) : Bool :=
  match names.getLast? with
  | some name => Path.extension? name == some extension
  | none => false

/-- The location of the feature in the file with these names. -/
def location (scope : Scope) (names : List String) : String :=
  Text.joinWith "/" (scope.featuresDir :: names)

def readFeature (path : String) (content : ByteArray) : Except SourceError Feature := do
  (FileSystem.checkPath path).mapError (.read path)
  let text ← (FileSystem.textOf content).mapError (.read path)
  (Feature.codec.decode text).mapError (.parse path)

/-- The message for a directory that cannot be listed. -/
def walkMessage (path : String) (e : FileError) : String :=
  s!"IO error for operation on {path}: {e.message}"

/-- Take what a visit gives. -/
def visit (start : String) (scope : Scope) (features : FeatureMap) :
    Visit → Except SourceError FeatureMap
  | .directory path =>
    match FileSystem.checkPath path with
    | .ok () => .ok features
    | .error e => .error (.walk start (walkMessage path e))
  | .file path names content =>
    if isFeatureFile names then
      (readFeature path content).map fun f => features.insert (location scope names) f
    else .ok features

/-- **The raw features of a scope**, of the module in a directory. Where there is no
feature directory, there are no features. -/
def features (fs : FileSystem) (moduleDir : String) (scope : Scope) :
    Except SourceError FeatureMap :=
  let start := Path.join moduleDir scope.featuresDir
  match fs.find start with
  | .ok (.directory entries) =>
    ((FileNode.directory entries).visits start []).foldlM (visit start scope) .empty
  | _ => .ok .empty

/-! ## Sources -/

/-- What was read for both scopes of the module in a directory. -/
structure Reading where
  main : Except SourceError FeatureMap
  test : Except SourceError FeatureMap

def Reading.ofScope (r : Reading) : Scope → Except SourceError FeatureMap
  | .main => r.main
  | .test => r.test

/-- Read both scopes of the module in a directory. -/
def read (fs : FileSystem) (moduleDir : String) : Reading :=
  ⟨features fs moduleDir .main, features fs moduleDir .test⟩

def readAll (fs : FileSystem) (r : Reactor) : SortedMap String Reading :=
  .ofList (r.modules.map fun m => (m.dir, read fs m.dir))

/-- **The source that reads feature directories**, given what was read already. -/
def source (fs : FileSystem) (readings : SortedMap String Reading) : FeatureSource :=
  fun m scope => ((readings.get? m.dir).getD (read fs m.dir)).ofScope scope

end FeatureAssembly.FeatureDirectory
