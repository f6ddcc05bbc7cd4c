import FeatureAssembly.Command.Program

/-!
# The command line

The outermost layer: it reads what a command can see into a file system, has the
command performed, writes the files that are new or changed, prints the report and ends
with its exit code.
-/

namespace FeatureAssembly.CommandLine

/-- The names that a path leads along from some names, without looking at what is there. -/
def namesOf (here : List String) (path : String) : List String :=
  (Path.parts path).foldl
    (fun names segment =>
      if segment = "" || segment = "." then names
      else if segment = ".." then names.dropLast
      else names ++ [segment])
    (if Path.isAbsolute path then [] else here)

def pathOf (names : List String) : String := "/" ++ Text.joinWith "/" names

/-- Read a file, or a directory with all that it holds. -/
partial def readNode (names : List String) : IO FileNode := do
  let place ← IO.FS.realPath (pathOf names)
  if ← place.isDir then
    let mut entries := []
    for e in ← place.readDir do
      entries := SortedMap.insertEntry e.fileName (← readNode (names ++ [e.fileName])) entries
    return .directory entries
  else
    return .file (← IO.FS.readBinFile place)

/-- Read what lies at a path, if something does, and the directories above it. -/
def readPath (fs : FileSystem) (path : String) : IO FileSystem := do
  let names := namesOf fs.workingDir path
  try return fs.putAt names (← readNode names)
  catch _ => return fs

/-- The paths that a command reads or writes, as far as its arguments tell. -/
def namedPaths : Invocation → List String
  | .assemble o => o.manifest :: o.out.toList
  | .validate manifest => [manifest]
  | _ => []

/-- The paths that a manifest tells. -/
def manifestPaths (fs : FileSystem) (env : Environment) (path : String) : List String :=
  match Manifest.load fs path with
  | .error _ => []
  | .ok m =>
    (m.repositoryIn env).root ::
      m.modules.flatMap fun m => Scope.all.map fun scope => Path.join m.dir scope.featuresDir

/-- Read all that a command can see. -/
def readAll (args : List String) (env : Environment) : IO FileSystem := do
  let workingDir := namesOf [] (← IO.currentDir).toString
  let start : FileSystem :=
    FileSystem.putAt ⟨.emptyDirectory, workingDir⟩ workingDir .emptyDirectory
  match Invocation.ofArguments args with
  | none => return start
  | some invocation =>
    let paths := namedPaths invocation
    let fs ← paths.foldlM readPath start
    (paths.flatMap (manifestPaths fs env)).foldlM readPath fs

/-- Write the files that are new or changed. -/
def writeChanges (before after : FileSystem) : IO Unit := do
  let old := before.root.files
  for (names, content) in after.root.files do
    unless old.any fun e => e.1 == names && e.2.data == content.data do
      IO.FS.createDirAll (pathOf names.dropLast)
      IO.FS.writeBinFile (pathOf names) content

end FeatureAssembly.CommandLine

open FeatureAssembly in
def main (args : List String) : IO UInt32 := do
  let started ← IO.monoMsNow
  let env : Environment :=
    ⟨← IO.getEnv "HOME", ← IO.getEnv "XDG_CACHE_HOME", ← IO.getEnv "FAB_REPOSITORY"⟩
  let before ← CommandLine.readAll args env
  let (after, report) := perform args env before
  CommandLine.writeChanges before after
  let lines := report.lines ((← IO.monoMsNow) - started)
  (← IO.getStdout).putStr (Line.stdout lines)
  (← IO.getStderr).putStr (Line.stderr lines)
  return report.exitCode
