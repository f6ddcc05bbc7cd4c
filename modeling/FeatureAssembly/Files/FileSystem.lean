import FeatureAssembly.Files.FileError
import FeatureAssembly.Files.Path
import FeatureAssembly.SortedMap

/-!
# File systems

The files and directories that a command can see, as a value: what is read is looked up
in it, and what is written makes a new one. There are no links, and everything may be
read and written.

**Finding a path**: its segments are followed one by one from the root or from the
working directory. Each step needs a directory, also a step along an empty segment or a
dot, and two dots go up one level. A path of more than 4095 bytes or a name of more than
255 bytes is too long for the system; where a path is only made absolute, it is handed over
bit by bit, and each absolute path on the way has to be short enough.
-/

namespace FeatureAssembly

/-- **A file, or a directory with its entries by ascending name.** -/
inductive FileNode where
  | file (content : ByteArray)
  | directory (entries : List (String × FileNode))
deriving Inhabited

namespace FileNode

/-- A directory without entries. -/
def emptyDirectory : FileNode := .directory []

/-- The node below a node at some names. -/
def at? (n : FileNode) : List String → Option FileNode
  | [] => some n
  | name :: rest =>
    match n with
    | .file _ => none
    | .directory entries => (SortedMap.lookupEntry name entries).bind fun n => n.at? rest

/-- Put a node at some names, in directories that are made on the way. A file on the way
stays. -/
def put (x : FileNode) : List String → FileNode → FileNode
  | [], _ => x
  | name :: rest, .directory entries =>
    let below := (SortedMap.lookupEntry name entries).getD emptyDirectory
    .directory (SortedMap.insertEntry name (put x rest below) entries)
  | _ :: _, .file content => .file content

end FileNode

/-! ## Visits -/

/-- What is met on a walk through a directory. -/
inductive Visit where
  | directory (path : String)
  /-- A file, with the names that lead to it from the start of the walk. -/
  | file (path : String) (names : List String) (content : ByteArray)

namespace FileNode

mutual

/-- **All that lies at a path and below**: a directory before its entries, and entries by
ascending name. -/
def visits (path : String) (names : List String) : FileNode → List Visit
  | .file content => [.file path names content]
  | .directory entries => .directory path :: visitsIn path names entries

/-- All that lies in the entries of a directory. -/
def visitsIn (path : String) (names : List String) : List (String × FileNode) → List Visit
  | [] => []
  | (name, n) :: rest =>
    visits (Path.join path name) (names ++ [name]) n ++ visitsIn path names rest

end

/-- The files below a node, with their names and contents. -/
def files (n : FileNode) : List (List String × ByteArray) :=
  (n.visits "" []).filterMap fun
    | .file _ names content => some (names, content)
    | .directory _ => none

end FileNode

/-! ## Finding -/

/-- **The files and directories that a command can see.** -/
structure FileSystem where
  root : FileNode
  /-- The names that lead from the root to the working directory. -/
  workingDir : List String
deriving Inhabited

namespace FileSystem

/-- The greatest number of bytes of a path. -/
def pathLimit : Nat := 4095

/-- The greatest number of bytes of a name. -/
def nameLimit : Nat := 255

/-- Whether a path has a text that can mean anything. -/
def checkSpelling (p : String) : Except FileError Unit :=
  if Text.hasChar '\x00' p then .error .nulInPath
  else if p = "" then .error .notFound
  else .ok ()

/-- Whether a path may be handed to the system. -/
def checkPath (p : String) : Except FileError Unit := do
  checkSpelling p
  if pathLimit < p.utf8ByteSize then throw .nameTooLong

def entriesAt (fs : FileSystem) (names : List String) :
    Except FileError (List (String × FileNode)) :=
  match fs.root.at? names with
  | none => .error .notFound
  | some (.file _) => .error .notDirectory
  | some (.directory entries) => .ok entries

def follow (fs : FileSystem) (here : List String) (segment : String) :
    Except FileError (List String) := do
  let entries ← fs.entriesAt here
  if segment = "" || segment = "." then return here
  else if segment = ".." then return here.dropLast
  else if nameLimit < segment.utf8ByteSize then throw .nameTooLong
  else if (SortedMap.lookupEntry segment entries).isSome then return here ++ [segment]
  else throw .notFound

/-- Where a path starts. -/
def startOf (fs : FileSystem) (p : String) : List String :=
  if Path.isAbsolute p then [] else fs.workingDir

/-- **The names that lead from the root to what a path means.** -/
def locate (fs : FileSystem) (p : String) : Except FileError (List String) := do
  checkPath p
  (Path.parts p).foldlM fs.follow (fs.startOf p)

/-- What a path means. -/
def find (fs : FileSystem) (p : String) : Except FileError FileNode := do
  match fs.root.at? (← fs.locate p) with
  | some n => return n
  | none => throw .notFound

/-! ## Reading -/

/-- Whether a path means a directory. -/
def isDirectory (fs : FileSystem) (p : String) : Bool :=
  match fs.find p with
  | .ok (.directory _) => true
  | _ => false

/-- Whether a path means a file. -/
def isFile (fs : FileSystem) (p : String) : Bool :=
  match fs.find p with
  | .ok (.file _) => true
  | _ => false

def textOf (content : ByteArray) : Except FileError String :=
  match String.fromUTF8? content with
  | some s => .ok s
  | none => .error .notText

/-- **Read a text file.** -/
def readText (fs : FileSystem) (p : String) : Except FileError String := do
  match ← fs.find p with
  | .file content => textOf content
  | .directory _ => throw .isDirectory

def absolutePath (names : List String) : String := "/" ++ Text.joinWith "/" names

/-- Follow one segment of a path, to an absolute path that is not too long. -/
def followShort (fs : FileSystem) (here : List String) (segment : String) :
    Except FileError (List String) := do
  let there ← fs.follow here segment
  if pathLimit < (absolutePath there).utf8ByteSize then throw .nameTooLong
  return there

/-- **The absolute path of what a path means**, without dots. The path itself may have
any length, since only absolute paths on the way are handed to the system. -/
def canonical (fs : FileSystem) (p : String) : Except FileError String := do
  checkSpelling p
  return absolutePath (← (Path.parts p).foldlM fs.followShort (fs.startOf p))

/-! ## Writing -/

/-- A path split before its last segment that is not empty: the segments before it, that
segment, and whether slashes stand behind it. -/
def splitLast? (p : String) : Option (List String × String × Bool) :=
  match (Path.parts p).reverse.span (· == "") with
  | (_, []) => none
  | (slashes, last :: front) => some (front.reverse, last, !slashes.isEmpty)

/-- Whether a segment names an entry, and not a place. -/
def isName (segment : String) : Bool := segment != "." && segment != ".."

def putAt (fs : FileSystem) (names : List String) (n : FileNode) : FileSystem :=
  { fs with root := FileNode.put n names fs.root }

/-- Make a directory in one that exists. -/
def makeDirectory (fs : FileSystem) (p : String) : Except FileError FileSystem := do
  checkPath p
  match splitLast? p with
  | none => throw .exists
  | some (front, last, _) =>
    let here ← front.foldlM fs.follow (fs.startOf p)
    let entries ← fs.entriesAt here
    if !isName last then throw .exists
    else if nameLimit < last.utf8ByteSize then throw .nameTooLong
    else if (SortedMap.lookupEntry last entries).isSome then throw .exists
    else return fs.putAt (here ++ [last]) .emptyDirectory

/-- Make the first directory of a list, whose next ones are the directories above it. -/
def makeFirst (fs : FileSystem) : List String → Except FileError FileSystem
  | [] => .ok fs
  | p :: above =>
    if p = "" then .ok fs
    else
      match fs.makeDirectory p with
      | .ok fs => .ok fs
      | .error .notFound => do
        let fs ← fs.makeFirst above
        match fs.makeDirectory p with
        | .ok fs => .ok fs
        | .error e => if fs.isDirectory p then .ok fs else .error e
      | .error e => if fs.isDirectory p then .ok fs else .error e

/-- **Make a directory and those above it**, as far as they are not there. -/
def makeDirectories (fs : FileSystem) (p : String) : Except FileError FileSystem :=
  fs.makeFirst (Path.ancestors p)

/-- **Write a text file**, over an earlier one. -/
def writeText (fs : FileSystem) (p text : String) : Except FileError FileSystem := do
  checkPath p
  match splitLast? p with
  | none => throw .isDirectory
  | some (front, last, slashed) =>
    let here ← front.foldlM fs.follow (fs.startOf p)
    let entries ← fs.entriesAt here
    if !isName last || slashed then throw .isDirectory
    else if nameLimit < last.utf8ByteSize then throw .nameTooLong
    else
      match SortedMap.lookupEntry last entries with
      | some (.directory _) => throw .isDirectory
      | _ => return fs.putAt (here ++ [last]) (.file text.toUTF8)

end FileSystem

end FeatureAssembly
