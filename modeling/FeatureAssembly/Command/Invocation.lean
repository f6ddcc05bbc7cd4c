import FeatureAssembly.Text.Segments

/-!
# Invocations

What the arguments of the command line ask for. Arguments that ask for nothing that
exists are refused as a whole.

**The rules**: options stand before or behind positional arguments; `--` makes all that
follows positional; a value stands in the next argument or behind `=`; a value in the next
argument starts with a dash only if it is a single dash; no value that is a path is
empty; nothing is given twice, except that `-v` may stand both before and behind the name
of the command.
-/

namespace FeatureAssembly

inductive ReportFormat where
  | text
  | json
deriving DecidableEq, Repr

structure AssembleOptions where
  manifest : String
  out : Option String
  attachPackagedUnit : Bool
  skipDependencies : Bool
  /-- Every bundle from outside is looked for in the repository. -/
  locate : Bool
  format : ReportFormat
deriving DecidableEq

/-- **What a command line asks for.** -/
inductive Invocation where
  | version
  | help
  | assemble (options : AssembleOptions)
  | validate (manifest : String)
deriving DecidableEq

namespace Invocation

open Text

/-- The manifest that is read if none is named. -/
def defaultManifest : String := "fab.json"

/-! ## Arguments -/

/-- What an argument looks like. -/
inductive Argument where
  /-- The sign that all that follows is positional. -/
  | escape
  | long (name : String) (value : Option String)
  /-- Short options behind one dash. -/
  | short (names : List Char)
  | positional (value : String)

/-- The look of an argument. -/
def Argument.of (arg : String) : Argument :=
  match stripLeading? "--" arg with
  | some "" => .escape
  | some name =>
    match splitFirst? '=' name with
    | some (name, value) => .long name (some value)
    | none => .long name none
  | none =>
    match arg.toList with
    | '-' :: c :: rest => .short (c :: rest)
    | _ => .positional arg

def nextValue? : List String → Option (String × List String)
  | [] => none
  | arg :: rest =>
    match Argument.of arg with
    | .positional value => some (value, rest)
    | _ => none

/-- The value of an option, in its own argument or in the next. -/
def optionValue? (attached : Option String) (rest : List String) :
    Option (String × List String) :=
  match attached with
  | some value => some (value, rest)
  | none => nextValue? rest

/-- A path that is given: it must not be empty. -/
def path? (value : String) : Option String := if value = "" then none else some value

def format? : String → Option ReportFormat
  | "text" => some .text
  | "json" => some .json
  | _ => none

/-- Turn a switch on that is off. -/
def turnOn? : Bool → Option Bool
  | false => some true
  | true => none

/-- Give a value that is not given yet. -/
def giveOnce? {α : Type} (given : Option α) (value : α) : Option (Option α) :=
  match given with
  | none => some (some value)
  | some _ => none

/-! ## Commands -/

/-- What is read of the arguments of a command so far. -/
structure Given where
  verbose : Bool
  manifest : Option String
  out : Option String
  attachPackagedUnit : Bool
  skipDependencies : Bool
  locate : Bool
  format : Option ReportFormat

/-- Nothing is given. -/
def Given.nothing : Given := ⟨false, none, none, false, false, false, none⟩

/-- How reading arguments goes on. -/
inductive Reading where
  /-- All are read. -/
  | complete (given : Given)
  | help

def Given.withManifest? (g : Given) (value : String) : Option Given := do
  let manifest ← giveOnce? g.manifest (← path? value)
  return { g with manifest }

/-- Take a switch of the command that assembles. -/
def Given.withSwitch? (g : Given) : String → Option Given
  | "attach-packaged-unit" => do
    return { g with attachPackagedUnit := ← turnOn? g.attachPackagedUnit }
  | "skip-dependencies" => do return { g with skipDependencies := ← turnOn? g.skipDependencies }
  | "locate" => do return { g with locate := ← turnOn? g.locate }
  | _ => none

/-- Take short options; `true` if help is asked for. -/
def Given.withShort? (g : Given) : List Char → Option (Given × Bool)
  | [] => some (g, false)
  | 'v' :: rest => do
    let g := { g with verbose := ← turnOn? g.verbose }
    g.withShort? rest
  | 'h' :: _ => some (g, true)
  | _ => none

def readPositional (g : Given) (args : List String) : Option Given :=
  args.foldlM Given.withManifest? g

/-- Read the arguments of a command; only the one that assembles has options of its own.
The bound on their number is never reached, since every step takes one. -/
def readArguments (assembles : Bool) : Nat → Given → List String → Option Reading
  | 0, g, _ => some (.complete g)
  | _ + 1, g, [] => some (.complete g)
  | bound + 1, g, arg :: rest =>
    match Argument.of arg with
    | .escape => (readPositional g rest).map .complete
    | .positional value => do readArguments assembles bound (← g.withManifest? value) rest
    | .short names => do
      let (g, asksHelp) ← g.withShort? names
      if asksHelp then return .help else readArguments assembles bound g rest
    | .long "verbose" none => do
      readArguments assembles bound { g with verbose := ← turnOn? g.verbose } rest
    | .long "help" none => some .help
    | .long "out" attached => do
      guard assembles
      let (value, rest) ← optionValue? attached rest
      readArguments assembles bound { g with out := ← giveOnce? g.out (← path? value) } rest
    | .long "format" attached => do
      guard assembles
      let (value, rest) ← optionValue? attached rest
      readArguments assembles bound { g with format := ← giveOnce? g.format (← format? value) } rest
    | .long name none => do
      guard assembles
      readArguments assembles bound (← g.withSwitch? name) rest
    | .long _ (some _) => none

def ofAssemble (g : Given) : Invocation :=
  .assemble
    { manifest := g.manifest.getD defaultManifest
      out := g.out
      attachPackagedUnit := g.attachPackagedUnit
      skipDependencies := g.skipDependencies
      locate := g.locate
      format := g.format.getD .text }

def ofValidate (g : Given) : Invocation := .validate (g.manifest.getD defaultManifest)

def readCommand (assembles : Bool) (make : Given → Invocation) (args : List String) :
    Option Invocation :=
  (readArguments assembles (args.length + 1) .nothing args).map fun
    | .complete g => make g
    | .help => .help

/-! ## The whole line -/

/-- Take short options before the command; the last part is what they ask for at once. -/
def readShort? (verbose : Bool) : List Char → Option (Bool × Option Invocation)
  | [] => some (verbose, none)
  | 'v' :: rest => do readShort? (← turnOn? verbose) rest
  | 'V' :: _ => some (verbose, some .version)
  | 'h' :: _ => some (verbose, some .help)
  | _ => none

/-- Read arguments up to the name of the command. -/
def readLine (verbose : Bool) : List String → Option Invocation
  | [] => none
  | arg :: rest =>
    match Argument.of arg with
    | .long "verbose" none => do readLine (← turnOn? verbose) rest
    | .long "version" none => some .version
    | .long "help" none => some .help
    | .short names =>
      match readShort? verbose names with
      | none => none
      | some (_, some invocation) => some invocation
      | some (verbose, none) => readLine verbose rest
    | .positional "assemble" => readCommand true ofAssemble rest
    | .positional "validate" => readCommand false ofValidate rest
    | .positional "help" =>
      match rest with
      | [] | ["assemble"] | ["validate"] | ["help"] => some .help
      | _ => none
    | _ => none

/-- **What a command line asks for**, if it can be understood. -/
def ofArguments (args : List String) : Option Invocation := readLine false args

end Invocation

end FeatureAssembly
