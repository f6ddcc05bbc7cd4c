import FeatureAssembly.Assembly.Error
import FeatureAssembly.Diagnostic
import FeatureAssembly.Manifest

/-!
# Reports

What a command prints, line by line, to one of two streams, and how it prints that it
failed: what it was about to do, and behind that the causes, each the cause of the one
before it.
-/

namespace FeatureAssembly

/-- **A line to one of the two streams.** It may hold further lines. -/
inductive Line where
  | out (text : String)
  | err (text : String)
deriving DecidableEq, Repr

namespace Line

/-- What lines print to the stream of results. -/
def stdout (l : List Line) : String :=
  String.join (l.map fun
    | .out text => text ++ "\n"
    | .err _ => "")

/-- What lines print to the stream of problems. -/
def stderr (l : List Line) : String :=
  String.join (l.map fun
    | .out _ => ""
    | .err text => text ++ "\n")

end Line

/-! ## Status lines -/

/-- The sign at the start of a status line. -/
inductive Status where
  | done
  | failed
  | warning
  | note
deriving DecidableEq, Repr

namespace Status

def symbol : Status → String
  | .done => "✓"
  | .failed => "✗"
  | .warning => "⚠"
  | .note => "•"

/-- A status line. Failures and warnings are problems. -/
def line (s : Status) (message : String) : Line :=
  match s with
  | .done | .note => .out s!"{s.symbol} {message}"
  | .failed | .warning => .err s!"{s.symbol} {message}"

end Status

def Diagnostic.line (d : Diagnostic) : Line :=
  (if d.kind.isError then Status.failed else Status.warning).line d.message

/-! ## Failures -/

/-- **Why a command fails**: what it was about to do, and the causes. -/
structure Failure where
  text : String
  causes : List String
deriving DecidableEq, Inhabited

namespace Failure

/-- A text with something before its first line and something before each other line. -/
def indent (first others text : String) : String :=
  first ++ Text.joinWith ("\n" ++ others) (Text.segments '\n' text)

def rightAligned (n : Nat) : String :=
  String.ofList (List.replicate (5 - (toString n).length) ' ') ++ toString n

/-- The causes, numbered if there are several. -/
def causeLines : List String → List String
  | [] => []
  | [cause] => [indent "    " "    " cause]
  | causes =>
    causes.zipIdx.map fun (cause, n) => indent (rightAligned n ++ ": ") "       " cause

def message (f : Failure) : String :=
  if f.causes.isEmpty then s!"Error: {f.text}"
  else Text.joinWith "\n" (s!"Error: {f.text}" :: "" :: "Caused by:" :: causeLines f.causes)

/-- The failure with nothing behind it. -/
def of (text : String) : Failure := ⟨text, []⟩

end Failure

/-! ## Causes -/

def LoadError.causes : LoadError → List String
  | .read _ reason => [reason.message]
  | .parse _ fault => [fault.message]
  | _ => []

def SourceError.causes : SourceError → List String
  | .read _ reason => [reason.message]
  | .parse _ fault => [fault.message]
  | .walk .. => []

def ManifestError.causes : ManifestError → List String
  | .read _ reason => [reason.message]
  | .parse _ fault => [fault.message]

def AssemblyError.causes : AssemblyError → List String
  | .externalResolution _ error => error.message :: error.causes
  | .source _ _ error => error.message :: error.causes
  | _ => []

end FeatureAssembly
