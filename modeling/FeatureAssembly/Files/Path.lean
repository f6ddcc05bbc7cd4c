import FeatureAssembly.Text.Segments

/-!
# Paths

A path is a text whose segments stand between slashes. Nothing is normalised: joining
puts texts behind each other, and a parent is a leading part of the text.

A segment is a component if it is not empty and not a dot; a dot at the very start is a
component too.

These are the paths of Unix: nothing but a slash sets segments apart, only a leading one
makes a path absolute, and backslashes and drives mean nothing. What is said about the
paths of a repository and of feature files, that they stay where they belong and that
different ones stay apart, rests on this.
-/

namespace FeatureAssembly.Path

open Text

/-- Whether a path starts at the root. -/
def isAbsolute (p : String) : Bool := startsWith "/" p

def endsWithSlash (p : String) : Bool := p.toList.getLast? == some '/'

/-- **A path with another one behind it.** An absolute path stands for itself, and a
slash goes between the two unless there is one already or nothing to set apart. -/
def join (base part : String) : String :=
  if isAbsolute part then part
  else if base = "" || endsWithSlash base then base ++ part
  else base ++ "/" ++ part

/-- The segments of a path. -/
def parts (p : String) : List String := segments '/' p

def componentPositions (p : String) : List Nat :=
  (parts p).zipIdx.filterMap fun (s, position) =>
    if s = "" || (s = "." && position != 0) then none else some position

/-- The path up to a segment. -/
def upTo (p : String) (position : Nat) : String := joinWith "/" ((parts p).take (position + 1))

/-- The path without any components. -/
def start (p : String) : String := if isAbsolute p then "/" else ""

/-- The paths above a path, nearest first. -/
def parents (p : String) : List String :=
  match (componentPositions p).reverse with
  | [] => []
  | _ :: above => above.map (upTo p) ++ [start p]

/-- The path without its last component, if it has one. -/
def parent? (p : String) : Option String := (parents p).head?

/-- A path and the paths above it, nearest first. -/
def ancestors (p : String) : List String := p :: parents p

/-- What stands in a file name behind its last dot, if something stands before it. -/
def extension? (name : String) : Option String :=
  match (segments '.' name).reverse with
  | [] | [_] | [_, ""] => none
  | last :: _ => some last

end FeatureAssembly.Path
