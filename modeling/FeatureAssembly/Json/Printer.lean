import FeatureAssembly.Json.Value
import FeatureAssembly.Json.Shortest
import FeatureAssembly.Digest

/-!
# Printing documents

Two written forms of a document: the compact one, without blanks, over which
digests are taken, and the indented one for files and terminals. Fields are
written in the order in which they stand. In strings only the quote, the
backslash and the control characters below the space are escaped.
-/

namespace FeatureAssembly.Json

/-! ## Leaves -/

def escapeLetter? (c : Char) : Option Char :=
  if c = '"' then some '"'
  else if c = '\\' then some '\\'
  else if c = '\x08' then some 'b'
  else if c = '\x09' then some 't'
  else if c = '\x0a' then some 'n'
  else if c = '\x0c' then some 'f'
  else if c = '\x0d' then some 'r'
  else none

/-- A character as it stands in a string. -/
def escaped (c : Char) : List Char :=
  match escapeLetter? c with
  | some letter => ['\\', letter]
  | none => if c.toNat < 0x20 then '\\' :: 'u' :: Digest.hexDigits 4 c.toNat else [c]

def escapedAll : List Char → List Char
  | [] => []
  | c :: rest => escaped c ++ escapedAll rest

def quoted (s : String) : List Char := '"' :: escapedAll s.toList ++ ['"']

def numberText : Number → List Char
  | .integer n => (toString n).toList
  | .real x => x.text

/-- The text of a truth value. -/
def booleanText (b : Bool) : List Char := if b then "true".toList else "false".toList

/-! ## The compact form -/

mutual

/-- The document without any blanks. -/
def compactChars : Json → List Char
  | .null => "null".toList
  | .boolean b => booleanText b
  | .number n => numberText n
  | .string s => quoted s
  | .array [] => ['[', ']']
  | .array (x :: rest) => '[' :: compactChars x ++ compactItems rest ++ [']']
  | .object [] => ['\x7b', '\x7d']
  | .object ((name, x) :: rest) =>
    '\x7b' :: quoted name ++ ':' :: compactChars x ++ compactFields rest ++ ['\x7d']

/-- The items after the first, each behind a comma. -/
def compactItems : List Json → List Char
  | [] => []
  | x :: rest => ',' :: compactChars x ++ compactItems rest

/-- The fields after the first, each behind a comma. -/
def compactFields : List (String × Json) → List Char
  | [] => []
  | (name, x) :: rest => ',' :: quoted name ++ ':' :: compactChars x ++ compactFields rest

end

/-- **The compact text of a document.** -/
def compact (j : Json) : String := String.ofList j.compactChars

/-! ## The indented form -/

/-- A new line with an indentation of two blanks for each level. -/
def newLine (level : Nat) : List Char := '\n' :: List.replicate (2 * level) ' '

mutual

/-- The document with one item or field to a line. -/
def indentedChars (level : Nat) : Json → List Char
  | .null => "null".toList
  | .boolean b => booleanText b
  | .number n => numberText n
  | .string s => quoted s
  | .array [] => ['[', ']']
  | .array (x :: rest) =>
    '[' :: newLine (level + 1) ++ indentedChars (level + 1) x ++ indentedItems (level + 1) rest ++
      newLine level ++ [']']
  | .object [] => ['\x7b', '\x7d']
  | .object ((name, x) :: rest) =>
    '\x7b' :: newLine (level + 1) ++ quoted name ++ ':' :: ' ' :: indentedChars (level + 1) x ++
      indentedFields (level + 1) rest ++ newLine level ++ ['\x7d']

/-- The items after the first, each on a line of its own. -/
def indentedItems (level : Nat) : List Json → List Char
  | [] => []
  | x :: rest => ',' :: newLine level ++ indentedChars level x ++ indentedItems level rest

/-- The fields after the first, each on a line of its own. -/
def indentedFields (level : Nat) : List (String × Json) → List Char
  | [] => []
  | (name, x) :: rest =>
    ',' :: newLine level ++ quoted name ++ ':' :: ' ' :: indentedChars level x ++
      indentedFields level rest

end

/-- **The indented text of a document.** -/
def indented (j : Json) : String := String.ofList (j.indentedChars 0)

end FeatureAssembly.Json
