import FeatureAssembly.Json.Printer
import FeatureAssembly.Text.Quoted
import FeatureAssembly.Text.Segments

/-!
# Faults of a document

The first problem that a reader meets in a text, as a cause: the text ends too
early, the text is no document, or the document is not of the wanted shape. The
wording is in `Fault.message` alone.
-/

namespace FeatureAssembly.Json

/-! ## Causes -/

/-- What was being read when the text ended. -/
inductive Unfinished where
  | list
  | object
  | string
  | value
deriving DecidableEq, Repr

/-- Why a text is no document. -/
inductive Malformed where
  /-- A name is not followed by a colon. -/
  | noColon
  /-- An item is followed by neither a comma nor the end of the list. -/
  | noItemEnd
  /-- A field is followed by neither a comma nor the end of the object. -/
  | noFieldEnd
  /-- A word starts like `null`, `true` or `false` and goes on differently. -/
  | word
  /-- No value starts here. -/
  | noValue
  /-- A backslash before something that is no escape. -/
  | escape
  /-- A number is spelled wrongly. -/
  | number
  /-- A number is too large. -/
  | range
  /-- A control character stands in a string. -/
  | control
  /-- The name of a field is no string. -/
  | name
  /-- A surrogate escape stands without its partner. -/
  | surrogate
  /-- An escape is missing behind a leading surrogate. -/
  | escapeEnd
  /-- A comma stands before the end of a list or object. -/
  | comma
  /-- Something stands behind the end. -/
  | trailing
  /-- Lists and objects are nested too deep. -/
  | depth
deriving DecidableEq, Repr

/-- What stands where something else was wanted. -/
inductive Found where
  | null
  | boolean (b : Bool)
  | number (n : Number)
  | string (s : String)
  | sequence
  | map
deriving DecidableEq

/-- Why a document is not of the wanted shape. -/
inductive Mismatch where
  | missingField (name : String)
  | duplicateField (name : String)
  | wrongType (found : Found) (wanted : String)
  | wrongValue (found : Found) (wanted : String)
  | unknownChoice (found : String) (choices : List String)
  | wrongLength (length : Nat) (wanted : String)
  /-- A string is not the text of the wanted thing; the reason is given. -/
  | refused (reason : String)
deriving DecidableEq

/-- **The first problem of a text.** -/
inductive Fault where
  | unfinished (u : Unfinished)
  | malformed (m : Malformed)
  | mismatch (m : Mismatch)
deriving DecidableEq

/-! ## Wording -/

def Unfinished.message : Unfinished → String
  | .list => "EOF while parsing a list"
  | .object => "EOF while parsing an object"
  | .string => "EOF while parsing a string"
  | .value => "EOF while parsing a value"

def Malformed.message : Malformed → String
  | .noColon => "expected `:`"
  | .noItemEnd => "expected `,` or `]`"
  | .noFieldEnd => "expected `,` or `\x7d`"
  | .word => "expected ident"
  | .noValue => "expected value"
  | .escape => "invalid escape"
  | .number => "invalid number"
  | .range => "number out of range"
  | .control => "control character (\\u0000-\\u001F) found while parsing a string"
  | .name => "key must be a string"
  | .surrogate => "lone leading surrogate in hex escape"
  | .escapeEnd => "unexpected end of hex escape"
  | .comma => "trailing comma"
  | .trailing => "trailing characters"
  | .depth => "recursion limit exceeded"

def Found.phrase : Found → String
  | .null => "null"
  | .boolean b => s!"boolean `{String.ofList (booleanText b)}`"
  | .number (.integer n) => s!"integer `{n}`"
  | .number (.real x) => s!"floating point `{String.ofList x.text}`"
  | .string s => s!"string {Text.inQuotes s}"
  | .sequence => "sequence"
  | .map => "map"

def inBackQuotes (name : String) : String := s!"`{name}`"

/-- The choices, in words. -/
def choicesPhrase : List String → String
  | [] => "there are no variants"
  | [a] => s!"expected {inBackQuotes a}"
  | [a, b] => s!"expected {inBackQuotes a} or {inBackQuotes b}"
  | names => "expected one of " ++ Text.joinWith ", " (names.map inBackQuotes)

def Mismatch.message : Mismatch → String
  | .missingField name => s!"missing field {inBackQuotes name}"
  | .duplicateField name => s!"duplicate field {inBackQuotes name}"
  | .wrongType found wanted => s!"invalid type: {found.phrase}, expected {wanted}"
  | .wrongValue found wanted => s!"invalid value: {found.phrase}, expected {wanted}"
  | .unknownChoice found choices =>
    s!"unknown variant {inBackQuotes found}, {choicesPhrase choices}"
  | .wrongLength length wanted => s!"invalid length {length}, expected {wanted}"
  | .refused reason => reason

/-- **The text of a fault.** -/
def Fault.message : Fault → String
  | .unfinished u => u.message
  | .malformed m => m.message
  | .mismatch m => m.message

end FeatureAssembly.Json
