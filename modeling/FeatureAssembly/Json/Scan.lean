import FeatureAssembly.Json.Fault

/-!
# Scanning a text

The pieces of the reader that look at characters: blanks, words, numbers,
strings, and the separators of lists and objects. Each of them takes the rest of
the text and answers with what it read and the new rest, or with the first fault.

Values that nobody wants are passed over by `skipValue`, which keeps the open
lists and objects on a list of its own: it nests to any depth, and it does not
look at the meaning of an escape or at the size of a number.
-/

namespace FeatureAssembly.Json

/-- The end of the text, met while something was being read. -/
abbrev unfinished {α : Type} (u : Unfinished) : Except Fault α := .error (.unfinished u)

/-- A text that is no document. -/
abbrev malformed {α : Type} (m : Malformed) : Except Fault α := .error (.malformed m)

/-- A document that is not of the wanted shape. -/
abbrev mismatch {α : Type} (m : Mismatch) : Except Fault α := .error (.mismatch m)

/-! ## Blanks and words -/

/-- The blanks between the parts of a document. -/
def isBlank (c : Char) : Bool := c == ' ' || c == '\t' || c == '\n' || c == '\r'

/-- The text from its first character that is no blank. -/
def skipBlanks (cs : List Char) : List Char := cs.dropWhile isBlank

/-- Pass over the given letters. -/
def skipWord : List Char → List Char → Except Fault (List Char)
  | [], cs => .ok cs
  | _ :: _, [] => unfinished .value
  | l :: letters, c :: cs => if c = l then skipWord letters cs else malformed .word

/-! ## Numbers -/

def digitValue (c : Char) : Nat := c.toNat - '0'.toNat

def digitsValue (digits : List Char) : Nat :=
  digits.foldl (fun n d => n * 10 + digitValue d) 0

/-- The bound of the significands that are kept exactly. -/
def significandBound : Nat := UInt64.size

/-- Take digits into a significand as long as it stays below the bound, and answer
also with the digits that are left. -/
def gather (significand : Nat) : List Char → Nat × List Char
  | [] => (significand, [])
  | d :: digits =>
    let next := significand * 10 + digitValue d
    if next < significandBound then gather next digits else (significand, d :: digits)

/-- The number of a significand and a power of ten. -/
def realNumber (negative : Bool) (significand : Nat) (power : Int) (cs : List Char) :
    Except Fault (Number × List Char) :=
  match Binary64.ofDecimal? significand power with
  | none => malformed .range
  | some x => .ok (.real (if negative then x.negate else x), cs)

/-- Read what follows the letter of an exponent. -/
def scanExponent (negative : Bool) (significand : Nat) (power : Int) (cs : List Char) :
    Except Fault (Number × List Char) :=
  let (down, cs) :=
    match cs with
    | '+' :: rest => (false, rest)
    | '-' :: rest => (true, rest)
    | _ => (false, cs)
  match cs with
  | [] => unfinished .value
  | c :: _ =>
    if c.isDigit then
      let n : Int := digitsValue (cs.takeWhile Char.isDigit)
      realNumber negative significand (if down then power - n else power + n)
        (cs.dropWhile Char.isDigit)
    else malformed .number

/-- Read an exponent, if there is one. -/
def scanExponent? (negative : Bool) (significand : Nat) (power : Int) (cs : List Char) :
    Except Fault (Number × List Char) :=
  match cs with
  | c :: rest =>
    if c = 'e' ∨ c = 'E' then scanExponent negative significand power rest
    else realNumber negative significand power cs
  | [] => realNumber negative significand power cs

/-- Read what follows a decimal point. -/
def scanFraction (negative : Bool) (significand : Nat) (power : Int) (cs : List Char) :
    Except Fault (Number × List Char) :=
  match cs.takeWhile Char.isDigit with
  | [] => if cs.isEmpty then unfinished .value else malformed .number
  | digits =>
    let (significand, left) := gather significand digits
    scanExponent? negative significand (power - (digits.length - left.length : Nat))
      (cs.dropWhile Char.isDigit)

/-- The number of an integer without fraction and exponent. Zero with a sign and
integers beyond 64 bits are no integers. -/
def integerNumber (negative : Bool) (n : Nat) : Number :=
  if !negative then .integer n
  else if n = 0 ∨ Nat.pow 2 63 < n then .real (Binary64.ofNat n).negate
  else .integer (-n)

/-- Read what follows the digits of an integer. -/
def scanIntegerEnd (negative : Bool) (significand dropped : Nat) (cs : List Char) :
    Except Fault (Number × List Char) :=
  match cs with
  | '.' :: rest => scanFraction negative significand dropped rest
  | 'e' :: rest => scanExponent negative significand dropped rest
  | 'E' :: rest => scanExponent negative significand dropped rest
  | _ =>
    if dropped = 0 then .ok (integerNumber negative significand, cs)
    else realNumber negative significand dropped cs

/-- Read a number behind its sign. -/
def scanNumber (negative : Bool) (cs : List Char) : Except Fault (Number × List Char) :=
  match cs with
  | [] => unfinished .value
  | c :: rest =>
    if c = '0' then
      if (rest.head?.map Char.isDigit).getD false then malformed .number
      else scanIntegerEnd negative 0 0 rest
    else if c.isDigit then
      let (significand, left) := gather 0 (cs.takeWhile Char.isDigit)
      scanIntegerEnd negative significand left.length (cs.dropWhile Char.isDigit)
    else malformed .number

/-! ## Strings -/

/-- The value of a hexadecimal digit. -/
def hexValue? (c : Char) : Option Nat :=
  if c.isDigit then some (digitValue c)
  else if 'a' ≤ c ∧ c ≤ 'f' then some (c.toNat - 'a'.toNat + 10)
  else if 'A' ≤ c ∧ c ≤ 'F' then some (c.toNat - 'A'.toNat + 10)
  else none

/-- The value of four hexadecimal digits. -/
def hexValues? (a b c d : Char) : Option Nat :=
  match hexValue? a, hexValue? b, hexValue? c, hexValue? d with
  | some a, some b, some c, some d => some (a * 4096 + b * 256 + c * 16 + d)
  | _, _, _, _ => none

def unescape? (letter : Char) : Option Char :=
  if letter = '"' then some '"'
  else if letter = '\\' then some '\\'
  else if letter = '/' then some '/'
  else if letter = 'b' then some '\x08'
  else if letter = 'f' then some '\x0c'
  else if letter = 'n' then some '\x0a'
  else if letter = 'r' then some '\x0d'
  else if letter = 't' then some '\x09'
  else none

/-- Whether a number is that of a leading surrogate. -/
def isLeading (n : Nat) : Bool := 0xd800 ≤ n && n ≤ 0xdbff

/-- Whether a number is that of a trailing surrogate. -/
def isTrailing (n : Nat) : Bool := 0xdc00 ≤ n && n ≤ 0xdfff

/-- The character of a pair of surrogates. -/
def pairValue (leading trailing : Nat) : Char :=
  Char.ofNat ((leading - 0xd800) * 1024 + (trailing - 0xdc00) + 0x10000)

/-- The fault of too few or of wrong hexadecimal digits. -/
def hexFault (cs : List Char) : Fault :=
  if (String.ofList cs).utf8ByteSize < 4 then .unfinished .string else .malformed .escape

/-- The fault of a letter that escapes nothing. -/
def escapeFault (letter : Char) (cs : List Char) : Fault :=
  if letter = 'u' then hexFault cs else .malformed .escape

/-- The fault of what follows a leading surrogate, if it is no escape with four
digits. -/
def pairFault : List Char → Fault
  | [] => .unfinished .string
  | c :: rest =>
    if c = '\\' then
      match rest with
      | [] => .unfinished .string
      | c :: rest => if c = 'u' then hexFault rest else .malformed .escapeEnd
    else .malformed .escapeEnd

/-- Put a character before what was read. -/
def before (c : Char) (r : Except Fault (List Char × List Char)) :
    Except Fault (List Char × List Char) :=
  match r with
  | .ok (cs, rest) => .ok (c :: cs, rest)
  | .error e => .error e

/-- Read a string behind its opening quote. -/
def scanString : List Char → Except Fault (List Char × List Char)
  | [] => unfinished .string
  | '"' :: rest => .ok ([], rest)
  | '\\' :: 'u' :: a :: b :: c :: d :: rest =>
    match hexValues? a b c d with
    | none => malformed .escape
    | some n =>
      if isTrailing n then malformed .surrogate
      else if isLeading n then
        match rest with
        | '\\' :: 'u' :: e :: f :: g :: h :: rest =>
          match hexValues? e f g h with
          | none => malformed .escape
          | some m =>
            if isTrailing m then before (pairValue n m) (scanString rest)
            else malformed .surrogate
        | other => .error (pairFault other)
      else before (Char.ofNat n) (scanString rest)
  | '\\' :: letter :: rest =>
    match unescape? letter with
    | some c => before c (scanString rest)
    | none => .error (escapeFault letter rest)
  | ['\\'] => unfinished .string
  | c :: rest => if c.toNat < 0x20 then malformed .control else before c (scanString rest)

/-- Pass over a string behind its opening quote. -/
def skipString : List Char → Except Fault (List Char)
  | [] => unfinished .string
  | '"' :: rest => .ok rest
  | '\\' :: 'u' :: a :: b :: c :: d :: rest =>
    match hexValues? a b c d with
    | none => malformed .escape
    | some _ => skipString rest
  | '\\' :: letter :: rest =>
    match unescape? letter with
    | some _ => skipString rest
    | none => .error (escapeFault letter rest)
  | ['\\'] => unfinished .string
  | c :: rest => if c.toNat < 0x20 then malformed .control else skipString rest

/-! ## Separators -/

/-- Go to the next item of a list: where it starts, or none at the end. -/
def nextItem (first : Bool) (cs : List Char) : Except Fault (Option (List Char)) :=
  match skipBlanks cs with
  | [] => unfinished .list
  | ']' :: _ => .ok none
  | c :: rest =>
    if first then .ok (some (c :: rest))
    else if c = ',' then
      match skipBlanks rest with
      | [] => unfinished .value
      | ']' :: _ => malformed .comma
      | start => .ok (some start)
    else malformed .noItemEnd

/-- Pass over the end of a list. -/
def closeList (cs : List Char) : Except Fault (List Char) :=
  match skipBlanks cs with
  | [] => unfinished .list
  | ']' :: rest => .ok rest
  | ',' :: rest =>
    match skipBlanks rest with
    | ']' :: _ => malformed .comma
    | _ => malformed .trailing
  | _ => malformed .trailing

/-- Read the name of a field. -/
def scanName (cs : List Char) : Except Fault (Option (String × List Char)) :=
  match scanString cs with
  | .ok (name, rest) => .ok (some (String.ofList name, rest))
  | .error e => .error e

/-- Go to the next field of an object and read its name, or none at the end. -/
def nextName (first : Bool) (cs : List Char) : Except Fault (Option (String × List Char)) :=
  match skipBlanks cs with
  | [] => unfinished .object
  | '\x7d' :: _ => .ok none
  | c :: rest =>
    if first then if c = '"' then scanName rest else malformed .name
    else if c = ',' then
      match skipBlanks rest with
      | [] => unfinished .value
      | '"' :: start => scanName start
      | '\x7d' :: _ => malformed .comma
      | _ => malformed .name
    else malformed .noFieldEnd

/-- Pass over the colon behind a name. -/
def skipColon (cs : List Char) : Except Fault (List Char) :=
  match skipBlanks cs with
  | [] => unfinished .object
  | ':' :: rest => .ok rest
  | _ => malformed .noColon

/-- Pass over the end of an object. -/
def closeObject (cs : List Char) : Except Fault (List Char) :=
  match skipBlanks cs with
  | [] => unfinished .object
  | '\x7d' :: rest => .ok rest
  | ',' :: _ => malformed .comma
  | _ => malformed .trailing

/-! ## Values that nobody wants -/

/-- Pass over an exponent behind its letter. -/
def skipExponent (cs : List Char) : Except Fault (List Char) :=
  let cs :=
    match cs with
    | '+' :: rest => rest
    | '-' :: rest => rest
    | _ => cs
  if (cs.head?.map Char.isDigit).getD false then .ok (cs.dropWhile Char.isDigit)
  else malformed .number

/-- Pass over an exponent, if there is one. -/
def skipExponent? (cs : List Char) : Except Fault (List Char) :=
  match cs with
  | 'e' :: rest => skipExponent rest
  | 'E' :: rest => skipExponent rest
  | _ => .ok cs

/-- Pass over a number behind its sign. -/
def skipNumber (cs : List Char) : Except Fault (List Char) :=
  match cs with
  | [] => malformed .number
  | c :: rest =>
    if c.isDigit then
      if c = '0' ∧ (rest.head?.map Char.isDigit).getD false then malformed .number
      else
        match cs.dropWhile Char.isDigit with
        | '.' :: rest =>
          if (rest.head?.map Char.isDigit).getD false then
            skipExponent? (rest.dropWhile Char.isDigit)
          else malformed .number
        | rest => skipExponent? rest
    else malformed .number

/-- A list or an object that is open. -/
inductive Frame where
  | list
  | object
deriving DecidableEq

/-- Where the passing over stands. -/
inductive SkipAt where
  /-- Before a value. -/
  | value
  /-- Before the name of a field. -/
  | name
  /-- Behind a value. -/
  | after
deriving DecidableEq

/-- Pass over the rest of a value inside open lists and objects. The first argument
bounds the number of steps; every step but the last takes a character. -/
def skipFrom : Nat → SkipAt → List Frame → List Char → Except Fault (List Char)
  | 0, _, _, _ => unfinished .value
  | steps + 1, .value, open_, cs =>
    match skipBlanks cs with
    | [] => unfinished .value
    | 'n' :: rest => (skipWord ['u', 'l', 'l'] rest).bind (skipFrom steps .after open_)
    | 't' :: rest => (skipWord ['r', 'u', 'e'] rest).bind (skipFrom steps .after open_)
    | 'f' :: rest => (skipWord ['a', 'l', 's', 'e'] rest).bind (skipFrom steps .after open_)
    | '-' :: rest => (skipNumber rest).bind (skipFrom steps .after open_)
    | '"' :: rest => (skipString rest).bind (skipFrom steps .after open_)
    | '[' :: rest =>
      match skipBlanks rest with
      | [] => unfinished .list
      | ']' :: rest => skipFrom steps .after open_ rest
      | start => skipFrom steps .value (.list :: open_) start
    | '\x7b' :: rest =>
      match skipBlanks rest with
      | [] => unfinished .object
      | '\x7d' :: rest => skipFrom steps .after open_ rest
      | start => skipFrom steps .name (.object :: open_) start
    | c :: rest =>
      if c.isDigit then (skipNumber (c :: rest)).bind (skipFrom steps .after open_)
      else malformed .noValue
  | steps + 1, .name, open_, cs =>
    match skipBlanks cs with
    | [] => unfinished .object
    | '"' :: rest =>
      ((skipString rest).bind skipColon).bind (skipFrom steps .value open_)
    | _ => malformed .name
  | _ + 1, .after, [], cs => .ok cs
  | steps + 1, .after, .list :: outer, cs =>
    match skipBlanks cs with
    | [] => unfinished .list
    | ',' :: rest => skipFrom steps .value (.list :: outer) rest
    | ']' :: rest => skipFrom steps .after outer rest
    | _ => malformed .noItemEnd
  | steps + 1, .after, .object :: outer, cs =>
    match skipBlanks cs with
    | [] => unfinished .object
    | ',' :: rest => skipFrom steps .name (.object :: outer) rest
    | '\x7d' :: rest => skipFrom steps .after outer rest
    | _ => malformed .noFieldEnd

/-- Pass over one value. -/
def skipValue (cs : List Char) : Except Fault (List Char) :=
  skipFrom (cs.length + 2) .value [] cs

end FeatureAssembly.Json
