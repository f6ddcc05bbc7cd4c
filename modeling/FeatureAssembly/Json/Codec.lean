import FeatureAssembly.Json.Scan

/-!
# Codecs

A `Codec` ties a type to its documents: it reads a value from a text, takes a
value from a document that is already read, and writes a value as a document.
Codecs of records, lists and tables are put together from codecs of their parts,
so a type and its format are declared together, once.

**The order of reading**: a text is read from left to right and the first problem
met is the fault. A field that nobody wants is passed over; a field that comes
twice is a fault at its second name; a field that is missing is a fault at the
end of its object.

**The depth**: a text may nest at most 127 lists and objects, those of unwanted
fields not counted.

What it does not establish: that what is written can be read. That is a law of
each codec for the values it can write.
-/

namespace FeatureAssembly.Json

/-- How many lists and objects a text may nest. -/
def depthLimit : Nat := 127

/-- Go one list or object deeper. -/
def deeper : Nat → Except Fault Nat
  | 0 => malformed .depth
  | depth + 1 => .ok depth

/-- **A type and its documents.** -/
structure Codec (α : Type) where
  /-- Read a value from the start of a text, with a bound on the depth. -/
  read : Nat → List Char → Except Fault (α × List Char)
  /-- Take a value from a document. -/
  ofJson : Json → Except Fault α
  /-- Write a value as a document. -/
  toJson : α → Json

/-! ## What is found instead -/

/-- What a document is, for a message. -/
def found : Json → Found
  | .null => .null
  | .boolean b => .boolean b
  | .number n => .number n
  | .string s => .string s
  | .array _ => .sequence
  | .object _ => .map

/-- The fault of a document of the wrong type. -/
def wrongType {α : Type} (wanted : String) (j : Json) : Except Fault α :=
  mismatch (.wrongType (found j) wanted)

/-- A fault, unless the text itself is at fault before it. -/
def afterText {α β : Type} (text : Except Fault β) (m : β → Mismatch) : Except Fault α :=
  match text with
  | .error e => .error e
  | .ok b => mismatch (m b)

/-- The fault of a text that starts with no value of the wanted type. Lists and
objects are not looked into. -/
def wrongStart {α : Type} (wanted : String) : List Char → Except Fault α
  | [] => unfinished .value
  | c :: rest =>
    if c = 'n' then
      afterText (skipWord ['u', 'l', 'l'] rest) fun _ => .wrongType .null wanted
    else if c = 't' then
      afterText (skipWord ['r', 'u', 'e'] rest) fun _ => .wrongType (.boolean true) wanted
    else if c = 'f' then
      afterText (skipWord ['a', 'l', 's', 'e'] rest) fun _ => .wrongType (.boolean false) wanted
    else if c = '-' then
      afterText (scanNumber true rest) fun n => .wrongType (.number n.1) wanted
    else if c.isDigit then
      afterText (scanNumber false (c :: rest)) fun n => .wrongType (.number n.1) wanted
    else if c = '"' then
      afterText (scanString rest) fun s => .wrongType (.string (String.ofList s.1)) wanted
    else if c = '[' then mismatch (.wrongType .sequence wanted)
    else if c = '\x7b' then mismatch (.wrongType .map wanted)
    else malformed .noValue

/-! ## Loops -/

/-- Read the items of a list behind its bracket. The bound on their number is never
reached, since every item takes a character. -/
def readItems {α : Type} (item : List Char → Except Fault (α × List Char)) :
    Nat → Bool → List Char → Except Fault (List α × List Char)
  | 0, _, _ => unfinished .list
  | bound + 1, first, cs => do
    match ← nextItem first cs with
    | none => return ([], ← closeList cs)
    | some start =>
      let (x, cs) ← item start
      let (xs, cs) ← readItems item bound false cs
      return (x :: xs, cs)

/-- Read the fields of an object behind its brace, each into what the fields before
it gave. A field is read from behind its name. -/
def readFields {σ : Type} (field : σ → String → List Char → Except Fault (σ × List Char)) :
    Nat → Bool → σ → List Char → Except Fault (σ × List Char)
  | 0, _, _, _ => unfinished .object
  | bound + 1, first, s, cs => do
    match ← nextName first cs with
    | none => return (s, cs)
    | some (name, rest) =>
      let (s, rest) ← field s name rest
      readFields field bound false s rest

/-! ## Any document -/

/-- Read any document. -/
def readAny : Nat → List Char → Except Fault (Json × List Char)
  | depth, cs =>
    match skipBlanks cs with
    | [] => unfinished .value
    | c :: rest =>
      if c = 'n' then (skipWord ['u', 'l', 'l'] rest).map (Json.null, ·)
      else if c = 't' then (skipWord ['r', 'u', 'e'] rest).map (Json.boolean true, ·)
      else if c = 'f' then (skipWord ['a', 'l', 's', 'e'] rest).map (Json.boolean false, ·)
      else if c = '-' then (scanNumber true rest).map fun n => (.number n.1, n.2)
      else if c.isDigit then (scanNumber false (c :: rest)).map fun n => (.number n.1, n.2)
      else if c = '"' then (scanString rest).map fun s => (.string (String.ofList s.1), s.2)
      else if c = '[' then
        match depth with
        | 0 => malformed .depth
        | depth + 1 =>
          (readItems (readAny depth) (rest.length + 1) true rest).map fun r => (.array r.1, r.2)
      else if c = '\x7b' then
        match depth with
        | 0 => malformed .depth
        | depth + 1 =>
          let field (fields : List (String × Json)) (name : String) (cs : List Char) :=
            (skipColon cs).bind fun cs =>
              (readAny depth cs).map fun r => ((name, r.1) :: fields, r.2)
          ((readFields field (rest.length + 1) true [] rest).bind fun r =>
            (closeObject r.2).map fun cs => (.object r.1.reverse, cs))
      else malformed .noValue

namespace Codec

variable {α β : Type}

/-! ## Decoding and encoding -/

/-- **Read a value from a whole text.** -/
def decode (c : Codec α) (text : String) : Except Fault α :=
  match c.read depthLimit text.toList with
  | .error e => .error e
  | .ok (value, rest) => if (skipBlanks rest).isEmpty then .ok value else malformed .trailing

/-- **Write a value as a compact text.** -/
def encode (c : Codec α) (value : α) : String := (c.toJson value).compact

/-- Write a value as an indented text. -/
def encodeIndented (c : Codec α) (value : α) : String := (c.toJson value).indented

/-! ## Leaves -/

/-- Any document, in its sorted form. -/
def any : Codec Json where
  read depth cs := (readAny depth cs).map fun r => (r.1.sorted, r.2)
  ofJson j := .ok j.sorted
  toJson j := j

/-- A string, described by the given words. -/
def textAs (wanted : String) : Codec String where
  read _ cs :=
    match skipBlanks cs with
    | '"' :: rest => (scanString rest).map fun s => (String.ofList s.1, s.2)
    | start => wrongStart wanted start
  ofJson
    | .string s => .ok s
    | j => wrongType wanted j
  toJson s := .string s

def text : Codec String := textAs "a string"

def path : Codec String := textAs "path string"

/-- A truth value. -/
def flag : Codec Bool where
  read _ cs :=
    match skipBlanks cs with
    | 't' :: rest => (skipWord ['r', 'u', 'e'] rest).map (true, ·)
    | 'f' :: rest => (skipWord ['a', 'l', 's', 'e'] rest).map (false, ·)
    | start => wrongStart "a boolean" start
  ofJson
    | .boolean b => .ok b
    | j => wrongType "a boolean" j
  toJson b := .boolean b

/-- The words for a number of 32 bits. -/
def wordPhrase : String := "u32"

/-- A number of 32 bits. -/
def wordOfNumber : Number → Except Fault UInt32
  | .integer n =>
    if 0 ≤ n ∧ n.toNat < UInt32.size then .ok (UInt32.ofNat n.toNat)
    else mismatch (.wrongValue (.number (.integer n)) wordPhrase)
  | n => mismatch (.wrongType (.number n) wordPhrase)

/-- An integer of 32 bits without sign. -/
def word : Codec UInt32 where
  read _ cs :=
    match skipBlanks cs with
    | [] => unfinished .value
    | c :: rest => do
      if c = '-' then
        let (n, rest) ← scanNumber true rest
        return (← wordOfNumber n, rest)
      else if c.isDigit then
        let (n, rest) ← scanNumber false (c :: rest)
        return (← wordOfNumber n, rest)
      else wrongStart wordPhrase (c :: rest)
  ofJson
    | .number n => wordOfNumber n
    | j => wrongType wordPhrase j
  toJson n := .number (.integer n.toNat)

/-- Values given by strings of their own: how to read such a string, with the reason
if it is none, and how to write it. -/
def viaText (parse : String → Except String α) (print : α → String) : Codec α where
  read depth cs := do
    let (s, rest) ← text.read depth cs
    match parse s with
    | .ok a => return (a, rest)
    | .error reason => mismatch (.refused reason)
  ofJson j := do
    let s ← text.ofJson j
    match parse s with
    | .ok a => return a
    | .error reason => mismatch (.refused reason)
  toJson a := .string (print a)

/-! ## Choices -/

/-- The value of a name among named values. -/
def choose (all : List α) (name : α → String) (s : String) : Except Fault α :=
  match all.find? fun a => name a == s with
  | some a => .ok a
  | none => mismatch (.unknownChoice s (all.map name))

/-- What stands for a value in the long form of a choice. -/
def readUnit (cs : List Char) : Except Fault (List Char) :=
  match skipBlanks cs with
  | 'n' :: rest => skipWord ['u', 'l', 'l'] rest
  | start => wrongStart "unit" start

/-- What stands for a value in the long form of a choice, in a document. -/
def unitOfJson : Json → Except Fault Unit
  | .null => .ok ()
  | .object [] => .ok ()
  | j => wrongType "unit" j

/-- One of finitely many named values: the name, or an object with the name as its
only field and null in it. -/
def choice (all : List α) (name : α → String) : Codec α where
  read depth cs :=
    match skipBlanks cs with
    | [] => unfinished .value
    | '"' :: rest => do
      let (s, rest) ← scanString rest
      return (← choose all name (String.ofList s), rest)
    | '\x7b' :: rest => do
      let _ ← deeper depth
      match skipBlanks rest with
      | [] => unfinished .value
      | '"' :: rest =>
        let (s, rest) ← scanString rest
        let a ← choose all name (String.ofList s)
        let rest ← readUnit (← skipColon rest)
        match skipBlanks rest with
        | [] => unfinished .object
        | '\x7d' :: rest => return (a, rest)
        | _ => malformed .noValue
      | '\x7d' :: _ => malformed .noValue
      | _ => malformed .name
    | _ => malformed .noValue
  ofJson
    | .string s => choose all name s
    | .object [(s, j)] => do
      let a ← choose all name s
      unitOfJson j
      return a
    | .object _ => mismatch (.wrongValue .map "map with a single key")
    | j => wrongType "string or map" j
  toJson a := .string (name a)

/-! ## Lists, tables, absent values -/

/-- A value or null. -/
def nullable (c : Codec α) : Codec (Option α) where
  read depth cs :=
    match skipBlanks cs with
    | 'n' :: rest => (skipWord ['u', 'l', 'l'] rest).map (none, ·)
    | start => (c.read depth start).map fun r => (some r.1, r.2)
  ofJson
    | .null => .ok none
    | j => (c.ofJson j).map some
  toJson
    | none => .null
    | some a => c.toJson a

def list (c : Codec α) : Codec (List α) where
  read depth cs :=
    match skipBlanks cs with
    | '[' :: rest => do
      let depth ← deeper depth
      readItems (c.read depth) (rest.length + 1) true rest
    | start => wrongStart "a sequence" start
  ofJson
    | .array items => items.mapM c.ofJson
    | j => wrongType "a sequence" j
  toJson items := .array (items.map c.toJson)

/-- A table by names that are read and written as strings. The last value of a name
stays. -/
def table {κ : Type} [Ord κ] [Std.TransOrd κ] (key : String → κ) (name : κ → String)
    (c : Codec α) : Codec (SortedMap κ α) where
  read depth cs :=
    match skipBlanks cs with
    | '\x7b' :: rest => do
      let depth ← deeper depth
      let field (m : SortedMap κ α) (s : String) (cs : List Char) := do
        let (a, cs) ← c.read depth (← skipColon cs)
        return (m.insert (key s) a, cs)
      let (m, rest) ← readFields field (rest.length + 1) true .empty rest
      return (m, ← closeObject rest)
    | start => wrongStart "a map" start
  ofJson
    | .object fields =>
      fields.foldlM (fun m f => (c.ofJson f.2).map fun a => m.insert (key f.1) a) .empty
    | j => wrongType "a map" j
  toJson m := .object (m.entries.map fun e => (name e.1, c.toJson e.2))

def named (c : Codec α) : Codec (SortedMap String α) := table (fun s => s) (fun s => s) c

/-- The same documents for another type. -/
def via (c : Codec α) (make : α → β) (parts : β → α) : Codec β where
  read depth cs := (c.read depth cs).map fun r => (make r.1, r.2)
  ofJson j := (c.ofJson j).map make
  toJson b := c.toJson (parts b)

end Codec

/-! ## Records -/

/-- **The fields of a record**, in order. The first index is the type of the values
of all fields, the second the type of what is read of them so far. A field with a
default may be missing; a value that is to be hidden is not written. -/
inductive Fields : Type → Type → Type 1 where
  | nil : Fields Unit Unit
  | cons {α β σ : Type} (name : String) (codec : Codec α) (default : Option α)
      (hide : α → Bool) (rest : Fields β σ) : Fields (α × β) (Option α × σ)

namespace Fields

variable {β σ : Type}

/-- A field that must be there. -/
def required {α : Type} (name : String) (codec : Codec α) (rest : Fields β σ) :
    Fields (α × β) (Option α × σ) :=
  .cons name codec none (fun _ => false) rest

/-- A field that may be missing but is always written. -/
def defaulted {α : Type} (name : String) (codec : Codec α) (default : α) (rest : Fields β σ) :
    Fields (α × β) (Option α × σ) :=
  .cons name codec (some default) (fun _ => false) rest

/-- A field that may be missing, and is not written when it is to be hidden. -/
def optional {α : Type} (name : String) (codec : Codec α) (default : α) (hide : α → Bool)
    (rest : Fields β σ) : Fields (α × β) (Option α × σ) :=
  .cons name codec (some default) hide rest

/-- The number of fields. -/
def count : {β σ : Type} → Fields β σ → Nat
  | _, _, .nil => 0
  | _, _, .cons _ _ _ _ rest => rest.count + 1

/-- Nothing is read so far. -/
def blank : {β σ : Type} → Fields β σ → σ
  | _, _, .nil => ()
  | _, _, .cons _ _ _ _ rest => (none, rest.blank)

def readField (depth : Nat) :
    {β σ : Type} → Fields β σ → σ → String → List Char → Except Fault (σ × List Char)
  | _, _, .nil, s, _, cs => do
    let cs ← skipValue (← skipColon cs)
    return (s, cs)
  | _, _, .cons name codec _ _ rest, (slot, slots), key, cs =>
    if key = name then
      if slot.isSome then mismatch (.duplicateField name)
      else do
        let (a, cs) ← codec.read depth (← skipColon cs)
        return ((some a, slots), cs)
    else do
      let (slots, cs) ← rest.readField depth slots key cs
      return ((slot, slots), cs)

def takeField : {β σ : Type} → Fields β σ → σ → String × Json → Except Fault σ
  | _, _, .nil, s, _ => .ok s
  | _, _, .cons name codec _ _ rest, (slot, slots), f =>
    if f.1 = name then
      if slot.isSome then mismatch (.duplicateField name)
      else (codec.ofJson f.2).map fun a => (some a, slots)
    else (rest.takeField slots f).map (slot, ·)

/-- The values of all fields, with defaults for the missing ones. -/
def complete : {β σ : Type} → Fields β σ → σ → Except Fault β
  | _, _, .nil, _ => .ok ()
  | _, _, .cons name _ default _ rest, (slot, slots) =>
    match slot.or default with
    | some a => (rest.complete slots).map (a, ·)
    | none => mismatch (.missingField name)

/-- Read the values of all fields from a list, where the last ones may be missing if
they have defaults. The fault of a missing one depends on its place. -/
def readInOrder (depth : Nat) (short : Nat → Fault) :
    {β σ : Type} → Fields β σ → Nat → Bool → List Char → Except Fault (β × List Char)
  | _, _, .nil, _, _, cs => .ok ((), cs)
  | _, _, .cons _ codec default _ rest, place, first, cs => do
    match ← nextItem first cs with
    | some start =>
      let (a, cs) ← codec.read depth start
      let (b, cs) ← rest.readInOrder depth short (place + 1) false cs
      return ((a, b), cs)
    | none =>
      match default with
      | none => .error (short place)
      | some a =>
        let (b, cs) ← rest.readInOrder depth short (place + 1) first cs
        return ((a, b), cs)

/-- Take the values of all fields from the items of a document, and answer also with
the items that are left. -/
def takeInOrder (short : Nat → Fault) :
    {β σ : Type} → Fields β σ → Nat → List Json → Except Fault (β × List Json)
  | _, _, .nil, _, items => .ok ((), items)
  | _, _, .cons _ codec default _ rest, place, items =>
    match items, default with
    | j :: items, _ => do
      let a ← codec.ofJson j
      let (b, items) ← rest.takeInOrder short (place + 1) items
      return ((a, b), items)
    | [], none => .error (short place)
    | [], some a => do
      let (b, items) ← rest.takeInOrder short (place + 1) []
      return ((a, b), items)

def write : {β σ : Type} → Fields β σ → β → List (String × Json)
  | _, _, .nil, _ => []
  | _, _, .cons name codec _ hide rest, (a, b) =>
    if hide a then rest.write b else (name, codec.toJson a) :: rest.write b

end Fields

/-- The words for a number of elements. -/
def elementsPhrase (count : Nat) : String :=
  if count = 1 then "1 element" else s!"{count} elements"

/-- **The codec of a record**: an object with its fields in any order, or a list of
their values in the declared order. -/
def Codec.record {β σ ρ : Type} (name : String) (fields : Fields β σ) (make : β → ρ)
    (parts : ρ → β) : Codec ρ where
  read depth cs :=
    match skipBlanks cs with
    | '\x7b' :: rest => do
      let depth ← deeper depth
      let (slots, rest) ←
        readFields (fun s key cs => fields.readField depth s key cs) (rest.length + 1) true
          fields.blank rest
      let values ← fields.complete slots
      return (make values, ← closeObject rest)
    | '[' :: rest => do
      let depth ← deeper depth
      let (values, rest) ← fields.readInOrder depth short 0 true rest
      return (make values, ← closeList rest)
    | start => wrongStart s!"struct {name}" start
  ofJson
    | .object members => do
      let slots ← members.foldlM (fun s f => fields.takeField s f) fields.blank
      let values ← fields.complete slots
      return make values
    | .array items => do
      let (values, left) ← fields.takeInOrder short 0 items
      if left.isEmpty then return make values
      else
        mismatch (.wrongLength items.length
          (elementsPhrase (items.length - left.length) ++ " in sequence"))
    | j => wrongType s!"struct {name}" j
  toJson r := .object (fields.write (parts r))
where
  short (place : Nat) : Fault :=
    .mismatch (.wrongLength place s!"struct {name} with {elementsPhrase fields.count}")

end FeatureAssembly.Json
