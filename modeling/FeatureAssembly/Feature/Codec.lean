import FeatureAssembly.Feature
import FeatureAssembly.Json.Codec
import FeatureAssembly.Digest

/-!
# The documents of features

The codecs of identities, artifacts, extensions, prototypes and features, and the
digest of a feature, which is taken over its compact text.

An extension is written with its state, its kind and its content side by side. Its
content can only be taken once the kind is known, and the kind may come last, so
kind and content are kept as documents until the whole object is read.
-/

namespace FeatureAssembly

open Json

/-! ## Identities and artifacts -/

/-- Identities are strings in their text form. -/
def Identity.codec : Codec Identity :=
  .viaText (fun s => (Identity.parse s).mapError Identity.ParseError.message) Identity.text

/-- Module keys are strings, and any string is one. -/
def ModuleKey.codec : Codec ModuleKey := .via .text ModuleKey.mk ModuleKey.text

/-- A table of strings. -/
def stringsCodec : Codec (SortedMap String String) := Codec.text.named

def Artifact.codec : Codec Artifact :=
  .record "Artifact"
    (.required "id" Identity.codec <|
      .optional "start_order" (.nullable .word) none Option.isNone <|
      .optional "metadata" stringsCodec .empty SortedMap.isEmpty .nil)
    (fun (id, startOrder, metadata, ()) => ⟨id, startOrder, metadata⟩)
    (fun a => (a.id, a.startOrder, a.metadata, ()))

/-- A collection is the list of its artifacts, with all that are repeated. -/
def Artifacts.codec : Codec Artifacts := .via (.list Artifact.codec) Artifacts.mk Artifacts.entries

/-! ## Extensions -/

def ExtensionState.word : ExtensionState → String
  | .required => "required"
  | .optional => "optional"

def ExtensionState.codec : Codec ExtensionState :=
  .choice [.required, .optional] ExtensionState.word

/-- The kinds of content. -/
inductive ExtensionKind where
  | artifacts
  | structured
  | text
deriving DecidableEq, Repr

def ExtensionKind.word : ExtensionKind → String
  | .artifacts => "artifact_list"
  | .structured => "structured"
  | .text => "text"

def ExtensionKind.codec : Codec ExtensionKind :=
  .choice [.artifacts, .structured, .text] ExtensionKind.word

def ExtensionContent.kind : ExtensionContent → ExtensionKind
  | .artifacts _ => .artifacts
  | .structured _ => .structured
  | .text _ => .text

/-- The content of a kind, from its document. -/
def ExtensionContent.ofJson (kind : ExtensionKind) (j : Json) : Except Fault ExtensionContent :=
  match kind with
  | .artifacts => (Artifacts.codec.ofJson j).map .artifacts
  | .structured => (Codec.any.ofJson j).map .structured
  | .text => (Codec.text.ofJson j).map .text

/-- The document of a content. -/
def ExtensionContent.toJson : ExtensionContent → Json
  | .artifacts list => Artifacts.codec.toJson list
  | .structured value => value
  | .text s => .string s

/-- The fault of a third field that is a second kind or a second content. -/
def noThird : List (String × Json) → Except Fault Unit
  | [] => .ok ()
  | (name, _) :: _ => mismatch (.duplicateField name)

/-- The content that a kind and a content give, which come in either order. Nothing
else is in the list of fields. -/
def ExtensionContent.ofFields : List (String × Json) → Except Fault ExtensionContent
  | [] => mismatch (.missingField "kind")
  | ("kind", k) :: rest => do
    let kind ← ExtensionKind.codec.ofJson k
    match rest with
    | [] => mismatch (.missingField "content")
    | ("content", c) :: rest =>
      let content ← ofJson kind c
      noThird rest
      return content
    | (name, _) :: _ => mismatch (.duplicateField name)
  | (_, c) :: rest =>
    match rest with
    | [] => mismatch (.missingField "kind")
    | ("kind", k) :: rest => do
      let kind ← ExtensionKind.codec.ofJson k
      let content ← ofJson kind c
      noThird rest
      return content
    | (name, _) :: _ => mismatch (.duplicateField name)

/-- What is read of an extension so far: its state, and its other fields, last one
first. -/
abbrev Extension.Partial : Type := Option ExtensionState × List (String × Json)

/-- The extension of all fields that were read. -/
def Extension.ofPartial (p : Extension.Partial) : Except Fault Extension := do
  let tagged := p.2.reverse.filter fun f => f.1 == "kind" || f.1 == "content"
  let content ← ExtensionContent.ofFields tagged
  return ⟨p.1.getD .optional, content⟩

def Extension.readField (depth : Nat) (p : Extension.Partial) (name : String) (cs : List Char) :
    Except Fault (Extension.Partial × List Char) :=
  if name = "state" then
    if p.1.isSome then mismatch (.duplicateField "state")
    else do
      let (state, cs) ← ExtensionState.codec.read depth (← skipColon cs)
      return ((some state, p.2), cs)
  else do
    let (j, cs) ← readAny depth (← skipColon cs)
    return ((p.1, (name, j) :: p.2), cs)

def Extension.takeField (p : Extension.Partial) (f : String × Json) :
    Except Fault Extension.Partial :=
  if f.1 = "state" then
    if p.1.isSome then mismatch (.duplicateField "state")
    else (ExtensionState.codec.ofJson f.2).map fun state => (some state, p.2)
  else .ok (p.1, f :: p.2)

/-- The words for an extension. -/
def extensionPhrase : String := "struct Extension"

def Extension.codec : Codec Extension where
  read depth cs :=
    match skipBlanks cs with
    | '\x7b' :: rest => do
      let depth ← deeper depth
      let (p, rest) ← readFields (readField depth) (rest.length + 1) true (none, []) rest
      let e ← ofPartial p
      return (e, ← closeObject rest)
    | start => wrongStart extensionPhrase start
  ofJson
    | .object members => do ofPartial (← members.foldlM takeField (none, []))
    | j => wrongType extensionPhrase j
  toJson e := .object [("state", ExtensionState.codec.toJson e.state),
    ("kind", ExtensionKind.codec.toJson e.content.kind), ("content", e.content.toJson)]

/-! ## Features -/

def Prototype.codec : Codec Prototype :=
  .record "Prototype"
    (.required "id" Identity.codec <|
      .optional "removed_bundles" (.list Identity.codec) [] List.isEmpty <|
      .optional "removed_extensions" (.list .text) [] List.isEmpty .nil)
    (fun (id, bundles, extensions, ()) => ⟨id, bundles, extensions⟩)
    (fun p => (p.id, p.removedBundles, p.removedExtensions, ()))

/-- A string or null, that is not written when there is none. -/
def Json.Fields.optionalText {β σ : Type} (name : String) (rest : Fields β σ) :
    Fields (Option String × β) (Option (Option String) × σ) :=
  .optional name (.nullable .text) none Option.isNone rest

def Feature.codec : Codec Feature :=
  .record "Feature"
    (.required "id" Identity.codec <|
      .optionalText "title" <|
      .optionalText "description" <|
      .optionalText "vendor" <|
      .optionalText "license" <|
      .optional "bundles" Artifacts.codec .empty Artifacts.isEmpty <|
      .optional "extensions" Extension.codec.named .empty SortedMap.isEmpty <|
      .optional "variables" stringsCodec .empty SortedMap.isEmpty <|
      .optional "framework_properties" stringsCodec .empty SortedMap.isEmpty <|
      .optional "prototype" (.nullable Prototype.codec) none Option.isNone <|
      .defaulted "assembled" .flag false .nil)
    (fun (id, title, description, vendor, license, bundles, extensions, variableValues,
        frameworkProperties, prototype, assembled, ()) =>
      { id, title, description, vendor, license, bundles, extensions, variableValues,
        frameworkProperties, prototype, assembled })
    (fun f => (f.id, f.title, f.description, f.vendor, f.license, f.bundles, f.extensions,
      f.variableValues, f.frameworkProperties, f.prototype, f.assembled, ()))

/-- Features by location. -/
def FeatureMap.codec : Codec FeatureMap := Feature.codec.named

def Feature.digest (f : Feature) : String := Digest.ofText (Feature.codec.encode f)

/-- The part of the digest under which a feature is listed. -/
def Feature.shownDigest (f : Feature) : String := Digest.shown f.digest

end FeatureAssembly
