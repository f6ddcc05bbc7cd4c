import FeatureAssembly.Text.Segments

/-!
# Coordinates

An `Identity` names an artifact or a feature by group, name, version, an
optional classifier and a type. The text form has three, four or five segments:

- `group:name:version`, of the default type and without classifier;
- `group:name:type:version`, without classifier;
- `group:name:type:classifier:version`.

Group and name together are the key of the module that owns the identity
(`ModuleKey`).

There are two ways to an identity. `Identity.parse` admits only segments that
can stand in a repository path. `Identity.of` and its modifiers take any texts,
because modules are declared with texts that nothing has checked.
-/

namespace FeatureAssembly

open Text

/-- Whether a text can be one component of a repository path. -/
def isPathComponent (s : String) : Bool :=
  s != "" && s != "." && s != ".." && !hasChar '/' s && !hasChar '\\' s

/-! ## Module keys -/

/-- **The key of a module**: its group and its name, joined by a colon. -/
structure ModuleKey where
  text : String
deriving DecidableEq, Inhabited

namespace ModuleKey

def of (group name : String) : ModuleKey := ⟨group ++ ":" ++ name⟩

/-- Whether the key, cut at its first colon, gives this group and this name. -/
def names (key : ModuleKey) (group name : String) : Bool :=
  match splitFirst? ':' key.text with
  | none => false
  | some (g, n) => g == group && n == name

/-- Keys are ordered by their texts. -/
instance : Ord ModuleKey := ⟨compareOn (·.text)⟩

instance : Std.TransOrd ModuleKey :=
  inferInstanceAs (Std.TransCmp (compareOn fun (k : ModuleKey) => k.text))

instance : Std.LawfulEqOrd ModuleKey where
  eq_of_compare {a b} h := by
    have h : compare a.text b.text = .eq := h
    have := Std.LawfulEqOrd.eq_of_compare h
    cases a; cases b; simp_all

instance : ToString ModuleKey := ⟨ModuleKey.text⟩

end ModuleKey

/-! ## Identities -/

/-- The type of an artifact whose coordinate names none. -/
def defaultType : String := "jar"

def featureType : String := "feature"

/-- **The coordinate of an artifact or a feature.** -/
structure Identity where
  group : String
  name : String
  version : String
  classifier : Option String
  type : String
deriving DecidableEq, Inhabited

namespace Identity

/-- The identity of the default type and without classifier. -/
def of (group name version : String) : Identity := ⟨group, name, version, none, defaultType⟩

def withType (id : Identity) (type : String) : Identity := { id with type := type }

/-- The identity with a classifier; the empty classifier is none. -/
def withClassifier (id : Identity) (classifier : String) : Identity :=
  { id with classifier := if classifier = "" then none else some classifier }

def withoutClassifier (id : Identity) : Identity := { id with classifier := none }

def moduleKey (id : Identity) : ModuleKey := .of id.group id.name

def isOwnedBy (id : Identity) (key : ModuleKey) : Bool := key.names id.group id.name

/-- The text form. The default type is left out when there is no classifier. -/
def text (id : Identity) : String :=
  match id.classifier with
  | some c => joinWith ":" [id.group, id.name, id.type, c, id.version]
  | none =>
    if id.type = defaultType then joinWith ":" [id.group, id.name, id.version]
    else joinWith ":" [id.group, id.name, id.type, id.version]

instance : ToString Identity := ⟨Identity.text⟩

/-! ## Order -/

/-- Identities are ordered by group, name, version, classifier and type; no
classifier comes before every classifier. -/
instance : Ord Identity :=
  ⟨compareLex (compareOn (·.group)) <| compareLex (compareOn (·.name)) <|
    compareLex (compareOn (·.version)) <| compareLex (compareOn (·.classifier))
      (compareOn (·.type))⟩

instance : Std.TransOrd Identity :=
  inferInstanceAs (Std.TransCmp (compareLex (compareOn fun (i : Identity) => i.group) <|
    compareLex (compareOn (·.name)) <| compareLex (compareOn (·.version)) <|
    compareLex (compareOn (·.classifier)) (compareOn (·.type))))

instance : Std.LawfulEqOrd Identity where
  eq_of_compare {a b} h := by
    have h : compareLex (compareOn fun (i : Identity) => i.group) (compareLex (compareOn (·.name))
      (compareLex (compareOn (·.version)) (compareLex (compareOn (·.classifier))
        (compareOn (·.type))))) a b = .eq := h
    simp only [compareLex, compareOn, Ordering.then_eq_eq, Std.LawfulEqCmp.compare_eq_iff_eq] at h
    cases a; cases b; simp_all

/-! ## Parsing -/

/-- The segments of the text form. -/
inductive Segment where
  | group | name | type | version | classifier
deriving DecidableEq, Repr

def Segment.word : Segment → String
  | .group => "group"
  | .name => "name"
  | .type => "type"
  | .version => "version"
  | .classifier => "classifier"

/-- Why a text is no coordinate. -/
inductive ParseError where
  /-- The number of segments is wrong. -/
  | malformed (input : String)
  /-- A segment that must not be empty is. -/
  | emptySegment (input : String) (segment : Segment)
  /-- A segment cannot name a directory or a file of a repository. -/
  | invalidSegment (input : String) (segment : Segment) (value : String)
deriving DecidableEq

def ParseError.message : ParseError → String
  | .malformed input =>
    s!"invalid coordinate '{input}': expected group:name[:type[:classifier]]:version"
  | .emptySegment input segment =>
    s!"invalid coordinate '{input}': {segment.word} must not be empty"
  | .invalidSegment input segment value =>
    s!"invalid coordinate '{input}': {segment.word} '{value}' is not a valid path component"

/-- The identity of checked segments. Empty segments are reported before invalid
ones, and an empty classifier is none. -/
def ofSegments (input group name type : String) (classifier : Option String)
    (version : String) : Except ParseError Identity :=
  let required := [(Segment.group, group), (.name, name), (.type, type), (.version, version)]
  match required.find? fun s => s.2 == "" with
  | some (segment, _) => .error (.emptySegment input segment)
  | none =>
    let present := required ++ classifier.toList.map fun c => (Segment.classifier, c)
    match present.find? fun s => s.2 != "" && !isPathComponent s.2 with
    | some (segment, value) => .error (.invalidSegment input segment value)
    | none => .ok ⟨group, name, version, classifier.filter (· != ""), type⟩

/-- Read the text form. -/
def parse (input : String) : Except ParseError Identity :=
  match segments ':' input with
  | [group, name, version] => ofSegments input group name defaultType none version
  | [group, name, type, version] => ofSegments input group name type none version
  | [group, name, type, classifier, version] =>
    ofSegments input group name type (some classifier) version
  | _ => .error (.malformed input)

end Identity

end FeatureAssembly
