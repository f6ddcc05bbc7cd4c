import FeatureAssembly.Proofs.Coordinates

/-!
# The grammar of coordinates

What a text denotes as a coordinate, without the reader: the pieces between its colons
(`Text.CutAt`), the fields that three, four or five pieces stand for (`Shaped`), and then either
what is wrong first or the identity (`Denotes`).

**The law** (`Identity.grammar_exact`): the reader answers exactly what the text denotes, and an
identity comes back from its own text exactly if none of its parts is empty, none has a colon, and
each can stand in a path.

What it does not establish: what becomes of a part with a colon. It shifts the pieces, and what is
read then may be an error or another identity.
-/

set_option autoImplicit false

namespace FeatureAssembly

namespace Text

/-- **A text cut at each separator**: there is a piece, none has the separator, and joined they are
the text. -/
structure CutAt (separator : Char) (s : String) (pieces : List String) : Prop where
  some_piece : pieces ≠ []
  clean : ∀ piece ∈ pieces, separator ∉ piece.toList
  joined : joinWith (String.ofList [separator]) pieces = s

variable {separator : Char} {s : String} {pieces : List String}

theorem cutAt_segments (separator : Char) (s : String) :
    CutAt separator s (segments separator s) where
  some_piece := segments_ne_nil separator s
  clean _ hp := hasChar_eq_false.1 (hasChar_of_mem_segments hp)
  joined := joinWith_segments separator s

/-- There is one way to cut a text. -/
theorem CutAt.segments_eq (h : CutAt separator s pieces) : segments separator s = pieces := by
  rw [← h.joined]
  exact segments_joinWith (fun piece hp => hasChar_eq_false.2 (h.clean piece hp)) h.some_piece

end Text

namespace Identity

/-! ## What a text denotes -/

/-- The fields that the pieces of a coordinate stand for. -/
structure Fields where
  group : String
  name : String
  type : String
  classifier : Option String
  version : String

namespace Fields

/-- The fields that must not be empty, in the order in which they are looked at. -/
def required (f : Fields) : List (Segment × String) :=
  [(.group, f.group), (.name, f.name), (.type, f.type), (.version, f.version)]

/-- All fields that are there, the classifier last. -/
def all (f : Fields) : List (Segment × String) :=
  f.required ++ f.classifier.toList.map fun c => (.classifier, c)

/-- The identity of the fields: an empty classifier is none. -/
def identity (f : Fields) : Identity :=
  ⟨f.group, f.name, f.version, f.classifier.filter (· != ""), f.type⟩

end Fields

/-- **Which field each piece is.** The fourth piece is a version, the version behind a type, or a
classifier, depending on the number of pieces. -/
inductive Shaped : List String → Fields → Prop
  | short (group name version : String) :
      Shaped [group, name, version] ⟨group, name, defaultType, none, version⟩
  | typed (group name type version : String) :
      Shaped [group, name, type, version] ⟨group, name, type, none, version⟩
  | classified (group name type classifier version : String) :
      Shaped [group, name, type, classifier, version] ⟨group, name, type, some classifier, version⟩

/-- Whether a text, if it is not empty, can be a component of a path. -/
def Placeable (s : String) : Prop :=
  s ≠ "." ∧ s ≠ ".." ∧ '/' ∉ s.toList ∧ '\\' ∉ s.toList

/-- **What a text denotes as a coordinate.** An empty field is wrong before any that has no place in a
path, and of each kind the first one counts. -/
inductive Denotes (s : String) : Except ParseError Identity → Prop
  | malformed {pieces : List String} :
      Text.CutAt ':' s pieces → pieces.length ∉ [3, 4, 5] → Denotes s (.error (.malformed s))
  | empty {pieces : List String} {f : Fields} {before after : List (Segment × String)}
      {segment : Segment} :
      Text.CutAt ':' s pieces → Shaped pieces f →
      f.required = before ++ (segment, "") :: after → (∀ p ∈ before, p.2 ≠ "") →
      Denotes s (.error (.emptySegment s segment))
  | invalid {pieces : List String} {f : Fields} {before after : List (Segment × String)}
      {segment : Segment} {value : String} :
      Text.CutAt ':' s pieces → Shaped pieces f → (∀ p ∈ f.required, p.2 ≠ "") →
      f.all = before ++ (segment, value) :: after → (∀ p ∈ before, Placeable p.2) →
      ¬ Placeable value → Denotes s (.error (.invalidSegment s segment value))
  | identity {pieces : List String} {f : Fields} :
      Text.CutAt ':' s pieces → Shaped pieces f → (∀ p ∈ f.required, p.2 ≠ "") →
      (∀ p ∈ f.all, Placeable p.2) → Denotes s (.ok f.identity)

/-! ## The checks of the reader -/

section Checks

variable {s value : String} {segment : Segment} {f : Fields}

theorem isPathComponent_iff : isPathComponent s = true ↔ s ≠ "" ∧ Placeable s := by
  simp [isPathComponent, Placeable, Text.hasChar, and_assoc]

/-- A field that is there has no place in a path. -/
theorem misplaced_iff : (value != "" && !isPathComponent value) = true ↔ ¬ Placeable value := by
  have empty : Placeable "" := by
    refine ⟨?_, ?_, ?_, ?_⟩ <;> decide
  by_cases h : value = ""
  · subst h
    simpa using empty
  · have placeable : isPathComponent value = true ↔ Placeable value := by
      simp [isPathComponent_iff, h]
    rw [← placeable]
    simp [h]

/-- **The first field that fails a check**: those before it pass. -/
theorem find?_fields_iff {fields : List (Segment × String)} {check : Segment × String → Bool}
    {bad : Segment × String} :
    fields.find? check = some bad ↔ ∃ before after, fields = before ++ bad :: after ∧
      (∀ p ∈ before, ¬ check p = true) ∧ check bad = true := by
  rw [List.find?_eq_some_iff_append]
  constructor
  · rintro ⟨fails, before, after, rfl, pass⟩
    exact ⟨before, after, rfl, fun p hp => by simpa using pass p hp, fails⟩
  · rintro ⟨before, after, rfl, pass, fails⟩
    exact ⟨fails, before, after, rfl, fun p hp => by simpa using pass p hp⟩

/-- What the reader does with the fields. -/
def checked (s : String) (f : Fields) : Except ParseError Identity :=
  ofSegments s f.group f.name f.type f.classifier f.version

theorem checked_of_empty {before after : List (Segment × String)}
    (h : f.required = before ++ (segment, "") :: after) (full : ∀ p ∈ before, p.2 ≠ "") :
    checked s f = .error (.emptySegment s segment) := by
  have found : f.required.find? (fun p => p.2 == "") = some (segment, "") :=
    find?_fields_iff.2 ⟨before, after, h, fun p hp => by simpa using full p hp, rfl⟩
  rw [Fields.required] at found
  simp only [checked, ofSegments, found]

theorem find?_empty_eq_none (full : ∀ p ∈ f.required, p.2 ≠ "") :
    f.required.find? (fun p => p.2 == "") = none :=
  List.find?_eq_none.2 fun p hp => by simpa using full p hp

theorem checked_of_invalid {before after : List (Segment × String)}
    (full : ∀ p ∈ f.required, p.2 ≠ "") (h : f.all = before ++ (segment, value) :: after)
    (placed : ∀ p ∈ before, Placeable p.2) (misplaced : ¬ Placeable value) :
    checked s f = .error (.invalidSegment s segment value) := by
  have none := find?_empty_eq_none full
  have found : f.all.find? (fun p => p.2 != "" && !isPathComponent p.2) = some (segment, value) := by
    refine find?_fields_iff.2 ⟨before, after, h, fun p hp => ?_, misplaced_iff.2 misplaced⟩
    rw [misplaced_iff, Classical.not_not]
    exact placed p hp
  rw [Fields.all] at found
  rw [Fields.required] at none found
  simp only [checked, ofSegments, none, found]

theorem checked_of_placed (full : ∀ p ∈ f.required, p.2 ≠ "") (placed : ∀ p ∈ f.all, Placeable p.2) :
    checked s f = .ok f.identity := by
  have nothing := find?_empty_eq_none full
  have fine : f.all.find? (fun p => p.2 != "" && !isPathComponent p.2) = none := by
    refine List.find?_eq_none.2 fun p hp => ?_
    rw [misplaced_iff, Classical.not_not]
    exact placed p hp
  rw [Fields.all] at fine
  rw [Fields.required] at nothing fine
  simp only [checked, ofSegments, nothing, fine, Fields.identity]

end Checks

/-! ## The reader -/

section Reader

variable {s : String} {pieces : List String} {f : Fields} {r : Except ParseError Identity}

/-- Three, four or five pieces are a coordinate, and no other number is. -/
theorem exists_shaped_iff : (∃ f, Shaped pieces f) ↔ pieces.length ∈ [3, 4, 5] := by
  constructor
  · rintro ⟨f, h⟩
    cases h <;> simp
  · intro h
    match pieces, h with
    | [group, name, version], _ => exact ⟨_, .short group name version⟩
    | [group, name, type, version], _ => exact ⟨_, .typed group name type version⟩
    | [group, name, type, classifier, version], _ =>
      exact ⟨_, .classified group name type classifier version⟩

theorem parse_of_shaped (cut : Text.CutAt ':' s pieces) (h : Shaped pieces f) :
    parse s = checked s f := by
  have eq := cut.segments_eq
  cases h <;> rw [parse, eq] <;> rfl

theorem parse_of_length (cut : Text.CutAt ':' s pieces) (h : pieces.length ∉ [3, 4, 5]) :
    parse s = .error (.malformed s) := by
  have eq := cut.segments_eq
  unfold parse
  split
  · next shape => simp [eq.symm.trans shape] at h
  · next shape => simp [eq.symm.trans shape] at h
  · next shape => simp [eq.symm.trans shape] at h
  · rfl

/-- What a text denotes is what the reader answers. -/
theorem Denotes.parse_eq (h : Denotes s r) : parse s = r := by
  cases h with
  | malformed cut count => exact parse_of_length cut count
  | empty cut shape split full =>
    rw [parse_of_shaped cut shape]
    exact checked_of_empty split full
  | invalid cut shape full split placed misplaced =>
    rw [parse_of_shaped cut shape]
    exact checked_of_invalid full split placed misplaced
  | identity cut shape full placed =>
    rw [parse_of_shaped cut shape]
    exact checked_of_placed full placed

/-- A list of fields has a first one that fails a check, or none fails. -/
theorem all_or_first (check : String → Prop) (fields : List (Segment × String)) :
    (∀ p ∈ fields, check p.2) ∨ ∃ before segment value after,
      fields = before ++ (segment, value) :: after ∧ (∀ p ∈ before, check p.2) ∧ ¬ check value := by
  induction fields with
  | nil => exact .inl nofun
  | cons p rest ih =>
    by_cases hp : check p.2
    · rcases ih with fine | ⟨before, segment, value, after, rfl, pass, fails⟩
      · exact .inl (List.forall_mem_cons.2 ⟨hp, fine⟩)
      · exact .inr ⟨p :: before, segment, value, after, rfl, List.forall_mem_cons.2 ⟨hp, pass⟩, fails⟩
    · exact .inr ⟨[], p.1, p.2, rest, rfl, nofun, hp⟩

/-- **Every text denotes something**: the first of the rules that it breaks, or the identity. -/
theorem exists_denotes (s : String) : ∃ r, Denotes s r := by
  have cut := Text.cutAt_segments ':' s
  by_cases count : (Text.segments ':' s).length ∈ [3, 4, 5]
  · obtain ⟨f, shape⟩ := exists_shaped_iff.2 count
    rcases all_or_first (· ≠ "") f.required with full | ⟨before, segment, value, after, split, full, empty⟩
    · rcases all_or_first Placeable f.all with placed | ⟨_, _, _, _, split, placed, misplaced⟩
      · exact ⟨_, .identity cut shape full placed⟩
      · exact ⟨_, .invalid cut shape full split placed misplaced⟩
    · obtain rfl : value = "" := Classical.not_not.1 empty
      exact ⟨_, .empty cut shape split full⟩
  · exact ⟨_, .malformed cut count⟩

theorem parse_eq_iff : parse s = r ↔ Denotes s r := by
  refine ⟨fun h => ?_, Denotes.parse_eq⟩
  obtain ⟨r', denoted⟩ := exists_denotes s
  rwa [← h, denoted.parse_eq]

end Reader

/-! ## The canonical text -/

theorem legible_iff {id : Identity} :
    id.Legible ↔ ∀ p ∈ id.parts, p ≠ "" ∧ Placeable p ∧ ':' ∉ p.toList := by
  simp only [Legible, isSegment_iff, isPathComponent_iff, Text.hasChar_eq_false, and_assoc]

/-- **The grammar is exact, and the text is canonical.** Every text is read as what it denotes, be it
an identity or the first thing that is wrong with it. Every identity, of whatever texts it was put
together, is read back from its own text exactly if its parts keep the rules and have no colon. -/
theorem grammar_exact :
    (∀ (s : String) (r : Except ParseError Identity), parse s = r ↔ Denotes s r) ∧
    ∀ id : Identity, parse id.text = .ok id ↔
      ∀ p ∈ id.parts, p ≠ "" ∧ Placeable p ∧ ':' ∉ p.toList :=
  ⟨fun _ _ => parse_eq_iff, fun _ => parse_text_iff.trans legible_iff⟩

/-- A colon in the type makes another identity of the text, with a classifier. -/
example : parse ((of "g" "n" "1").withType "zip:src").text =
    .ok (((of "g" "n" "1").withType "zip").withClassifier "src") := by
  cbv

end Identity

end FeatureAssembly
