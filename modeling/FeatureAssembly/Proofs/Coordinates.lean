import FeatureAssembly.Identity

/-!
# Coordinates read back

**The law** (`Identity.parse_text_iff`): an identity is read back from its text exactly if each of
its parts can stand between the colons of a coordinate and in a repository path. Every identity
that was read from a text is of this kind (`Identity.legible_of_parse`).

What it does not establish: that an identity that is put together from unchecked texts is of this
kind. One that is not may be refused, and it may be read as another identity.
-/

set_option autoImplicit false

namespace FeatureAssembly

/-! ## Pieces -/

namespace Text

theorem hasChar_eq_false {c : Char} {s : String} : hasChar c s = false ↔ c ∉ s.toList := by
  simp [hasChar]

/-- No piece has the separator in it. -/
theorem hasChar_of_mem_segments {separator : Char} {s piece : String}
    (h : piece ∈ segments separator s) : hasChar separator piece = false := by
  obtain ⟨cs, hcs, rfl⟩ := List.mem_map.1 h
  rw [hasChar_eq_false, String.toList_ofList]
  have free : ∀ (l : List Char), ∀ cs ∈ l.splitOn separator, separator ∉ cs := by
    intro l
    induction l with
    | nil => simp
    | cons c l ih =>
      intro cs hcs
      rw [List.splitOn_cons_eq_if_modifyHead] at hcs
      split at hcs
      · rcases List.mem_cons.1 hcs with rfl | hcs
        · exact List.not_mem_nil
        · exact ih cs hcs
      · next other =>
        cases hs : l.splitOn separator with
        | nil => exact absurd hs (List.splitOn_ne_nil _ _)
        | cons first rest =>
          rw [hs] at hcs ih
          rcases List.mem_cons.1 hcs with rfl | hcs
          · intro hmem
            rcases List.mem_cons.1 hmem with rfl | hmem
            · exact other BEq.rfl
            · exact ih first List.mem_cons_self hmem
          · exact ih cs (List.mem_cons_of_mem _ hcs)
  exact free s.toList cs hcs

/-- Pieces without the separator come back from the joined text. -/
theorem segments_joinWith {separator : Char} {pieces : List String}
    (free : ∀ piece ∈ pieces, hasChar separator piece = false) (ne : pieces ≠ []) :
    segments separator (joinWith (String.ofList [separator]) pieces) = pieces := by
  have lists : (pieces.map String.toList).map String.ofList = pieces := by
    simp
  rw [← lists, joinWith_map_ofList, segments, String.toList_ofList, List.splitOn_intercalate]
  · intro cs hcs
    obtain ⟨piece, hp, rfl⟩ := List.mem_map.1 hcs
    exact hasChar_eq_false.1 (free piece hp)
  · simpa using ne

theorem segments_ne_nil (separator : Char) (s : String) : segments separator s ≠ [] := by
  simp [segments, List.splitOn_ne_nil]

theorem segments_of_flat {separator : Char} {s : String} (flat : hasChar separator s = false) :
    segments separator s = [s] := by
  rw [segments, List.splitOn_eq_singleton (hasChar_eq_false.1 flat)]
  simp

/-- The pieces before a separator and behind it. -/
theorem segments_append (separator : Char) (a b : String) :
    segments separator (a ++ String.ofList [separator] ++ b) = segments separator a ++ segments separator b := by
  have chars : (a ++ String.ofList [separator] ++ b).toList = a.toList ++ separator :: b.toList := by
    simp [String.toList_append]
  rw [segments, chars, List.splitOn_append_cons_self, List.map_append]
  rfl

theorem joinWith_cons (separator s next : String) (rest : List String) :
    joinWith separator (s :: next :: rest) = s ++ separator ++ joinWith separator (next :: rest) := rfl

theorem joinWith_append (separator : String) {front back : List String} (some_front : front ≠ [])
    (some_back : back ≠ []) :
    joinWith separator (front ++ back) = joinWith separator front ++ separator ++ joinWith separator back := by
  obtain ⟨first, others, rfl⟩ := List.exists_cons_of_ne_nil some_back
  induction front with
  | nil => exact absurd rfl some_front
  | cons s rest ih =>
    cases rest with
    | nil => rfl
    | cons next rest =>
      rw [List.cons_append, List.cons_append, joinWith_cons, ← List.cons_append, ih (List.cons_ne_nil _ _),
        joinWith_cons]
      simp only [String.append_assoc]

end Text

/-! ## Legible identities -/

/-- Whether a text can be a segment of a coordinate. -/
def isSegment (s : String) : Bool := isPathComponent s && !Text.hasChar ':' s

theorem isSegment_iff {s : String} :
    isSegment s = true ↔ isPathComponent s = true ∧ Text.hasChar ':' s = false := by
  simp [isSegment]

namespace Identity

/-- The parts that are segments of the text form. -/
def parts (id : Identity) : List String :=
  [id.group, id.name, id.type, id.version] ++ id.classifier.toList

/-- **An identity that can be read back**: its parts are segments. -/
def Legible (id : Identity) : Prop := ∀ s ∈ id.parts, isSegment s = true

instance (id : Identity) : Decidable id.Legible := inferInstanceAs (Decidable (∀ s ∈ id.parts, _))

/-- **What is made of segments**: none but the classifier may be empty, and each one that is not can
be in a repository path. -/
theorem ofSegments_eq_ok_iff {input group name type version : String} {classifier : Option String}
    {id : Identity} :
    ofSegments input group name type classifier version = .ok id ↔
      (∀ s ∈ [group, name, type, version], isPathComponent s = true) ∧
      (∀ c ∈ classifier, c ≠ "" → isPathComponent c = true) ∧
      id = ⟨group, name, version, classifier.filter (· != ""), type⟩ := by
  have filled : ∀ s, isPathComponent s = true → s ≠ "" := by
    rintro _ h rfl
    cases h
  have required : [group, name, type, version] =
      [(Segment.group, group), (.name, name), (.type, type), (.version, version)].map (·.2) := rfl
  rw [required, List.forall_mem_map]
  unfold ofSegments
  dsimp only
  generalize [(Segment.group, group), (.name, name), (.type, type), (.version, version)] = l
  constructor
  · intro h
    split at h
    · cases h
    · next nonempty =>
      split at h
      · cases h
      · next valid =>
        cases h
        rw [List.find?_eq_none] at nonempty valid
        refine ⟨fun x hx => ?_, fun c hc hne => ?_, rfl⟩
        · have := valid x (List.mem_append_left _ hx)
          have := nonempty x hx
          grind
        · have := valid (.classifier, c)
            (List.mem_append_right _ (List.mem_map_of_mem (Option.mem_toList.2 hc)))
          grind
  · rintro ⟨components, optional, rfl⟩
    have nonempty : l.find? (fun s => s.2 == "") = none :=
      List.find?_eq_none.2 fun x hx => by simpa using filled _ (components x hx)
    have valid : (l ++ classifier.toList.map fun c => (Segment.classifier, c)).find?
        (fun s => s.2 != "" && !isPathComponent s.2) = none := by
      refine List.find?_eq_none.2 fun x hx => ?_
      rcases List.mem_append.1 hx with hx | hx
      · simp [components x hx]
      · obtain ⟨c, hc, rfl⟩ := List.mem_map.1 hx
        have := optional c (Option.mem_toList.1 hc)
        grind
    rw [nonempty, valid]

/-- **Whatever is read can be read back.** -/
theorem legible_of_parse {input : String} {id : Identity} (h : parse input = .ok id) : id.Legible := by
  have free : ∀ piece ∈ Text.segments ':' input, Text.hasChar ':' piece = false :=
    fun piece hp => Text.hasChar_of_mem_segments hp
  unfold parse at h
  split at h
  · next group name version pieces =>
    obtain ⟨required, -, rfl⟩ := ofSegments_eq_ok_iff.1 h
    rw [pieces] at free
    have jar : Text.hasChar ':' defaultType = false := by decide
    intro s hs
    have hs : s ∈ [group, name, defaultType, version] := hs
    refine isSegment_iff.2 ⟨required s hs, ?_⟩
    grind
  · next group name type version pieces =>
    obtain ⟨required, -, rfl⟩ := ofSegments_eq_ok_iff.1 h
    rw [pieces] at free
    intro s hs
    have hs : s ∈ [group, name, type, version] := hs
    refine isSegment_iff.2 ⟨required s hs, free s ?_⟩
    grind
  · next group name type classifier version pieces =>
    obtain ⟨required, optional, rfl⟩ := ofSegments_eq_ok_iff.1 h
    rw [pieces] at free
    intro s hs
    rcases List.mem_append.1 hs with hs | hs
    · refine isSegment_iff.2 ⟨required s hs, free s ?_⟩
      grind
    · have kept : s = classifier ∧ s ≠ "" := by
        have := Option.mem_toList.1 hs
        simp only [Option.filter_eq_some_iff, Option.some.injEq, bne_iff_ne] at this
        exact ⟨this.1.symm, this.2⟩
      obtain ⟨rfl, present⟩ := kept
      refine isSegment_iff.2 ⟨optional s rfl present, free s ?_⟩
      grind
  · cases h

/-- **A legible identity is read back from its text.** -/
theorem parse_text {id : Identity} (h : id.Legible) : parse id.text = .ok id := by
  obtain ⟨group, name, version, classifier, type⟩ := id
  have component : ∀ s ∈ [group, name, type, version], isPathComponent s = true := fun s hs =>
    (isSegment_iff.1 (h s (List.mem_append_left _ hs))).1
  have free : ∀ s ∈ [group, name, type, version] ++ classifier.toList, Text.hasChar ':' s = false := fun s hs =>
    (isSegment_iff.1 (h s hs)).2
  cases classifier with
  | some c =>
    have pieces : Text.segments ':' (Text.joinWith ":" [group, name, type, c, version]) =
        [group, name, type, c, version] :=
      Text.segments_joinWith (by grind) nofun
    have optional : isPathComponent c = true := (isSegment_iff.1 (h c (by simp [parts]))).1
    show parse (Text.joinWith ":" [group, name, type, c, version]) = _
    rw [parse, pieces]
    refine ofSegments_eq_ok_iff.2 ⟨component, ?_, ?_⟩
    · rintro _ ⟨⟩ _
      exact optional
    · have : c ≠ "" := by
        rintro rfl
        cases optional
      simp [Option.filter, this]
  | none =>
    by_cases jar : type = defaultType
    · have pieces : Text.segments ':' (Text.joinWith ":" [group, name, version]) = [group, name, version] :=
        Text.segments_joinWith (by grind) nofun
      show parse (if type = defaultType then Text.joinWith ":" [group, name, version] else _) = _
      rw [if_pos jar, parse, pieces]
      exact ofSegments_eq_ok_iff.2 ⟨jar ▸ component, nofun, by rw [jar]; rfl⟩
    · have pieces : Text.segments ':' (Text.joinWith ":" [group, name, type, version]) =
          [group, name, type, version] :=
        Text.segments_joinWith (by grind) nofun
      show parse (if type = defaultType then _ else Text.joinWith ":" [group, name, type, version]) = _
      rw [if_neg jar, parse, pieces]
      exact ofSegments_eq_ok_iff.2 ⟨component, nofun, rfl⟩

theorem parse_text_iff {id : Identity} : parse id.text = .ok id ↔ id.Legible :=
  ⟨legible_of_parse, parse_text⟩

end Identity

end FeatureAssembly
