/-!
# Segments of a text

Cutting a text at a separator: coordinates at `:`, groups at `.`, paths and
locations at `/`.

**The law**: the segments joined by the separator are the text again
(`joinWith_segments`). There is one segment more than there are separators, so
the empty text has one empty segment.
-/

namespace FeatureAssembly.Text

/-- The pieces of a text between the occurrences of a separator. -/
def segments (separator : Char) (s : String) : List String :=
  (s.toList.splitOn separator).map String.ofList

/-- The pieces with the separator between each two of them. -/
def joinWith (separator : String) : List String → String
  | [] => ""
  | [s] => s
  | s :: rest => s ++ separator ++ joinWith separator rest

/-- The text before the first occurrence of a separator and the text after it. -/
def splitFirst? (separator : Char) (s : String) : Option (String × String) :=
  match s.toList.span (· != separator) with
  | (_, []) => none
  | (before, _ :: after) => some (String.ofList before, String.ofList after)

/-- The text behind a leading part, if it starts with that part. -/
def stripLeading? (leading s : String) : Option String :=
  if leading.toList.isPrefixOf s.toList then
    some (String.ofList (s.toList.drop leading.toList.length))
  else
    none

/-- Whether a text starts with a given part. -/
def startsWith (leading s : String) : Bool := (stripLeading? leading s).isSome

/-- Whether a character occurs in a text. -/
def hasChar (c : Char) (s : String) : Bool := s.toList.contains c

theorem stripLeading?_append (leading rest : String) :
    stripLeading? leading (leading ++ rest) = some rest := by
  unfold stripLeading?
  rw [String.toList_append, if_pos (List.isPrefixOf_iff_prefix.2 (List.prefix_append _ _)), List.drop_left,
    String.ofList_toList]

theorem joinWith_map_ofList (separator : Char) (pieces : List (List Char)) :
    joinWith (String.ofList [separator]) (pieces.map String.ofList) =
      String.ofList (List.intercalate [separator] pieces) := by
  induction pieces with
  | nil => rfl
  | cons p rest ih =>
    cases rest with
    | nil => simp [joinWith, List.intercalate]
    | cons q rest =>
      simp only [List.map_cons] at ih ⊢
      rw [joinWith, ih, ← String.ofList_append, ← String.ofList_append]
      · simp [List.intercalate]
      · simp

theorem joinWith_segments (separator : Char) (s : String) :
    joinWith (String.ofList [separator]) (segments separator s) = s := by
  rw [segments, joinWith_map_ofList, List.intercalate_splitOn, String.ofList_toList]

end FeatureAssembly.Text
