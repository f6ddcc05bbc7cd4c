import FeatureAssembly.Files.Repository
import FeatureAssembly.Proofs.CoordinateGrammar
import FeatureAssembly.Proofs.WrittenFiles

/-!
# Paths in a repository

Where a repository looks for an artifact, and which artifacts it looks for in one place.

**The laws**: an identity that could lead out of the repository is refused, and any other one has its
file strictly below the root, in directories for the parts of its group, its name and its version
(`Repository.confined`). Empty parts of a group leave no trace in the path, and a file name does not
tell where a classifier ends and a type begins; where two identities differ in more than that, their
files are different (`Repository.files_apart`).

What it does not establish: that a file has anything to do with the identity that it is found under.
What is in it is read as it is.
-/

set_option autoImplicit false

namespace FeatureAssembly

/-! ## Blank parts of paths -/

namespace Path

variable {p name : String} {l tail : List String}

theorem join_blank (p : String) : join p "" = if p = "" || endsWithSlash p then p else p ++ "/" := by
  have relative : isAbsolute "" = false := rfl
  rw [join, relative, if_neg Bool.false_ne_true, String.append_empty, String.append_empty]

theorem endsWithSlash_append_slash (p : String) : endsWithSlash (p ++ "/") = true := by
  simp [endsWithSlash, String.toList_append]

/-- A blank part leaves a slash at the end, which the next name would have put there. -/
theorem join_blank_join (h : Plain name) (p : String) : join (join p "") name = join p name := by
  have relative := not_isAbsolute_of_plain h
  rw [join_blank]
  split
  · rfl
  · next open_ =>
    rw [join, join, relative, if_neg Bool.false_ne_true, if_neg Bool.false_ne_true, if_neg open_,
      endsWithSlash_append_slash, Bool.or_true, if_pos rfl]

/-- **Blank parts are skipped** on the way to names behind them. -/
theorem foldl_join_skip (parts : ∀ s ∈ l, s = "" ∨ Plain s) (names : ∀ s ∈ tail, Plain s) (ne : tail ≠ [])
    (p : String) : (l ++ tail).foldl join p = (l.filter (· != "") ++ tail).foldl join p := by
  induction l generalizing p with
  | nil => rfl
  | cons s rest ih =>
    have later : ∀ s ∈ rest, s = "" ∨ Plain s := fun s hs => parts s (List.mem_cons_of_mem _ hs)
    rw [List.cons_append, List.foldl_cons, ih later]
    by_cases blank : s = ""
    · subst blank
      -- The first of the names takes the slash of the blank part.
      have kept : ∀ n ∈ rest.filter (· != "") ++ tail, Plain n := by
        intro n hn
        rcases List.mem_append.1 hn with hn | hn
        · obtain ⟨hn, filled⟩ := List.mem_filter.1 hn
          exact (later n hn).resolve_left (by simpa using filled)
        · exact names n hn
      obtain ⟨first, more, split⟩ :=
        List.exists_cons_of_ne_nil (List.append_ne_nil_of_right_ne_nil (rest.filter (· != "")) ne)
      have plain : Plain first := kept first (by rw [split]; exact List.mem_cons_self)
      rw [List.filter_cons_of_neg (by simp), split, List.foldl_cons, List.foldl_cons, join_blank_join plain]
    · rw [List.filter_cons_of_pos (by simpa using blank), List.cons_append, List.foldl_cons]

end Path

namespace Text

/-- What is in a piece is in the text. -/
theorem mem_joinWith {c : Char} {separator piece : String} {pieces : List String} (among : piece ∈ pieces)
    (h : c ∈ piece.toList) : c ∈ (joinWith separator pieces).toList := by
  induction pieces with
  | nil => cases among
  | cons first rest ih =>
    cases rest with
    | nil =>
      cases List.mem_singleton.1 among
      exact h
    | cons next rest =>
      rw [Text.joinWith_cons, String.toList_append, String.toList_append]
      rcases List.mem_cons.1 among with rfl | among
      · exact List.mem_append_left _ (List.mem_append_left _ h)
      · exact List.mem_append_right _ (ih among)

theorem mem_of_mem_segments {c separator : Char} {s piece : String} (among : piece ∈ segments separator s)
    (h : c ∈ piece.toList) : c ∈ s.toList := by
  rw [← joinWith_segments separator s]
  exact mem_joinWith among h

end Text

/-- **Plain names behind a path** lead down from where the path leads to. -/
theorem FileSystem.locate_foldl_join {fs : FileSystem} {names there : List String} {p : String}
    (plain : ∀ name ∈ names, Path.Plain name) (ne : names ≠ [])
    (h : fs.locate (names.foldl Path.join p) = .ok there) :
    ∃ base, fs.place p = .ok base ∧ there = base ++ names := by
  unfold FileSystem.locate at h
  obtain ⟨_, -, walk⟩ := Json.ok_of_bind h
  have start : fs.startOf (names.foldl Path.join p) = fs.startOf p := by
    unfold FileSystem.startOf
    rw [Path.isAbsolute_foldl_join plain]
  rw [Path.parts_foldl_join plain ne, start, List.foldlM_append] at walk
  obtain ⟨base, above, below⟩ := Json.ok_of_bind walk
  exact ⟨base, above, walk_plain plain below⟩

namespace Repository

open Identity Text

variable {id id' : Identity}

/-! ## Which identities have a place -/

/-- The parts of a group that are not empty. -/
def filledParts (id : Identity) : List String := (groupParts id).filter (· != "")

theorem mem_filledParts {part : String} :
    part ∈ filledParts id ↔ part ∈ segments '.' id.group ∧ part ≠ "" := by
  simp [filledParts, groupParts]

/-- A character that separates directories is in a text. -/
def Separated (s : String) : Prop := '/' ∈ s.toList ∨ '\\' ∈ s.toList

/-- **What keeps an identity out of a repository**: a part of its group is separated once more, or
something else in it cannot be a name. Empty parts of the group do not count. -/
inductive Misplaced (id : Identity) : Prop where
  | group {part : String} (among : part ∈ segments '.' id.group) (filled : part ≠ "")
      (separated : Separated part)
  | rest {s : String} (among : s ∈ [id.name, id.version, id.type] ++ id.classifier.toList)
      (unfit : s = "" ∨ s = "." ∨ s = ".." ∨ Separated s)

theorem isPathComponent_iff_fit {s : String} :
    isPathComponent s = true ↔ ¬ (s = "" ∨ s = "." ∨ s = ".." ∨ Separated s) := by
  rw [isPathComponent_iff]
  simp only [Placeable, Separated, not_or, ne_eq]

/-- What stands between dots is no dot, nor are two. -/
theorem isPathComponent_of_part {part : String} (among : part ∈ segments '.' id.group) (filled : part ≠ "") :
    isPathComponent part = true ↔ ¬ Separated part := by
  have dotless : '.' ∉ part.toList := hasChar_eq_false.1 (hasChar_of_mem_segments among)
  have here : part ≠ "." := by
    rintro rfl
    exact dotless (by decide)
  have above : part ≠ ".." := by
    rintro rfl
    exact dotless (by decide)
  simp [isPathComponent_iff_fit, filled, here, above]

theorem hasPlace_iff : hasPlace id = true ↔ ¬ Misplaced id := by
  unfold hasPlace
  rw [List.all_eq_true, List.append_assoc, List.forall_mem_append]
  constructor
  · rintro ⟨group, rest⟩ (⟨among, filled, separated⟩ | ⟨among, unfit⟩)
    · exact (isPathComponent_of_part among filled).1 (group _ (mem_filledParts.2 ⟨among, filled⟩)) separated
    · exact isPathComponent_iff_fit.1 (rest _ among) unfit
  · refine fun placed => ⟨fun part hp => ?_, fun s hs => ?_⟩
    · obtain ⟨among, filled⟩ := mem_filledParts.1 hp
      exact (isPathComponent_of_part among filled).2 fun separated => placed (.group among filled separated)
    · exact isPathComponent_iff_fit.2 fun unfit => placed (.rest hs unfit)

/-- **A legible identity has a place**: its group is not separated, and no part of it is. -/
theorem not_misplaced_of_legible (h : id.Legible) : ¬ Misplaced id := by
  have fit : ∀ s ∈ id.parts, ¬ (s = "" ∨ s = "." ∨ s = ".." ∨ Separated s) := fun s hs =>
    isPathComponent_iff_fit.1 (isSegment_iff.1 (h s hs)).1
  rintro (⟨among, -, separated⟩ | ⟨among, unfit⟩)
  · have whole : Separated id.group := separated.imp (mem_of_mem_segments among) (mem_of_mem_segments among)
    exact fit id.group (by simp [parts]) (.inr (.inr (.inr whole)))
  · refine fit _ ?_ unfit
    simp only [parts, List.mem_append, List.mem_cons, List.not_mem_nil, or_false] at among ⊢
    tauto

/-! ## Where the files are -/

/-- **The names that lead from the root to the file of an identity.** -/
def placeNames (id : Identity) : List String := filledParts id ++ [id.name, id.version, fileName id]

/-- What stands in a file name behind the version. -/
def ending (id : Identity) : String :=
  match id.classifier with
  | some c => "-" ++ c ++ "." ++ id.type
  | none => "." ++ id.type

theorem fileName_eq (id : Identity) : fileName id = id.name ++ "-" ++ id.version ++ ending id := by
  unfold fileName ending
  cases id.classifier <;> simp [toString, String.append_assoc]

/-- A file name with a dash in it is no dot. -/
theorem isPathComponent_fileName (h : ¬ Misplaced id) : isPathComponent (fileName id) = true := by
  have fit : ∀ s ∈ [id.name, id.version, id.type] ++ id.classifier.toList,
      '/' ∉ s.toList ∧ '\\' ∉ s.toList := fun s hs =>
    not_or.1 fun separated => h (.rest hs (.inr (.inr (.inr separated))))
  have dash : '-' ∈ (fileName id).toList := by
    rw [fileName_eq]
    simp [String.toList_append]
  have name := fit id.name (by simp)
  have version := fit id.version (by simp)
  have type := fit id.type (by simp)
  refine isPathComponent_iff_fit.2 ?_
  rintro (empty | here | above | separated)
  · rw [empty] at dash
    exact absurd dash (by decide)
  · rw [here] at dash
    exact absurd dash (by decide)
  · rw [above] at dash
    exact absurd dash (by decide)
  · rw [Separated, fileName_eq, ending] at separated
    cases hc : id.classifier with
    | none =>
      simp [hc, String.toList_append, name, version, type] at separated
    | some c =>
      have classifier := fit c (by simp [hc])
      simp [hc, String.toList_append, name, version, type, classifier] at separated

theorem isPathComponent_of_mem_placeNames (h : ¬ Misplaced id) {s : String} (hs : s ∈ placeNames id) :
    isPathComponent s = true := by
  have listed : ∀ s ∈ filledParts id ++ [id.name, id.version, id.type] ++ id.classifier.toList,
      isPathComponent s = true := List.all_eq_true.1 (hasPlace_iff.2 h)
  rcases List.mem_append.1 hs with hs | hs
  · exact listed s (by simp [hs])
  · rcases List.mem_cons.1 hs with rfl | hs
    · exact listed _ (by simp)
    rcases List.mem_cons.1 hs with rfl | hs
    · exact listed _ (by simp)
    · cases List.mem_singleton.1 hs
      exact isPathComponent_fileName h

theorem plain_of_mem_placeNames (h : ¬ Misplaced id) {s : String} (hs : s ∈ placeNames id) : Path.Plain s :=
  Path.plain_of_isPathComponent (isPathComponent_of_mem_placeNames h hs)

/-- **Empty parts of a group leave no trace** in the path. -/
theorem artifactPath_eq (r : Repository) (h : ¬ Misplaced id) :
    r.artifactPath id = (placeNames id).foldl Path.join r.root := by
  refine Path.foldl_join_skip (fun s hs => ?_) (fun s hs => ?_) (List.cons_ne_nil _ _) r.root
  · refine or_iff_not_imp_left.2 fun filled => plain_of_mem_placeNames h ?_
    exact List.mem_append_left _ (mem_filledParts.2 ⟨hs, filled⟩)
  · exact plain_of_mem_placeNames h (List.mem_append_right _ hs)

theorem placeNames_ne_nil (id : Identity) : placeNames id ≠ [] := by simp [placeNames]

/-- **What holds of an identity that has a place**: its file, and what is made of it. -/
structure Inside (r : Repository) (id : Identity) : Prop where
  load : ∀ fs, r.load fs id =
    match fs.readText (r.artifactPath id) with
    | .error .notFound => .error (.notFound id)
    | .error e => .error (.read (r.artifactPath id) e)
    | .ok text => (Feature.codec.decode text).mapError (.parse (r.artifactPath id))
  locate : ∀ fs, r.locate fs id =
    if fs.isFile (r.artifactPath id) then .ok (r.artifactPath id) else .error (.notFound id)
  /-- The path is the root with the names behind it, one after the other. -/
  path : r.artifactPath id = (placeNames id).foldl Path.join r.root
  parts : Path.parts (r.artifactPath id) = Path.leading r.root ++ placeNames id
  names : ∀ s ∈ placeNames id, s ≠ "" ∧ Placeable s
  below : Path.Below r.root (r.artifactPath id)
  /-- What the path means, in any file system, lies below what the root means. -/
  place : ∀ (fs : FileSystem) (there : List String), fs.locate (r.artifactPath id) = .ok there →
    ∃ base, fs.place r.root = .ok base ∧ there = base ++ placeNames id

theorem inside (r : Repository) (h : ¬ Misplaced id) : r.Inside id where
  load fs := by
    unfold Repository.load checkedPath
    rw [if_pos (hasPlace_iff.2 h)]
    show (match fs.readText (r.artifactPath id) with
      | .error .notFound => _ | .error e => _ | .ok text => _) = _
    split <;> rfl
  locate fs := by
    unfold Repository.locate checkedPath
    rw [if_pos (hasPlace_iff.2 h)]
    rfl
  path := artifactPath_eq r h
  parts := by
    rw [artifactPath_eq r h,
      Path.parts_foldl_join (fun _ hs => plain_of_mem_placeNames h hs) (placeNames_ne_nil id)]
  names _ hs := isPathComponent_iff.1 (isPathComponent_of_mem_placeNames h hs)
  below := ⟨placeNames id, placeNames_ne_nil id, fun _ hs => plain_of_mem_placeNames h hs, artifactPath_eq r h⟩
  place fs there located := by
    rw [artifactPath_eq r h] at located
    exact FileSystem.locate_foldl_join (fun _ hs => plain_of_mem_placeNames h hs) (placeNames_ne_nil id) located

theorem Inside.located {r : Repository} {fs : FileSystem} {path : String} (h : r.Inside id)
    (found : r.locate fs id = .ok path) : path = r.artifactPath id := by
  rw [h.locate] at found
  split at found
  · exact (Except.ok.inj found).symm
  · cases found

theorem Inside.plain {r : Repository} (h : r.Inside id) : ∀ s ∈ placeNames id, Path.Plain s := fun s hs =>
  Path.plain_of_isPathComponent (isPathComponent_iff.2 (h.names s hs))

theorem refused (r : Repository) (h : Misplaced id) (fs : FileSystem) :
    r.load fs id = .error (.invalidCoordinate id) ∧ r.locate fs id = .error (.invalidCoordinate id) := by
  have unplaced : ¬ hasPlace id = true := fun placed => hasPlace_iff.1 placed h
  unfold Repository.load Repository.locate checkedPath
  rw [if_neg unplaced]
  exact ⟨rfl, rfl⟩

/-- **A repository keeps to its directory.** An identity is refused exactly if it is misplaced, whatever
texts it was put together from. The file of any other one lies strictly below the root: in a
directory for each part of its group that is not empty, for its name and for its version, under one
file name, none of which leads elsewhere. No identity that was read is misplaced. -/
theorem confined (r : Repository) (id : Identity) :
    (∀ fs id', (r.load fs id = .error (.invalidCoordinate id') ↔ Misplaced id ∧ id' = id) ∧
      (r.locate fs id = .error (.invalidCoordinate id') ↔ Misplaced id ∧ id' = id)) ∧
    (¬ Misplaced id → r.Inside id) ∧
    ∀ input, parse input = .ok id → ¬ Misplaced id := by
  refine ⟨fun fs id' => ?_, r.inside, fun _ read => not_misplaced_of_legible (legible_of_parse read)⟩
  by_cases h : Misplaced id
  · rw [(r.refused h fs).1, (r.refused h fs).2]
    simp [h, eq_comm]
  · have elsewhere := r.inside h
    rw [elsewhere.load, elsewhere.locate]
    refine ⟨iff_of_false ?_ fun both => h both.1, iff_of_false ?_ fun both => h both.1⟩
    · split
      · nofun
      · nofun
      · cases Feature.codec.decode _ <;> nofun
    · split <;> nofun

/-- A feature with a classifier. -/
def webFeature : Identity := ⟨"org.example", "base", "1.0", some "web", "feature"⟩

/-- An identity that would lead out of a directory. -/
def climbing : Identity := (of "org" ".." "..").withClassifier "../../secret"

/-- The one has its file four directories below the root, and the other has none. -/
theorem confined_web :
    parse "org.example:base:feature:web:1.0" = .ok webFeature ∧ Inside ⟨"/repo"⟩ webFeature ∧
    artifactPath ⟨"/repo"⟩ webFeature = "/repo/org/example/base/1.0/base-1.0-web.feature" ∧
    Misplaced climbing ∧ load ⟨"/repo"⟩ default climbing = .error (.invalidCoordinate climbing) := by
  have read : parse "org.example:base:feature:web:1.0" = .ok webFeature := by decide +kernel
  have placed := (confined ⟨"/repo"⟩ webFeature).2.2 _ read
  have climbs : Misplaced climbing := .rest (s := "..") (by decide) (by simp)
  have refusal := ((confined ⟨"/repo"⟩ climbing).1 default climbing).1
  exact ⟨read, (confined ⟨"/repo"⟩ webFeature).2.1 placed, by decide +kernel, climbs,
    refusal.2 ⟨climbs, rfl⟩⟩

/-! ## Files of different identities -/

/-- **Two identities share a file**: their groups have the same parts, but for empty ones, their names
and versions are the same, and so is what their classifiers and types amount to in a file name. -/
structure SameFile (id id' : Identity) : Prop where
  group : filledParts id = filledParts id'
  name : id.name = id'.name
  version : id.version = id'.version
  ending : id.classifier = none ∧ id'.classifier = none ∧ id.type = id'.type ∨
    ∃ c c', id.classifier = some c ∧ id'.classifier = some c' ∧ c ++ "." ++ id.type = c' ++ "." ++ id'.type

theorem ending_inj : ending id = ending id' ↔
    id.classifier = none ∧ id'.classifier = none ∧ id.type = id'.type ∨
      ∃ c c', id.classifier = some c ∧ id'.classifier = some c' ∧
        c ++ "." ++ id.type = c' ++ "." ++ id'.type := by
  unfold ending
  cases id.classifier with
  | none =>
    cases id'.classifier with
    | none => simp [String.append_right_inj]
    | some c' => simp [String.ext_iff, String.toList_append]
  | some c =>
    cases id'.classifier with
    | none => simp [String.ext_iff, String.toList_append]
    | some c' => simp [String.append_assoc, String.append_right_inj]

theorem placeNames_inj : placeNames id = placeNames id' ↔ SameFile id id' := by
  constructor
  · intro same
    obtain ⟨group, rest⟩ := List.append_inj' same rfl
    obtain ⟨name, version, file⟩ :
        id.name = id'.name ∧ id.version = id'.version ∧ fileName id = fileName id' := by
      simpa using rest
    rw [fileName_eq, fileName_eq, name, version, String.append_right_inj] at file
    exact ⟨group, name, version, ending_inj.1 file⟩
  · rintro ⟨group, name, version, ending⟩
    rw [placeNames, placeNames, fileName_eq, fileName_eq, group, name, version, ending_inj.2 ending]

/-- What stands behind the last dot can be told from what stands before it. -/
theorem append_dot_inj {a a' b b' : String} (dotless : '.' ∉ b.toList) (dotless' : '.' ∉ b'.toList) :
    a ++ "." ++ b = a' ++ "." ++ b' ↔ a = a' ∧ b = b' := by
  refine ⟨fun same => ?_, by rintro ⟨rfl, rfl⟩; rfl⟩
  have cut : ∀ x y : String, '.' ∉ y.toList → segments '.' (x ++ "." ++ y) = segments '.' x ++ [y] := by
    intro x y h
    have dot : (x ++ "." ++ y).toList = x.toList ++ '.' :: y.toList := by simp [String.toList_append]
    rw [segments, dot, List.splitOn_append_cons_self, List.map_append, List.splitOn_eq_singleton h]
    simp [segments]
  have pieces := congrArg (segments '.') same
  rw [cut a b dotless, cut a' b' dotless'] at pieces
  obtain ⟨front, last⟩ := List.append_inj' pieces rfl
  refine ⟨?_, List.singleton_inj.1 last⟩
  rw [← joinWith_segments '.' a, front, joinWith_segments]

/-- A group without empty parts is told by those that are not empty. -/
theorem group_eq_of_filledParts (same : filledParts id = filledParts id') (filled : "" ∉ groupParts id)
    (filled' : "" ∉ groupParts id') : id.group = id'.group := by
  have all : ∀ i : Identity, "" ∉ groupParts i → filledParts i = groupParts i := fun i h =>
    List.filter_eq_self.2 fun part among => by
      rw [bne_iff_ne]
      rintro rfl
      exact h among
  rw [all id filled, all id' filled'] at same
  rw [← joinWith_segments '.' id.group, ← joinWith_segments '.' id'.group]
  exact congrArg _ same

theorem SameFile.eq (same : SameFile id id') (filled : "" ∉ groupParts id) (filled' : "" ∉ groupParts id')
    (dotless : '.' ∉ id.type.toList) (dotless' : '.' ∉ id'.type.toList) : id = id' := by
  have group := group_eq_of_filledParts same.group filled filled'
  have behind : id.classifier = id'.classifier ∧ id.type = id'.type := by
    rcases same.ending with ⟨none, none', type⟩ | ⟨c, c', some, some', whole⟩
    · exact ⟨none.trans none'.symm, type⟩
    · obtain ⟨rfl, type⟩ := (append_dot_inj dotless dotless').1 whole
      exact ⟨some.trans some'.symm, type⟩
  obtain ⟨classifier, type⟩ := behind
  have name := same.name
  have version := same.version
  cases id
  cases id'
  simp_all

/-- **Which artifacts share a file**: those, of coordinates that were read, that differ in nothing but
empty parts of the group and the place where the classifier ends and the type begins. No two others
have one path, are located in one file, or are looked for in one place of a file system. Coordinates
without empty parts of the group and without dots in the type have a file each. -/
theorem files_apart (r : Repository) {input input' : String} (read : parse input = .ok id)
    (read' : parse input' = .ok id') :
    (r.artifactPath id = r.artifactPath id' ↔ SameFile id id') ∧
    (∀ fs path, r.locate fs id = .ok path → r.locate fs id' = .ok path → SameFile id id') ∧
    (∀ (fs : FileSystem) there, fs.locate (r.artifactPath id) = .ok there →
      fs.locate (r.artifactPath id') = .ok there → SameFile id id') ∧
    (SameFile id id' → "" ∉ groupParts id → "" ∉ groupParts id' → '.' ∉ id.type.toList →
      '.' ∉ id'.type.toList → id = id') := by
  have inside := r.inside (not_misplaced_of_legible (legible_of_parse read))
  have inside' := r.inside (not_misplaced_of_legible (legible_of_parse read'))
  have paths : r.artifactPath id = r.artifactPath id' ↔ SameFile id id' := by
    rw [inside.path, inside'.path, ← placeNames_inj]
    exact ⟨Path.foldl_join_injective inside.plain inside'.plain, congrArg _⟩
  refine ⟨paths, fun fs path found found' => ?_, fun fs there found found' => ?_, SameFile.eq⟩
  · exact paths.1 ((inside.located found).symm.trans (inside'.located found'))
  · obtain ⟨base, above, rfl⟩ := inside.place fs there found
    obtain ⟨base', above', same⟩ := inside'.place fs _ found'
    cases above.symm.trans above'
    exact placeNames_inj.1 (List.append_cancel_left same)

/-- Two artifacts of one group have a file each. -/
theorem files_apart_base :
    artifactPath ⟨"/repo"⟩ (of "org.example" "base" "1.0") ≠
      artifactPath ⟨"/repo"⟩ (of "org.example" "core" "1.0") := by
  have base : parse "org.example:base:1.0" = .ok (of "org.example" "base" "1.0") := by decide +kernel
  have core : parse "org.example:core:1.0" = .ok (of "org.example" "core" "1.0") := by decide +kernel
  have shared := files_apart ⟨"/repo"⟩ base core
  intro same
  exact absurd (shared.1.1 same).name (by decide)

/-- **Two coordinates with one file**: an empty part of a group is no directory. And a dot may stand in
a classifier as well as in a type. -/
theorem one_file_for_two :
    parse "g:n:1" = .ok (of "g" "n" "1") ∧ parse "g.:n:1" = .ok (of "g." "n" "1") ∧
    of "g" "n" "1" ≠ of "g." "n" "1" ∧
    artifactPath ⟨"repo"⟩ (of "g" "n" "1") = artifactPath ⟨"repo"⟩ (of "g." "n" "1") ∧
    parse "g:n:gz:src.tar:1" = .ok ⟨"g", "n", "1", some "src.tar", "gz"⟩ ∧
    parse "g:n:tar.gz:src:1" = .ok ⟨"g", "n", "1", some "src", "tar.gz"⟩ ∧
    artifactPath ⟨"repo"⟩ ⟨"g", "n", "1", some "src.tar", "gz"⟩ =
      artifactPath ⟨"repo"⟩ ⟨"g", "n", "1", some "src", "tar.gz"⟩ := by
  refine ⟨?_, ?_, ?_, ?_, ?_, ?_, ?_⟩ <;> decide +kernel

end Repository

end FeatureAssembly
