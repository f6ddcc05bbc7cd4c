import FeatureAssembly.Command.Program
import FeatureAssembly.Proofs.JoinedPaths
import FeatureAssembly.Proofs.Json.Reading
import Mathlib.Data.List.Nodup
import Mathlib.Data.List.TakeDrop

/-!
# Written files

What is on a disk after files were written.

**The law** (`each_written`): where things are written to files whose paths are one path with different
plain names behind it, every file that is new or changed is that of a thing, with its text, and if all
goes well each thing is found in its file. Nothing that was there is gone (`FileSystem.Writes`).

It holds of a run of writes because it holds of one, and what one write leaves is that all is as it
was, but for one file (`FileSystem.Sets`) and some new directories (`FileSystem.Adds`).

What it does not establish: that writing goes well.
-/

set_option autoImplicit false

namespace FeatureAssembly

/-! ## What lies at a place -/

namespace FileNode

/-- What a node is, whatever a directory has in it. -/
inductive Kind where
  | directory
  | file (content : ByteArray)

def kind : FileNode → Kind
  | .directory _ => .directory
  | .file content => .file content

/-- What lies at some names below a node. -/
def look (n : FileNode) (names : List String) : Option Kind := (n.at? names).map kind

theorem look_cons (entries : List (String × FileNode)) (name : String) (rest : List String) :
    (directory entries).look (name :: rest) =
      (SortedMap.lookupEntry name entries).bind fun n => n.look rest := by
  show ((SortedMap.lookupEntry name entries).bind fun n => n.at? rest).map kind = _
  cases SortedMap.lookupEntry name entries <;> rfl

theorem at?_append (n : FileNode) (names rest : List String) :
    n.at? (names ++ rest) = (n.at? names).bind fun n => n.at? rest := by
  induction names generalizing n with
  | nil => rfl
  | cons name names ih =>
    cases n with
    | file _ => rfl
    | directory entries =>
      show (SortedMap.lookupEntry name entries).bind (fun n => n.at? (names ++ rest)) = _
      rw [funext fun n => ih n, ← Option.bind_assoc]
      rfl

theorem look_eq_none {n : FileNode} {names : List String} (h : n.look names ≠ some .directory)
    (name : String) (rest : List String) : n.look (names ++ name :: rest) = none := by
  unfold look at h ⊢
  rw [at?_append]
  cases there : n.at? names with
  | none => rfl
  | some m =>
    cases m with
    | file _ => rfl
    | directory entries =>
      rw [there] at h
      exact absurd rfl h

/-- **Where a node with nothing in it is put into a directory**, it is there, and nothing else has
changed. -/
theorem look_put {x n : FileNode} {here : List String} {last : String}
    (leaf : ∀ name rest, x.look (name :: rest) = none)
    (holder : n.look here = some .directory) (free : n.look (here ++ [last]) ≠ some .directory)
    (names : List String) :
    (put x (here ++ [last]) n).look names = if names = here ++ [last] then some x.kind else n.look names := by
  -- what is put in has nothing below it, and what it replaces had nothing either
  have below : ∀ name rest, n.look (here ++ [last] ++ name :: rest) = none := look_eq_none free
  induction here generalizing n names with
  | nil =>
    cases n with
    | file _ => cases holder
    | directory entries =>
      cases names with
      | nil => rfl
      | cons name rest =>
        show (directory (SortedMap.insertEntry last x entries)).look (name :: rest) = _
        rw [look_cons, SortedMap.lookupEntry_insertEntry]
        by_cases same : name = last
        · subst same
          rw [if_pos Std.ReflOrd.compare_self, Option.bind_some]
          cases rest with
          | nil => exact (if_pos rfl).symm
          | cons next rest =>
            rw [leaf, if_neg (by simp)]
            exact (below next rest).symm
        · have other : compare name last ≠ .eq := fun h => same (Std.LawfulEqOrd.eq_of_compare h)
          rw [if_neg other, if_neg (by simp [same]), look_cons]
  | cons first here ih =>
    cases n with
    | file _ => cases holder
    | directory entries =>
      simp only [List.cons_append, look_cons] at holder free below ⊢
      obtain ⟨inner, there, within⟩ := Option.bind_eq_some_iff.1 holder
      rw [there, Option.bind_some] at free
      simp only [there, Option.bind_some] at below
      cases names with
      | nil => rfl
      | cons name rest =>
        show (directory (SortedMap.insertEntry first
          (put x (here ++ [last]) ((SortedMap.lookupEntry first entries).getD emptyDirectory))
          entries)).look (name :: rest) = _
        rw [look_cons, SortedMap.lookupEntry_insertEntry, there, Option.getD_some]
        by_cases same : name = first
        · subst same
          rw [if_pos Std.ReflOrd.compare_self, Option.bind_some, ih within free rest below, look_cons, there,
            Option.bind_some]
          simp only [List.cons.injEq, true_and]
        · have other : compare name first ≠ .eq := fun h => same (Std.LawfulEqOrd.eq_of_compare h)
          rw [if_neg other, if_neg (by simp [same]), look_cons]

end FileNode

namespace FileSystem

open FileNode Json

variable {fs fs' fs'' : FileSystem} {here there names : List String} {out : String}

/-- What lies at some names below the root. -/
def look (fs : FileSystem) (names : List String) : Option Kind := fs.root.look names

theorem look_of_entriesAt {entries : List (String × FileNode)} (h : fs.entriesAt here = .ok entries) :
    fs.look here = some .directory ∧
      ∀ name, fs.look (here ++ [name]) = (SortedMap.lookupEntry name entries).map kind := by
  unfold entriesAt at h
  split at h
  · cases h
  · cases h
  · next entries' found =>
    cases h
    unfold look FileNode.look
    refine ⟨by rw [found]; rfl, fun name => ?_⟩
    rw [at?_append, found]
    show ((SortedMap.lookupEntry name entries).bind _).map kind = _
    cases SortedMap.lookupEntry name entries <;> rfl

theorem exists_entriesAt (h : fs.look here = some .directory) : ∃ entries, fs.entriesAt here = .ok entries := by
  unfold look FileNode.look at h
  unfold entriesAt
  cases found : fs.root.at? here with
  | none => rw [found] at h; cases h
  | some n =>
    cases n with
    | file _ => rw [found] at h; cases h
    | directory entries => exact ⟨entries, rfl⟩

/-- **Following a segment** goes on from a directory: it stays, goes up, or goes to an entry. -/
theorem follow_eq_ok_iff {segment : String} :
    fs.follow here segment = .ok there ↔ fs.look here = some .directory ∧
      ((segment = "" ∨ segment = ".") ∧ there = here ∨
        segment = ".." ∧ there = here.dropLast ∨
        segment ∉ ["", ".", ".."] ∧ segment.utf8ByteSize ≤ nameLimit ∧
          (fs.look (here ++ [segment])).isSome ∧ there = here ++ [segment]) := by
  unfold follow
  cases read : fs.entriesAt here with
  | error e =>
    apply iff_of_false nofun
    intro h
    obtain ⟨entries, found⟩ := exists_entriesAt h.1
    rw [read] at found
    cases found
  | ok entries =>
    obtain ⟨directory, entry⟩ := look_of_entriesAt read
    rw [directory, entry, Option.isSome_map]
    show (if _ then _ else _) = Except.ok there ↔ _
    constructor
    · intro h
      refine ⟨rfl, ?_⟩
      split at h
      · next stays =>
        cases h
        exact .inl ⟨by simpa using stays, rfl⟩
      next elsewhere =>
      split at h
      · next up =>
        cases h
        exact .inr (.inl ⟨up, rfl⟩)
      next not_up =>
      split at h
      · cases h
      next short =>
      split at h
      · next listed =>
        cases h
        have name : segment ∉ ["", ".", ".."] := by simpa [not_up] using elsewhere
        exact .inr (.inr ⟨name, Nat.not_lt.1 short, listed, rfl⟩)
      · cases h
    · rintro ⟨-, ⟨stays, rfl⟩ | ⟨rfl, rfl⟩ | ⟨name, short, listed, rfl⟩⟩
      · rw [if_pos (by simpa using stays)]
        rfl
      · rfl
      · simp only [List.mem_cons, List.not_mem_nil, or_false, not_or] at name
        rw [if_neg (by simp [name]), if_neg name.2.2, if_neg (Nat.not_lt.2 short), if_pos listed]
        rfl

/-! ## Changes -/

/-- **One change**: there is something else at one place, and all other places are as they were. -/
structure Sets (fs : FileSystem) (place : List String) (kind : Kind) (fs' : FileSystem) : Prop where
  workingDir : fs'.workingDir = fs.workingDir
  look : ∀ names, fs'.look names = if names = place then some kind else fs.look names

/-- **Nothing is lost**: what was a directory is one, and what was a file is one. -/
structure Grows (fs fs' : FileSystem) : Prop where
  workingDir : fs'.workingDir = fs.workingDir
  directory : ∀ names, fs.look names = some .directory → fs'.look names = some .directory
  file : ∀ names content, fs.look names = some (.file content) →
    ∃ content', fs'.look names = some (.file content')

/-- **All that is new are directories.** -/
structure Adds (fs fs' : FileSystem) : Prop where
  workingDir : fs'.workingDir = fs.workingDir
  look : ∀ names, fs'.look names = fs.look names ∨ (fs.look names = none ∧ fs'.look names = some .directory)

theorem Grows.trans (first : fs.Grows fs') (next : fs'.Grows fs'') : fs.Grows fs'' where
  workingDir := next.workingDir.trans first.workingDir
  directory names h := next.directory names (first.directory names h)
  file names content h := by
    obtain ⟨content', h⟩ := first.file names content h
    exact next.file names content' h

theorem Grows.isSome (grows : fs.Grows fs') (h : (fs.look names).isSome) : (fs'.look names).isSome := by
  obtain ⟨kind, there⟩ := Option.isSome_iff_exists.1 h
  cases kind with
  | directory =>
    rw [grows.directory names there]
    rfl
  | file content =>
    obtain ⟨content', there⟩ := grows.file names content there
    rw [there]
    rfl

theorem Adds.refl (fs : FileSystem) : fs.Adds fs := ⟨rfl, fun _ => .inl rfl⟩

theorem Adds.trans (first : fs.Adds fs') (next : fs'.Adds fs'') : fs.Adds fs'' where
  workingDir := next.workingDir.trans first.workingDir
  look names := by
    rcases next.look names with same | ⟨absent, made⟩
    · rw [same]
      exact first.look names
    · rcases first.look names with same | ⟨_, made'⟩
      · exact .inr ⟨same.symm.trans absent, made⟩
      · rw [made'] at absent
        cases absent

theorem Adds.grows (h : fs.Adds fs') : fs.Grows fs' where
  workingDir := h.workingDir
  directory names there := by
    rcases h.look names with same | ⟨absent, _⟩
    · exact same.trans there
    · rw [there] at absent
      cases absent
  file names content there := by
    rcases h.look names with same | ⟨absent, _⟩
    · exact ⟨content, same.trans there⟩
    · rw [there] at absent
      cases absent

/-- Writing over what is no directory loses nothing. -/
theorem Sets.grows {place : List String} {content : ByteArray} (h : fs.Sets place (.file content) fs')
    (free : fs.look place ≠ some .directory) : fs.Grows fs' where
  workingDir := h.workingDir
  directory names there := by
    rw [h.look, if_neg]
    · exact there
    · rintro rfl
      exact free there
  file names old there := by
    rw [h.look]
    split
    · exact ⟨content, rfl⟩
    · exact ⟨old, there⟩

theorem sets_putAt {x : FileNode} {last : String} (leaf : ∀ name rest, x.look (name :: rest) = none)
    (holder : fs.look here = some .directory) (free : fs.look (here ++ [last]) ≠ some .directory) :
    fs.Sets (here ++ [last]) x.kind (fs.putAt (here ++ [last]) x) where
  workingDir := rfl
  look := look_put leaf holder free

/-! ## Following paths -/

theorem Grows.follow (grows : fs.Grows fs') {segment : String} (h : fs.follow here segment = .ok there) :
    fs'.follow here segment = .ok there := by
  obtain ⟨directory, goes⟩ := follow_eq_ok_iff.1 h
  apply follow_eq_ok_iff.2
  refine ⟨grows.directory here directory, ?_⟩
  rcases goes with stays | up | ⟨name, short, entry, rfl⟩
  · exact .inl stays
  · exact .inr (.inl up)
  · exact .inr (.inr ⟨name, short, grows.isSome entry, rfl⟩)

theorem Grows.walk (grows : fs.Grows fs') {segments : List String}
    (h : segments.foldlM fs.follow here = .ok there) : segments.foldlM fs'.follow here = .ok there := by
  induction segments generalizing here with
  | nil => exact h
  | cons segment rest ih =>
    rw [List.foldlM_cons] at h ⊢
    obtain ⟨next, step, h⟩ := ok_of_bind h
    rw [grows.follow step]
    exact ih h

theorem follow_plain {name : String} (plain : Path.Plain name) (h : fs.follow here name = .ok there) :
    there = here ++ [name] := by
  rcases (follow_eq_ok_iff.1 h).2 with ⟨empty | dot, -⟩ | ⟨dots, -⟩ | ⟨-, -, -, goes⟩
  · exact absurd empty plain.nonempty
  · exact absurd dot plain.not_here
  · exact absurd dots plain.not_above
  · exact goes

/-- Plain names lead down. -/
theorem walk_plain (plain : ∀ name ∈ names, Path.Plain name) (h : names.foldlM fs.follow here = .ok there) :
    there = here ++ names := by
  induction names generalizing here with
  | nil =>
    cases h
    exact (List.append_nil _).symm
  | cons name rest ih =>
    rw [List.foldlM_cons] at h
    obtain ⟨next, step, h⟩ := ok_of_bind h
    rw [ih (fun n hn => plain n (List.mem_cons_of_mem name hn)) h,
      follow_plain (plain name List.mem_cons_self) step, List.append_assoc]
    rfl

/-- **The names that lead from the root to what a path means**, whether a slash stands behind it or not. -/
def place (fs : FileSystem) (p : String) : Except FileError (List String) :=
  (Path.leading p).foldlM fs.follow (fs.startOf p)

theorem Grows.startOf (grows : fs.Grows fs') (p : String) : fs'.startOf p = fs.startOf p := by
  unfold FileSystem.startOf
  rw [grows.workingDir]

theorem Grows.place (grows : fs.Grows fs') {p : String} (h : fs.place p = .ok there) :
    fs'.place p = .ok there := by
  unfold FileSystem.place at h ⊢
  rw [grows.startOf]
  exact grows.walk h

theorem Grows.locate (grows : fs.Grows fs') {p : String} (h : fs.locate p = .ok there) :
    fs'.locate p = .ok there := by
  unfold FileSystem.locate at h ⊢
  obtain ⟨_, spelled, h⟩ := ok_of_bind h
  rw [spelled, grows.startOf]
  exact grows.walk h

theorem find_of_look {p : String} {content : ByteArray} (located : fs.locate p = .ok there)
    (h : fs.look there = some (.file content)) : fs.find p = .ok (.file content) := by
  obtain ⟨n, found, is_file⟩ := Option.map_eq_some_iff.1 h
  cases n with
  | directory _ => cases is_file
  | file _ =>
    cases is_file
    simp only [find, located, bind, Except.bind, found]
    rfl

/-! ## One file -/

theorem adds_makeDirectory {p : String} (h : fs.makeDirectory p = .ok fs') : fs.Adds fs' := by
  unfold makeDirectory at h
  obtain ⟨_, -, h⟩ := ok_of_bind h
  split at h
  · cases h
  · next front last _ _ =>
    obtain ⟨here, -, h⟩ := ok_of_bind h
    obtain ⟨entries, read, h⟩ := ok_of_bind h
    obtain ⟨holder, entry⟩ := look_of_entriesAt read
    split at h
    · cases h
    split at h
    · cases h
    split at h
    · cases h
    · next absent =>
      cases h
      have free : fs.look (here ++ [last]) = none := by
        rw [entry, Option.not_isSome_iff_eq_none.1 absent]
        rfl
      have set := sets_putAt (x := .emptyDirectory) (fun _ _ => rfl) holder (by rw [free]; exact nofun)
      refine ⟨set.workingDir, fun names => ?_⟩
      rw [set.look]
      split
      · next same =>
        subst same
        exact .inr ⟨free, rfl⟩
      · exact .inl rfl

theorem adds_makeFirst {dirs : List String} (h : fs.makeFirst dirs = .ok fs') : fs.Adds fs' := by
  induction dirs generalizing fs fs' with
  | nil =>
    cases h
    exact .refl fs
  | cons p above ih =>
    unfold makeFirst at h
    split at h
    · cases h
      exact .refl fs
    split at h
    · next made =>
      cases h
      exact adds_makeDirectory made
    · obtain ⟨fs₁, prepared, h⟩ := ok_of_bind h
      split at h
      · next made =>
        cases h
        exact (ih prepared).trans (adds_makeDirectory made)
      · split at h
        · cases h
          exact ih prepared
        · cases h
    · split at h
      · cases h
        exact .refl fs
      · cases h

theorem splitLast?_foldl_join {name : String} (plain : ∀ n ∈ names ++ [name], Path.Plain n) (out : String) :
    splitLast? ((names ++ [name]).foldl Path.join out) = some (Path.leading out ++ names, name, false) := by
  have last : Path.Plain name := plain name (by simp)
  unfold splitLast?
  rw [Path.parts_foldl_join plain (by simp), ← List.append_assoc, List.reverse_append, List.reverse_singleton,
    List.singleton_append, List.span_eq_takeWhile_dropWhile, List.takeWhile_cons_of_neg,
    List.dropWhile_cons_of_neg]
  · simp
  · simpa using last.nonempty
  · simpa using last.nonempty

/-- What writing a text file took, and what it did. -/
theorem of_writeText {p text : String} (h : fs.writeText p text = .ok fs') :
    ∃ front last here, splitLast? p = some (front, last, false) ∧ checkPath p = .ok () ∧
      front.foldlM fs.follow (fs.startOf p) = .ok here ∧ last.utf8ByteSize ≤ nameLimit ∧
      fs.look here = some .directory ∧ fs.look (here ++ [last]) ≠ some .directory ∧
      fs.Sets (here ++ [last]) (.file text.toUTF8) fs' := by
  unfold writeText at h
  obtain ⟨_, spelled, h⟩ := ok_of_bind h
  split at h
  · cases h
  next front last slashed split =>
  obtain ⟨here, walked, h⟩ := ok_of_bind h
  obtain ⟨entries, read, h⟩ := ok_of_bind h
  obtain ⟨holder, entry⟩ := look_of_entriesAt read
  split at h
  · cases h
  next name =>
  split at h
  · cases h
  next short =>
  split at h
  · cases h
  next no_directory =>
  cases h
  have unslashed : slashed = false := by
    cases slashed
    · rfl
    · simp at name
  have free : fs.look (here ++ [last]) ≠ some .directory := by
    rw [entry]
    intro h
    obtain ⟨n, listed, directory⟩ := Option.map_eq_some_iff.1 h
    cases n with
    | file _ => cases directory
    | directory below => exact no_directory below listed
  rw [unslashed] at split
  exact ⟨front, last, here, split, spelled, walked, Nat.not_lt.1 short, holder, free,
    sets_putAt (x := .file text.toUTF8) (fun _ _ => rfl) holder free⟩

/-- **Writing a text file** whose path is another one with plain names behind it. -/
theorem sets_of_writeText {text : String} (plain : ∀ name ∈ names, Path.Plain name) (ne : names ≠ [])
    (h : fs.writeText (names.foldl Path.join out) text = .ok fs') :
    ∃ above, fs.place out = .ok above ∧ fs.look (above ++ names) ≠ some .directory ∧
      fs.Sets (above ++ names) (.file text.toUTF8) fs' ∧
      fs'.locate (names.foldl Path.join out) = .ok (above ++ names) := by
  obtain ⟨front, last, rfl⟩ := (List.eq_nil_or_concat names).resolve_left ne
  rw [List.concat_eq_append] at plain h ⊢
  have name : Path.Plain last := plain last (by simp)
  have start : fs.startOf ((front ++ [last]).foldl Path.join out) = fs.startOf out := by
    unfold FileSystem.startOf
    rw [Path.isAbsolute_foldl_join plain]
  obtain ⟨_, _, here, split, spelled, walked, short, holder, free, set⟩ := of_writeText h
  rw [splitLast?_foldl_join plain] at split
  cases split
  rw [start] at walked
  have walks := walked
  rw [List.foldlM_append] at walks
  obtain ⟨above, led, down⟩ := ok_of_bind walks
  have lies := walk_plain (fun n hn => plain n (List.mem_append_left _ hn)) down
  subst lies
  have grows := set.grows free
  have arrives : fs'.follow (above ++ front) last = .ok (above ++ front ++ [last]) := by
    apply follow_eq_ok_iff.2
    refine ⟨grows.directory _ holder, .inr (.inr ⟨?_, short, ?_, rfl⟩)⟩
    · simp [name.nonempty, name.not_here, name.not_above]
    · rw [set.look, if_pos rfl]
      rfl
  have located : fs'.locate ((front ++ [last]).foldl Path.join out) = .ok (above ++ front ++ [last]) := by
    unfold FileSystem.locate
    rw [spelled, grows.startOf, start, Path.parts_foldl_join plain (by simp), ← List.append_assoc]
    show ((Path.leading out ++ front) ++ [last]).foldlM fs'.follow (fs.startOf out) = _
    rw [List.foldlM_append, grows.walk walked]
    show [last].foldlM fs'.follow (above ++ front) = _
    rw [List.foldlM_cons, arrives]
    rfl
  rw [List.append_assoc] at free set located
  exact ⟨above, led, free, set, located⟩

/-! ## Several files -/

/-- **Files were written below a path**, each with the names that lead to it and its text: nothing is
lost, and each file that is new or changed is one of them. -/
structure Writes (out : String) (files : List (List String × String)) (fs fs' : FileSystem) : Prop where
  grows : fs.Grows fs'
  changed : ∀ place content, fs'.look place = some (.file content) → fs.look place = some (.file content) ∨
    ∃ above, fs'.place out = .ok above ∧ ∃ f ∈ files, place = above ++ f.1 ∧ content = f.2.toUTF8

variable {files files' : List (List String × String)}

theorem Adds.writes (h : fs.Adds fs') (out : String) (files : List (List String × String)) :
    Writes out files fs fs' where
  grows := h.grows
  changed place content there := by
    rcases h.look place with same | ⟨-, made⟩
    · exact .inl (same.symm.trans there)
    · rw [made] at there
      cases there

theorem Writes.trans (first : Writes out files fs fs') (next : Writes out files fs' fs'') :
    Writes out files fs fs'' where
  grows := first.grows.trans next.grows
  changed place content there := by
    rcases next.changed place content there with before | written
    · rcases first.changed place content before with unchanged | ⟨above, led, written⟩
      · exact .inl unchanged
      · exact .inr ⟨above, next.grows.place led, written⟩
    · exact .inr written

theorem Writes.weaken (h : Writes out files fs fs') (sub : ∀ f ∈ files, f ∈ files') :
    Writes out files' fs fs' where
  grows := h.grows
  changed place content there := by
    rcases h.changed place content there with before | ⟨above, led, f, listed, written⟩
    · exact .inl before
    · exact .inr ⟨above, led, f, sub f listed, written⟩

/-- **A text stands in a file**, at some names below a path. -/
def Has (fs : FileSystem) (out : String) (names : List String) (text : String) : Prop :=
  ∃ above, fs.place out = .ok above ∧ fs.look (above ++ names) = some (.file text.toUTF8) ∧
    fs.locate (names.foldl Path.join out) = .ok (above ++ names)

variable {text : String}

theorem Has.find (h : fs.Has out names text) : fs.find (names.foldl Path.join out) = .ok (.file text.toUTF8) := by
  obtain ⟨above, -, there, located⟩ := h
  exact find_of_look located there

/-- What stands in a file stays there while other files are written. -/
theorem Writes.has (h : Writes out files fs fs') (has : fs.Has out names text)
    (other : ∀ f ∈ files, f.1 ≠ names) : fs'.Has out names text := by
  obtain ⟨above, led, there, located⟩ := has
  refine ⟨above, h.grows.place led, ?_, h.grows.locate located⟩
  obtain ⟨content, there'⟩ := h.grows.file _ _ there
  rcases h.changed _ _ there' with before | ⟨above', led', f, listed, place, -⟩
  · rw [there', ← before, there]
  · rw [h.grows.place led] at led'
    cases led'
    exact absurd (List.append_cancel_left place).symm (other f listed)

theorem writes_of_writeText (plain : ∀ name ∈ names, Path.Plain name) (ne : names ≠ [])
    (h : fs.writeText (names.foldl Path.join out) text = .ok fs') :
    Writes out [(names, text)] fs fs' ∧ fs'.Has out names text := by
  obtain ⟨above, led, free, set, located⟩ := sets_of_writeText plain ne h
  have grows := set.grows free
  constructor
  · refine ⟨grows, fun place content found => ?_⟩
    rw [set.look] at found
    split at found
    · next same =>
      cases found
      exact .inr ⟨above, grows.place led, (names, text), List.mem_singleton_self _, same, rfl⟩
    · exact .inl found
  · refine ⟨above, grows.place led, ?_, located⟩
    rw [set.look, if_pos rfl]

end FileSystem

open FileSystem

variable {fs fs' : FileSystem} {out text : String} {names : List String} {failure : Option Failure}
  {files : List (List String × String)}

/-- **Writing a file**: directories are made, and then, if all goes well, it is there. -/
theorem writes_of_writeFile (plain : ∀ name ∈ names, Path.Plain name) (ne : names ≠ [])
    (h : writeFile fs (names.foldl Path.join out) text = (fs', failure)) :
    Writes out [(names, text)] fs fs' ∧ (failure = none → fs'.Has out names text) := by
  have write : ∀ made, fs.Adds made → writeFile.write (names.foldl Path.join out) text made = (fs', failure) →
      Writes out [(names, text)] fs fs' ∧ (failure = none → fs'.Has out names text) := by
    intro made adds h
    unfold writeFile.write at h
    split at h
    · next written =>
      cases h
      obtain ⟨writes, has⟩ := writes_of_writeText plain ne written
      exact ⟨(adds.writes out _).trans writes, fun _ => has⟩
    · cases h
      exact ⟨adds.writes out _, nofun⟩
  unfold writeFile at h
  split at h
  · cases h
    exact ⟨(Adds.refl fs).writes out _, nofun⟩
  · next made prepared =>
    obtain ⟨dir, -, pair⟩ := Option.map_eq_some_iff.1 prepared
    exact write made (adds_makeFirst (congrArg Prod.snd pair)) h
  · exact write fs (.refl fs) h

/-- **Writing files in turn** loses nothing and changes no other files. -/
theorem writes_of_writeFiles (plain : ∀ f ∈ files, f.1 ≠ [] ∧ ∀ name ∈ f.1, Path.Plain name)
    (h : writeFiles fs (files.map fun f => (f.1.foldl Path.join out, f.2)) = (fs', failure)) :
    Writes out files fs fs' := by
  induction files generalizing fs with
  | nil =>
    cases h
    exact (Adds.refl _).writes out []
  | cons f rest ih =>
    obtain ⟨ne, names⟩ := plain f List.mem_cons_self
    rw [List.map_cons, writeFiles] at h
    split at h
    · next written =>
      have first := (writes_of_writeFile names ne written).1
      have later := ih (fun g hg => plain g (List.mem_cons_of_mem f hg)) h
      exact (first.weaken (by simp)).trans (later.weaken (by simp +contextual))
    · next written =>
      cases h
      exact (writes_of_writeFile names ne written).1.weaken (by simp)

/-- **Files that were written in turn** stand there, where no names are the same. -/
theorem has_of_writeFiles (plain : ∀ f ∈ files, f.1 ≠ [] ∧ ∀ name ∈ f.1, Path.Plain name)
    (apart : (files.map Prod.fst).Nodup)
    (h : writeFiles fs (files.map fun f => (f.1.foldl Path.join out, f.2)) = (fs', none)) :
    ∀ f ∈ files, fs'.Has out f.1 f.2 := by
  induction files generalizing fs with
  | nil => exact fun _ hf => absurd hf List.not_mem_nil
  | cons f rest ih =>
    obtain ⟨ne, names⟩ := plain f List.mem_cons_self
    have plain_rest : ∀ g ∈ rest, g.1 ≠ [] ∧ ∀ name ∈ g.1, Path.Plain name :=
      fun g hg => plain g (List.mem_cons_of_mem f hg)
    rw [List.map_cons, List.nodup_cons] at apart
    rw [List.map_cons, writeFiles] at h
    split at h
    · next fs₁ written =>
      intro g hg
      rcases List.mem_cons.1 hg with rfl | hg
      · have has := (writes_of_writeFile names ne written).2 rfl
        have later := writes_of_writeFiles plain_rest h
        refine later.has has fun e he same => ?_
        exact apart.1 (List.mem_map.2 ⟨e, he, same⟩)
      · exact ih plain_rest apart.2 h g hg
    · cases h

/-- **Things that are written to files of their own**, with different plain names below a path: only
their files are new or changed, each with the text of its thing, and if all goes well each is found. -/
theorem each_written {α : Type} {l : List α} {names : α → List String} {text : α → String} (nodup : l.Nodup)
    (plain : ∀ x ∈ l, names x ≠ [] ∧ ∀ name ∈ names x, Path.Plain name)
    (apart : ∀ x ∈ l, ∀ y ∈ l, names x = names y → x = y)
    (h : writeFiles fs (l.map fun x => ((names x).foldl Path.join out, text x)) = (fs', failure)) :
    (∀ place content, fs'.look place = some (.file content) → fs.look place = some (.file content) ∨
      ∃ x ∈ l, ∃ above, fs'.place out = .ok above ∧ place = above ++ names x ∧ content = (text x).toUTF8) ∧
    (failure = none → ∀ x ∈ l, fs'.find ((names x).foldl Path.join out) = .ok (.file (text x).toUTF8)) := by
  let files := l.map fun x => (names x, text x)
  have as_files : (l.map fun x => ((names x).foldl Path.join out, text x)) =
      files.map fun f => (f.1.foldl Path.join out, f.2) := by
    rw [List.map_map]
    rfl
  have plain_files : ∀ f ∈ files, f.1 ≠ [] ∧ ∀ name ∈ f.1, Path.Plain name := List.forall_mem_map.2 plain
  rw [as_files] at h
  constructor
  · intro place content there
    have changed := (writes_of_writeFiles plain_files h).changed place content there
    rcases changed with before | ⟨above, led, f, hf, written⟩
    · exact .inl before
    · obtain ⟨x, hx, rfl⟩ := List.mem_map.1 hf
      exact .inr ⟨x, hx, above, led, written⟩
  · rintro rfl x hx
    have different : (files.map Prod.fst).Nodup := by
      rw [List.map_map]
      exact nodup.map_on apart
    exact (has_of_writeFiles plain_files different h (names x, text x) (List.mem_map_of_mem hx)).find

end FeatureAssembly
