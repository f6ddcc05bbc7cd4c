import FeatureAssembly.Command.Program
import FeatureAssembly.Proofs.Json.Reading
import FeatureAssembly.Proofs.SortedMap

/-!
# Features in files

What a build over files is given.

**The law** (`Manifest.build_readsFrom`): every raw feature, and every feature from outside, is what
the text of some file is read as. So what holds of all features in files holds of all that such a
build is given.

What it does not establish: which file it is. For raw features that is told by their locations, for
features from outside by `Repository.artifactPath`.
-/

set_option autoImplicit false

namespace FeatureAssembly

open Json

variable {content : ByteArray}

/-! ## Files below a node -/

namespace FileNode

/-- **A file with a content** lies at a node or below. -/
inductive Holds (content : ByteArray) : FileNode → Prop where
  | file : Holds content (.file content)
  | entry {entries : List (String × FileNode)} {e : String × FileNode} (listed : e ∈ entries)
      (below : Holds content e.2) : Holds content (.directory entries)

theorem Holds.of_at? {names : List String} {n below : FileNode} (found : n.at? names = some below)
    (h : below.Holds content) : n.Holds content := by
  induction names generalizing n with
  | nil =>
    cases found
    exact h
  | cons name rest ih =>
    cases n with
    | file _ => cases found
    | directory entries =>
      obtain ⟨next, there, found⟩ := Option.bind_eq_some_iff.1 found
      exact .entry (SortedMap.mem_of_lookupEntry there) (ih found)

mutual

/-- What a walk meets lies where it starts. -/
theorem holds_of_mem_visits {n : FileNode} {start path : String} {above names : List String}
    (h : .file path names content ∈ n.visits start above) : n.Holds content := by
  cases n with
  | file _ =>
    cases List.mem_singleton.1 h
    exact .file
  | directory entries =>
    rcases List.mem_cons.1 h with h | h
    · cases h
    · obtain ⟨e, listed, below⟩ := holds_of_mem_visitsIn h
      exact .entry listed below
termination_by structural n

theorem holds_of_mem_visitsIn {entries : List (String × FileNode)} {start path : String}
    {above names : List String} (h : .file path names content ∈ visitsIn start above entries) :
    ∃ e ∈ entries, e.2.Holds content := by
  cases entries with
  | nil => cases h
  | cons e rest =>
    obtain ⟨name, n⟩ := e
    rcases List.mem_append.1 h with h | h
    · exact ⟨(name, n), List.mem_cons_self, holds_of_mem_visits h⟩
    · obtain ⟨e, listed, below⟩ := holds_of_mem_visitsIn h
      exact ⟨e, List.mem_cons_of_mem (name, n) listed, below⟩
termination_by structural entries

end

theorem mem_visitsIn {v : Visit} {e : String × FileNode} {entries : List (String × FileNode)}
    (listed : e ∈ entries) {start : String} {above : List String}
    (h : v ∈ e.2.visits (Path.join start e.1) (above ++ [e.1])) : v ∈ visitsIn start above entries := by
  induction entries with
  | nil => cases listed
  | cons d rest ih =>
    obtain ⟨name, n⟩ := d
    rcases List.mem_cons.1 listed with rfl | listed
    · exact List.mem_append_left _ h
    · exact List.mem_append_right _ (ih listed)

/-- A walk meets all files. -/
theorem Holds.mem_visits {n : FileNode} (h : n.Holds content) (start : String) (above : List String) :
    ∃ path names, .file path names content ∈ n.visits start above := by
  induction h generalizing start above with
  | file => exact ⟨start, above, List.mem_cons_self⟩
  | @entry entries e listed below ih =>
    obtain ⟨path, names, h⟩ := ih (Path.join start e.1) (above ++ [e.1])
    exact ⟨path, names, List.mem_cons_of_mem _ (mem_visitsIn listed h)⟩

theorem Holds.mem_files {n : FileNode} (h : n.Holds content) : ∃ names, (names, content) ∈ n.files := by
  obtain ⟨path, names, met⟩ := h.mem_visits "" []
  exact ⟨names, List.mem_filterMap.2 ⟨_, met, rfl⟩⟩

end FileNode

/-! ## Features in files -/

namespace FileSystem

variable {fs : FileSystem} {f : Feature}

/-- **A feature is in a file**: the text of the file is read as it. -/
def Stores (fs : FileSystem) (f : Feature) : Prop :=
  ∃ content text, fs.root.Holds content ∧ textOf content = .ok text ∧ Feature.codec.decode text = .ok f

/-- The features in all files. -/
def storedFeatures (fs : FileSystem) : List Feature :=
  fs.root.files.filterMap fun e =>
    (textOf e.2).toOption.bind fun text => (Feature.codec.decode text).toOption

theorem Stores.mem_storedFeatures (h : fs.Stores f) : f ∈ fs.storedFeatures := by
  obtain ⟨content, text, held, textual, read⟩ := h
  obtain ⟨names, listed⟩ := held.mem_files
  refine List.mem_filterMap.2 ⟨(names, content), listed, ?_⟩
  simp only [textual, Except.toOption, Option.bind_some, read]

/-- What a path means lies at some names below the root. -/
theorem exists_at?_of_find {path : String} {n : FileNode} (found : fs.find path = .ok n) :
    ∃ names, fs.root.at? names = some n := by
  obtain ⟨names, -, found⟩ := ok_of_bind found
  split at found
  · next there =>
    cases found
    exact ⟨names, there⟩
  · cases found

theorem holds_of_find {path : String} {n : FileNode} (found : fs.find path = .ok n) (h : n.Holds content) :
    fs.root.Holds content := by
  obtain ⟨names, there⟩ := exists_at?_of_find found
  exact .of_at? there h

end FileSystem

open FileSystem

variable {fs : FileSystem} {f : Feature}

theorem ok_of_mapError {ε δ α : Type} {x : Except ε α} {report : ε → δ} {a : α}
    (h : x.mapError report = .ok a) : x = .ok a := by
  cases x with
  | error e => cases h
  | ok b => exact congrArg Except.ok (Except.ok.inj h)

namespace FeatureDirectory

theorem stored_of_readFeature {path : String} (held : fs.root.Holds content)
    (h : readFeature path content = .ok f) : fs.Stores f := by
  obtain ⟨_, -, h⟩ := ok_of_bind h
  obtain ⟨text, textual, h⟩ := ok_of_bind h
  exact ⟨content, text, held, ok_of_mapError textual, ok_of_mapError h⟩

/-- A visit takes at most the feature of the file that is met. -/
theorem stored_of_visit {start : String} {scope : Scope} {features features' : FeatureMap} {v : Visit}
    (held : ∀ path names content, v = .file path names content → fs.root.Holds content)
    (stored : ∀ e ∈ features.entries, fs.Stores e.2) (h : visit start scope features v = .ok features') :
    ∀ e ∈ features'.entries, fs.Stores e.2 := by
  intro e he
  cases v with
  | directory path =>
    simp only [visit] at h
    split at h
    · cases h
      exact stored e he
    · cases h
  | file path names content =>
    simp only [visit] at h
    split at h
    · obtain ⟨f, read, rfl⟩ := ok_of_map h
      rcases SortedMap.of_mem_insertEntry he with value | he
      · rw [value]
        exact stored_of_readFeature (held path names content rfl) read
      · exact stored e he
    · cases h
      exact stored e he

theorem stored_of_features {dir : String} {scope : Scope} {taken : FeatureMap}
    (h : features fs dir scope = .ok taken) : ∀ e ∈ taken.entries, fs.Stores e.2 := by
  have none : ∀ e ∈ (SortedMap.empty : FeatureMap).entries, fs.Stores e.2 :=
    fun _ he => absurd he List.not_mem_nil
  unfold features at h
  dsimp only at h
  split at h
  · next entries found =>
    refine foldlM_keeps (P := fun m : FeatureMap => ∀ e ∈ m.entries, fs.Stores e.2)
      (fun v hv _ _ stored step => stored_of_visit ?_ stored step) h none
    rintro path names content rfl
    exact holds_of_find found (FileNode.holds_of_mem_visits hv)
  · cases h
    exact none

/-- The source of a build reads the features of some directory. -/
theorem exists_features {r : Reactor} {m : Module} {scope : Scope} {taken : FeatureMap}
    (h : source fs (readAll fs r) m scope = .ok taken) : ∃ dir, features fs dir scope = .ok taken := by
  unfold source at h
  cases there : (readAll fs r).get? m.dir with
  | none =>
    rw [there] at h
    cases scope <;> exact ⟨m.dir, h⟩
  | some reading =>
    rw [there] at h
    rcases SortedMap.of_mem_insertAll (SortedMap.get?_eq_some_iff.1 there) with ⟨d, hd, value⟩ | none
    · obtain ⟨m', -, rfl⟩ := List.mem_map.1 hd
      cases value
      cases scope <;> exact ⟨m'.dir, h⟩
    · cases none

theorem stored_of_source {r : Reactor} {m : Module} {scope : Scope} {taken : FeatureMap}
    (h : source fs (readAll fs r) m scope = .ok taken) : ∀ f ∈ taken.values, fs.Stores f := by
  obtain ⟨dir, read⟩ := exists_features h
  exact List.forall_mem_map.2 (stored_of_features read)

end FeatureDirectory

theorem Repository.stored_of_load {r : Repository} {id : Identity} (h : r.load fs id = .ok f) :
    fs.Stores f := by
  obtain ⟨path, -, h⟩ := ok_of_bind h
  split at h
  · cases h
  · cases h
  · next text read =>
    obtain ⟨n, found, read⟩ := ok_of_bind read
    split at read
    · exact ⟨_, text, holds_of_find found .file, read, ok_of_mapError h⟩
    · cases read

/-! ## Builds over files -/

/-- **A build reads from a file system**: all that it is given is in files there. -/
structure Build.ReadsFrom (b : Build) (fs : FileSystem) : Prop where
  raw : ∀ m scope features, b.source m scope = .ok features → ∀ f ∈ features.values, fs.Stores f
  outside : ∀ id f, b.loader id = .ok f → fs.Stores f

/-- **The build of a manifest reads from the file system** that it is over. -/
theorem Manifest.build_readsFrom (m : Manifest) (r : Reactor) (env : Environment) (fs : FileSystem) :
    (m.build r env fs).ReadsFrom fs where
  raw _ _ _ h := FeatureDirectory.stored_of_source h
  outside _ _ h := Repository.stored_of_load h

end FeatureAssembly
