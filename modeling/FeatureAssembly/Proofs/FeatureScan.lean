import FeatureAssembly.Proofs.FeatureOutput
import FeatureAssembly.Proofs.WalkOrder

/-!
# The scan of a feature directory

What a scan takes from the files below a feature directory, and where it stops.

**The law** (`FeatureDirectory.scan_exact`): a scan that succeeds has taken the features in all feature
files, each under the path of its file from the module directory, and nothing else. It succeeds if all
these files can be read as features, and otherwise fails with the first of them that cannot, in the order
of a walk.

A feature file is any file whose name has the extension of feature files, at any depth. A directory can
have such a name too, and is none; a file whose name begins with its last dot has no extension.

Walks are taken to list all directories (`FeatureDirectory.Listed`). One that cannot be listed, since its
path is too long, is a fault like a file that is refused, and the first fault of both kinds is reported
(`FeatureDirectory.scan_eq_error_iff`).
-/

set_option autoImplicit false

namespace FeatureAssembly

/-! ## Extensions -/

namespace Path

open Text

variable {name ext : String}

/-- What is behind the last dot is the extension, unless nothing stands before this dot. -/
theorem extension?_of_segments {front : List String} {last : String} (cut : segments '.' name = front ++ [last]) :
    extension? name = if front = [] ∨ front = [""] then none else some last := by
  have behind : (segments '.' name).reverse = last :: front.reverse := by
    rw [cut, List.reverse_append]
    rfl
  unfold extension?
  rw [behind]
  split
  · next empty => cases empty
  · next alone =>
    have nothing : front = [] := List.reverse_eq_iff.1 (List.cons.inj alone).2
    rw [if_pos (.inl nothing)]
  · next leading =>
    have blank : front = [""] := List.reverse_eq_iff.1 (List.cons.inj leading).2
    rw [if_pos (.inr blank)]
  · next not_alone not_leading same =>
    cases same
    rw [if_neg]
    rintro (rfl | rfl)
    · exact not_alone rfl
    · exact not_leading rfl

/-- **The extension of a name** is what stands behind its last dot, if something else stands before. -/
theorem extension?_eq_some_iff (flat : hasChar '.' ext = false) :
    extension? name = some ext ↔ ∃ stem, stem ≠ "" ∧ name = stem ++ "." ++ ext := by
  constructor
  · intro h
    obtain ⟨front, last, cut⟩ := (List.eq_nil_or_concat (segments '.' name)).resolve_left (segments_ne_nil _ _)
    rw [List.concat_eq_append] at cut
    rw [extension?_of_segments cut] at h
    split at h
    · cases h
    · next filled =>
      obtain rfl : last = ext := Option.some.inj h
      rw [not_or] at filled
      have flats : ∀ piece ∈ front, hasChar '.' piece = false := fun piece hp =>
        hasChar_of_mem_segments (s := name) (by rw [cut]; exact List.mem_append_left _ hp)
      refine ⟨joinWith "." front, fun empty => filled.2 ?_, ?_⟩
      · have pieces := segments_joinWith flats filled.1
        rw [← pieces]
        exact congrArg (segments '.') empty
      · have joined := joinWith_segments '.' name
        rw [cut] at joined
        exact joined.symm.trans (joinWith_append "." filled.1 (List.cons_ne_nil last []))
  · rintro ⟨stem, ne, rfl⟩
    have cut : segments '.' (stem ++ "." ++ ext) = segments '.' stem ++ [ext] := by
      rw [← segments_of_flat flat]
      exact segments_append '.' stem ext
    rw [extension?_of_segments cut, if_neg]
    rintro (none_left | blank)
    · exact segments_ne_nil _ _ none_left
    · have joined := joinWith_segments '.' stem
      rw [blank] at joined
      exact ne joined.symm

end Path

/-! ## Walks that gather -/

section Gather

variable {τ ε κ α : Type} [Ord κ] [Std.TransOrd κ] {step : SortedMap κ α → τ → Except ε (SortedMap κ α)}
  {gives : τ → Except ε (Option (κ × α))}
  (stepwise : ∀ m x, step m x = (gives x).map fun o => m.insertAll o.toList)
include stepwise

/-- **A walk that gathers what its steps give** stops at the first of them that gives an error. -/
theorem foldlM_gather_eq_error_iff {e : ε} {l : List τ} {m : SortedMap κ α} : l.foldlM step m = .error e ↔
    ∃ x, l.find? (fun x => !(gives x).isOk) = some x ∧ gives x = .error e := by
  induction l generalizing m with
  | nil => exact ⟨nofun, nofun⟩
  | cons x rest ih =>
    rw [List.foldlM_cons, stepwise]
    cases given : gives x with
    | error e' =>
      rw [List.find?_cons_of_pos (by rw [given]; rfl)]
      simp only [Option.some.injEq, exists_eq_left', given, Except.map, bind, Except.bind, Except.error.injEq]
    | ok o =>
      rw [List.find?_cons_of_neg (by simp [given, Except.isOk, Except.toBool])]
      exact ih

/-- Where no step gives an error, a walk gathers all that they give. -/
theorem foldlM_gather_eq_ok_iff {l : List τ} {m taken : SortedMap κ α} : l.foldlM step m = .ok taken ↔
    (∀ x ∈ l, ∃ o, gives x = .ok o) ∧ taken = m.insertAll (l.filterMap fun x => (gives x).toOption.join) := by
  induction l generalizing m with
  | nil => simp [pure, Except.pure, SortedMap.insertAll, eq_comm]
  | cons x rest ih =>
    rw [List.foldlM_cons, stepwise, List.forall_mem_cons, List.filterMap_cons]
    cases given : gives x with
    | error e => simp [bind, Except.bind, Except.map]
    | ok o =>
      simp only [Except.ok.injEq, exists_eq', true_and, Except.toOption, Option.join_some]
      refine ih.trans (and_congr_right fun _ => ?_)
      cases o <;> rfl

end Gather

namespace FeatureDirectory

variable {fs : FileSystem} {dir start path : String} {scope : Scope} {names names' : List String}
  {content : ByteArray} {top n : FileNode} {e : SourceError} {f : Feature}

/-! ## Feature files -/

/-- **A feature file below a directory** has a name that ends with the extension of feature files, and
begins with something else. -/
structure FeatureFile (top : FileNode) (names : List String) (content : ByteArray) : Prop where
  lies : top.at? names = some (.file content)
  named : ∃ above stem, stem ≠ "" ∧ names = above ++ [stem ++ "." ++ extension]

theorem isFeatureFile_iff :
    isFeatureFile names = true ↔ ∃ above stem, stem ≠ "" ∧ names = above ++ [stem ++ "." ++ extension] := by
  have flat : Text.hasChar '.' extension = false := rfl
  unfold isFeatureFile
  cases last : names.getLast? with
  | none =>
    cases List.getLast?_eq_none_iff.1 last
    simp
  | some name =>
    obtain ⟨front, rfl⟩ := List.getLast?_eq_some_iff.1 last
    simp only [beq_iff_eq, Path.extension?_eq_some_iff flat]
    constructor
    · rintro ⟨stem, ne, rfl⟩
      exact ⟨front, stem, ne, rfl⟩
    · rintro ⟨above, stem, ne, same⟩
      exact ⟨stem, ne, List.singleton_inj.1 (List.append_inj_right' same rfl)⟩

namespace FeatureFile

theorem ne (file : FeatureFile top names content) : names ≠ [] := by
  obtain ⟨above, stem, -, rfl⟩ := file.named
  simp

theorem plain (file : FeatureFile top names content) (plain : ∀ name ∈ top.entryNames, Path.Plain name) :
    ∀ name ∈ names, Path.Plain name :=
  fun name h => plain name (FileNode.mem_entryNames_of_at? file.lies name h)

end FeatureFile

/-- **A file is read as a feature**: it can be opened, and its text is one of a feature. -/
def Reads (path : String) (content : ByteArray) (f : Feature) : Prop :=
  FileSystem.checkPath path = .ok () ∧
    ∃ text, FileSystem.textOf content = .ok text ∧ Feature.codec.decode text = .ok f

/-- **A file is refused**: it cannot be opened, or holds no text, or a text of no feature. -/
inductive Refuses (path : String) (content : ByteArray) : SourceError → Prop where
  | closed {reason : FileError} (shut : FileSystem.checkPath path = .error reason) :
      Refuses path content (.read path reason)
  | binary {reason : FileError} (opened : FileSystem.checkPath path = .ok ())
      (textless : FileSystem.textOf content = .error reason) : Refuses path content (.read path reason)
  | malformed {text : String} {fault : Json.Fault} (opened : FileSystem.checkPath path = .ok ())
      (textual : FileSystem.textOf content = .ok text) (malformed : Feature.codec.decode text = .error fault) :
      Refuses path content (.parse path fault)

theorem readFeature_of_text {text : String} (opened : FileSystem.checkPath path = .ok ())
    (textual : FileSystem.textOf content = .ok text) :
    readFeature path content = (Feature.codec.decode text).mapError (.parse path) := by
  rw [readFeature, opened, textual]
  rfl

theorem readFeature_eq_ok_iff : readFeature path content = .ok f ↔ Reads path content f := by
  constructor
  · intro h
    cases opened : FileSystem.checkPath path with
    | error reason =>
      rw [readFeature, opened] at h
      cases h
    | ok _ =>
      cases textual : FileSystem.textOf content with
      | error reason =>
        rw [readFeature, opened, textual] at h
        cases h
      | ok text =>
        rw [readFeature_of_text opened textual] at h
        exact ⟨opened, text, textual, ok_of_mapError h⟩
  · rintro ⟨opened, text, textual, read⟩
    rw [readFeature_of_text opened textual, read]
    rfl

theorem readFeature_eq_error_iff : readFeature path content = .error e ↔ Refuses path content e := by
  constructor
  · intro h
    cases opened : FileSystem.checkPath path with
    | error reason =>
      rw [readFeature, opened] at h
      cases h
      exact .closed opened
    | ok _ =>
      cases textual : FileSystem.textOf content with
      | error reason =>
        rw [readFeature, opened, textual] at h
        cases h
        exact .binary opened textual
      | ok text =>
        rw [readFeature_of_text opened textual] at h
        cases read : Feature.codec.decode text with
        | error fault =>
          rw [read] at h
          cases h
          exact .malformed opened textual read
        | ok f =>
          rw [read] at h
          cases h
  · intro refused
    cases refused with
    | closed shut => rw [readFeature, shut]; rfl
    | binary opened textless => rw [readFeature, opened, textless]; rfl
    | malformed opened textual malformed => rw [readFeature_of_text opened textual, malformed]; rfl

theorem exists_reads_iff : (∃ f, Reads path content f) ↔ ∀ e, ¬ Refuses path content e := by
  simp only [← readFeature_eq_ok_iff, ← readFeature_eq_error_iff]
  cases readFeature path content <;> simp

/-! ## Visits -/

/-- What the visit of a node gives: a feature with its location, nothing, or an error. -/
def gives (start : String) (scope : Scope) : List String × FileNode → Except SourceError (Option (String × Feature))
  | (names, .directory _) =>
    match FileSystem.checkPath (names.foldl Path.join start) with
    | .ok () => .ok none
    | .error e => .error (.walk start (walkMessage (names.foldl Path.join start) e))
  | (names, .file content) =>
    if isFeatureFile names then
      (readFeature (names.foldl Path.join start) content).map fun f => some (location scope names, f)
    else .ok none

theorem visit_visitOf (m : FeatureMap) (x : List String × FileNode) :
    visit start scope m (FileNode.visitOf start x) = (gives start scope x).map fun o => m.insertAll o.toList := by
  obtain ⟨names, n⟩ := x
  cases n with
  | directory entries =>
    simp only [FileNode.visitOf, visit, gives]
    cases FileSystem.checkPath (names.foldl Path.join start) <;> rfl
  | file content =>
    simp only [FileNode.visitOf, visit, gives]
    split
    · cases readFeature (names.foldl Path.join start) content <;> rfl
    · rfl

/-- **What is at fault below a directory**: a directory that cannot be listed, or a feature file that is
refused. -/
inductive Fault (start : String) (top : FileNode) : List String → SourceError → Prop where
  | directory {names : List String} {entries : List (String × FileNode)} {reason : FileError}
      (lies : top.at? names = some (.directory entries))
      (shut : FileSystem.checkPath (names.foldl Path.join start) = .error reason) :
      Fault start top names (.walk start (walkMessage (names.foldl Path.join start) reason))
  | file {names : List String} {content : ByteArray} {e : SourceError} (file : FeatureFile top names content)
      (refused : Refuses (names.foldl Path.join start) content e) : Fault start top names e

theorem Fault.lies (fault : Fault start top names e) : ∃ n, top.at? names = some n := by
  cases fault with
  | directory lies => exact ⟨_, lies⟩
  | file file => exact ⟨_, file.lies⟩

/-- A visit fails exactly at what is at fault. -/
theorem gives_eq_error_iff (lies : top.at? names = some n) :
    gives start scope (names, n) = .error e ↔ Fault start top names e := by
  constructor
  · intro h
    cases n with
    | directory entries =>
      simp only [gives] at h
      split at h
      · cases h
      · next shut =>
        cases h
        exact .directory lies shut
    | file content =>
      simp only [gives] at h
      split at h
      · next feature =>
        cases read : readFeature (names.foldl Path.join start) content with
        | error e' =>
          rw [read] at h
          cases h
          exact .file ⟨lies, isFeatureFile_iff.1 feature⟩ (readFeature_eq_error_iff.1 read)
        | ok f =>
          rw [read] at h
          cases h
      · cases h
  · intro fault
    cases fault with
    | directory there shut =>
      cases lies.symm.trans there
      simp only [gives, shut]
    | file file refused =>
      cases lies.symm.trans file.lies
      simp only [gives, isFeatureFile_iff.2 file.named, if_true, readFeature_eq_error_iff.2 refused]
      rfl

theorem gives_eq_feature_iff {key : String} :
    gives start scope (names, n) = .ok (some (key, f)) ↔
      ∃ content, n = .file content ∧ isFeatureFile names = true ∧ key = location scope names ∧
        Reads (names.foldl Path.join start) content f := by
  cases n with
  | directory entries =>
    simp only [gives, reduceCtorEq, false_and, exists_false, iff_false]
    split <;> nofun
  | file content =>
    simp only [gives, FileNode.file.injEq, exists_eq_left', ← readFeature_eq_ok_iff]
    split
    · next feature =>
      cases readFeature (names.foldl Path.join start) content with
      | error e => exact ⟨nofun, nofun⟩
      | ok g => simp [Except.map, feature, eq_comm]
    · next other => simp [other]

/-- **The first offence** of some kind: it is of the kind, and no other one is met before it. -/
structure First (offends : List String → SourceError → Prop) (names : List String) (e : SourceError) : Prop where
  offence : offends names e
  first : ∀ names' e', offends names' e' → names' = names ∨ WalkedBefore names names'

/-! ## The scan of a directory -/

/-- What a walk from some start gathers. -/
def scan (start : String) (scope : Scope) (top : FileNode) : Except SourceError FeatureMap :=
  (top.visits start []).foldlM (visit start scope) .empty

theorem features_of_find {entries : List (String × FileNode)}
    (found : fs.find (Path.join dir scope.featuresDir) = .ok (.directory entries)) :
    features fs dir scope = scan (Path.join dir scope.featuresDir) scope (.directory entries) := by
  unfold features
  simp only [found]
  rfl

/-- Where there is no feature directory, there are no features. -/
theorem features_of_missing (missing : fs.isDirectory (Path.join dir scope.featuresDir) = false) :
    features fs dir scope = .ok .empty := by
  unfold FileSystem.isDirectory at missing
  unfold features
  cases found : fs.find (Path.join dir scope.featuresDir) with
  | error reason => simp only [found]
  | ok n =>
    cases n with
    | file content => simp only [found]
    | directory entries => simp [found] at missing

theorem scan_eq (start : String) (scope : Scope) (top : FileNode) : scan start scope top =
    (top.nodes []).foldlM (fun m x => visit start scope m (FileNode.visitOf start x)) .empty := by
  have visits : top.visits start [] = (top.nodes []).map (FileNode.visitOf start) := FileNode.visits_eq start [] top
  rw [scan, visits, List.foldlM_map]

theorem mem_nodes_top (ordered : top.Ordered) : (names, n) ∈ top.nodes [] ↔ top.at? names = some n := by
  simp [FileNode.mem_nodes_iff ordered]

/-- **A scan fails with the first fault.** -/
theorem scan_eq_error_iff (ordered : top.Ordered) :
    scan start scope top = .error e ↔ ∃ names, First (Fault start top) names e := by
  have asymm : ∀ x y : List String × FileNode, WalkedBefore x.1 y.1 → ¬ WalkedBefore y.1 x.1 :=
    fun _ _ => WalkedBefore.asymm
  have failed : ∀ x, (!(gives start scope x).isOk) = true ↔ ∃ e, gives start scope x = .error e := fun x => by
    cases gives start scope x <;> simp [Except.isOk, Except.toBool]
  rw [scan_eq, foldlM_gather_eq_error_iff visit_visitOf]
  simp only [SortedMap.find?_eq_some_iff_of_pairwise asymm (FileNode.pairwise_nodes ordered []), failed,
    Prod.exists, Prod.forall, mem_nodes_top ordered]
  constructor
  · rintro ⟨names, n, ⟨lies, -, first⟩, fault⟩
    refine ⟨names, (gives_eq_error_iff lies).1 fault, fun names' e' fault' => ?_⟩
    obtain ⟨n', lies'⟩ := fault'.lies
    exact (first names' n' lies' ⟨e', (gives_eq_error_iff lies').2 fault'⟩).imp_left (congrArg Prod.fst)
  · rintro ⟨names, fault, first⟩
    obtain ⟨n, lies⟩ := fault.lies
    have fault : gives start scope (names, n) = .error e := (gives_eq_error_iff lies).2 fault
    refine ⟨names, n, ⟨lies, ⟨e, fault⟩, fun names' n' lies' failed' => ?_⟩, fault⟩
    obtain ⟨e', fault'⟩ := failed'
    refine (first names' e' ((gives_eq_error_iff lies').1 fault')).imp_left ?_
    rintro rfl
    exact congrArg (names', ·) (Option.some.inj (lies'.symm.trans lies))

/-- **A scan succeeds if nothing is at fault.** -/
theorem scan_eq_ok_iff (ordered : top.Ordered) :
    (∃ taken, scan start scope top = .ok taken) ↔ ∀ names e, ¬ Fault start top names e := by
  simp only [scan_eq, foldlM_gather_eq_ok_iff visit_visitOf, exists_and_left, exists_eq, and_true, Prod.forall,
    mem_nodes_top ordered]
  constructor
  · intro all names e fault
    obtain ⟨n, lies⟩ := fault.lies
    obtain ⟨o, given⟩ := all names n lies
    rw [(gives_eq_error_iff lies).2 fault] at given
    cases given
  · intro faultless names n lies
    cases given : gives start scope (names, n) with
    | error e => exact absurd ((gives_eq_error_iff lies).1 given) (faultless names e)
    | ok o => exact ⟨o, rfl⟩

/-! ## Locations of files -/

/-- **Different files have different locations.** -/
theorem location_injective (plain : ∀ name ∈ names, Path.Plain name) (ne : names ≠ [])
    (plain' : ∀ name ∈ names', Path.Plain name) (ne' : names' ≠ [])
    (same : location scope names = location scope names') : names = names' := by
  rw [location_eq ne, location_eq ne', String.append_right_inj, String.append_right_inj] at same
  have cut := congrArg (Text.segments '/') same
  exact (Text.segments_joinWith (fun name h => (plain name h).flat) ne).symm.trans
    (cut.trans (Text.segments_joinWith (fun name h => (plain' name h).flat) ne'))

/-- **A location is the path of a file from the module directory.** -/
theorem join_location (plain : ∀ name ∈ names, Path.Plain name) (dir : String) (scope : Scope) :
    names.foldl Path.join (Path.join dir scope.featuresDir) = Path.join dir (location scope names) := by
  have above : ∀ name ∈ Text.segments '/' scope.featuresDir, Path.Plain name := by
    cases scope <;> decide
  have whole : Text.joinWith "/" (Text.segments '/' scope.featuresDir ++ names) = location scope names := by
    cases names with
    | nil => cases scope <;> rfl
    | cons name rest =>
      rw [Text.joinWith_append "/" (Text.segments_ne_nil _ _) (List.cons_ne_nil name rest)]
      exact congrArg (· ++ "/" ++ _) (Text.joinWith_segments '/' scope.featuresDir)
  rw [Path.join_eq_foldl above, ← List.foldl_append, ← whole, Path.join_joinWith]
  · exact fun name h => (List.mem_append.1 h).elim (above name) (plain name)
  · cases scope <;> exact List.cons_ne_nil _ _

/-! ## What is taken -/

/-- What a walk takes from a node: a feature under its location, or nothing. -/
def takes (start : String) (scope : Scope) (x : List String × FileNode) : Option (String × Feature) :=
  (gives start scope x).toOption.join

theorem takes_eq_some_iff {key : String} : takes start scope (names, n) = some (key, f) ↔
    ∃ content, n = .file content ∧ isFeatureFile names = true ∧ key = location scope names ∧
      Reads (names.foldl Path.join start) content f := by
  rw [← gives_eq_feature_iff, takes]
  cases gives start scope (names, n) <;> simp [Except.toOption]

/-- **No two features are taken under one location.** -/
theorem nodup_takes (ordered : top.Ordered) (plain : ∀ name ∈ top.entryNames, Path.Plain name) :
    (((top.nodes []).filterMap (takes start scope)).map Prod.fst).Nodup := by
  rw [List.Nodup, List.pairwise_map, List.pairwise_filterMap]
  refine (FileNode.pairwise_nodes ordered []).imp_of_mem fun {x y} hx hy before => ?_
  obtain ⟨names, n⟩ := x
  obtain ⟨names', n'⟩ := y
  rintro ⟨key, f⟩ hf ⟨key', f'⟩ hf' same
  obtain ⟨content, rfl, feature, rfl, -⟩ := takes_eq_some_iff.1 hf
  obtain ⟨content', rfl, feature', rfl, -⟩ := takes_eq_some_iff.1 hf'
  have file : FeatureFile top names content := ⟨(mem_nodes_top ordered).1 hx, isFeatureFile_iff.1 feature⟩
  have file' : FeatureFile top names' content' := ⟨(mem_nodes_top ordered).1 hy, isFeatureFile_iff.1 feature'⟩
  cases location_injective (file.plain plain) file.ne (file'.plain plain) file'.ne same
  exact before.asymm before

/-- **What a scan takes** are the features in feature files, each under its location. -/
theorem get?_of_scan (ordered : top.Ordered) (plain : ∀ name ∈ top.entryNames, Path.Plain name)
    {taken : FeatureMap} (h : scan start scope top = .ok taken) {key : String} :
    taken.get? key = some f ↔ ∃ names content, FeatureFile top names content ∧ key = location scope names ∧
      Reads (names.foldl Path.join start) content f := by
  rw [scan_eq, foldlM_gather_eq_ok_iff visit_visitOf] at h
  have gathered : taken = .ofList ((top.nodes []).filterMap (takes start scope)) := h.2
  rw [gathered, SortedMap.get?_ofList_eq_some_iff (nodup_takes ordered plain), List.mem_filterMap]
  constructor
  · rintro ⟨⟨names, n⟩, there, took⟩
    obtain ⟨content, rfl, feature, here, read⟩ := takes_eq_some_iff.1 took
    exact ⟨names, content, ⟨(mem_nodes_top ordered).1 there, isFeatureFile_iff.1 feature⟩, here, read⟩
  · rintro ⟨names, content, file, here, read⟩
    exact ⟨(names, .file content), (mem_nodes_top ordered).2 file.lies,
      takes_eq_some_iff.2 ⟨content, rfl, isFeatureFile_iff.2 file.named, here, read⟩⟩

/-! ## Scans of directories that can be listed -/

/-- **A walk lists all directories** below its start: no path of them is too long. -/
def Listed (start : String) (top : FileNode) : Prop :=
  ∀ names entries, top.at? names = some (.directory entries) →
    FileSystem.checkPath (names.foldl Path.join start) = .ok ()

/-- A feature file is refused. -/
def Refused (dir : String) (scope : Scope) (top : FileNode) (names : List String) (e : SourceError) : Prop :=
  ∃ content, FeatureFile top names content ∧ Refuses (Path.join dir (location scope names)) content e

/-- Where all directories are listed, only feature files are at fault. -/
theorem fault_iff (plain : ∀ name ∈ top.entryNames, Path.Plain name)
    (listed : Listed (Path.join dir scope.featuresDir) top) :
    Fault (Path.join dir scope.featuresDir) top names e ↔ Refused dir scope top names e := by
  constructor
  · intro fault
    cases fault with
    | directory lies shut =>
      rw [listed _ _ lies] at shut
      cases shut
    | file file refused => exact ⟨_, file, join_location (file.plain plain) dir scope ▸ refused⟩
  · rintro ⟨content, file, refused⟩
    exact .file file (join_location (file.plain plain) dir scope ▸ refused)

/-- **A scan takes exactly the features in feature files**, each under the path of its file from the module
directory. It succeeds if all of them can be read, and otherwise fails with the first one that is refused. -/
theorem scan_exact (fs : FileSystem) (named : fs.Named) (ordered : fs.root.Ordered) (dir : String) (scope : Scope) :
    (fs.isDirectory (Path.join dir scope.featuresDir) = false → features fs dir scope = .ok .empty) ∧
    ∀ entries, fs.find (Path.join dir scope.featuresDir) = .ok (.directory entries) →
      (∀ taken, features fs dir scope = .ok taken → ∀ key f, taken.get? key = some f ↔
        ∃ names content, FeatureFile (.directory entries) names content ∧ key = location scope names ∧
          Reads (Path.join dir key) content f) ∧
      (∀ names names' content content', FeatureFile (.directory entries) names content →
        FeatureFile (.directory entries) names' content' → location scope names = location scope names' →
          names = names') ∧
      (Listed (Path.join dir scope.featuresDir) (.directory entries) →
        ((∃ taken, features fs dir scope = .ok taken) ↔
          ∀ names content, FeatureFile (.directory entries) names content →
            ∃ f, Reads (Path.join dir (location scope names)) content f) ∧
        ∀ e, features fs dir scope = .error e ↔
          ∃ names, First (Refused dir scope (.directory entries)) names e) := by
  refine ⟨features_of_missing, fun entries found => ?_⟩
  have plain : ∀ name ∈ (FileNode.directory entries).entryNames, Path.Plain name :=
    fun name h => named name (entryNames_of_find found name h)
  have inner : (FileNode.directory entries).Ordered := by
    obtain ⟨names, there⟩ := FileSystem.exists_at?_of_find found
    exact ordered.of_at? there
  rw [features_of_find found]
  refine ⟨fun taken h key f => ?taken, fun names names' content content' file file' => ?apart,
    fun listed => ?listed⟩
  case taken =>
    rw [get?_of_scan inner plain h]
    refine exists_congr fun names => exists_congr fun content => and_congr_right fun file => ?_
    rw [join_location (file.plain plain)]
    exact and_congr_right fun here => by rw [here]
  case apart => exact location_injective (file.plain plain) file.ne (file'.plain plain) file'.ne
  case listed =>
    have fault : Fault (Path.join dir scope.featuresDir) (.directory entries) =
        Refused dir scope (.directory entries) :=
      funext fun names => funext fun e => propext (fault_iff plain listed)
    rw [scan_eq_ok_iff inner, fault]
    refine ⟨?_, fun e => by rw [scan_eq_error_iff inner, fault]⟩
    simp only [exists_reads_iff]
    exact ⟨fun none_refused names content file e refused => none_refused names e ⟨content, file, refused⟩,
      fun all names e refused => refused.elim fun content refused => all names content refused.1 e refused.2⟩

/-! A module with both scopes. Below the main features there is no text in `a/z.json` and in `a-b.json`, which
is met later, though its path is before that of the other. Below the test features, only `a.json` is a feature
file. -/

def mixedEntries : List (String × FileNode) :=
  [("a", .directory [("z.json", .file ⟨#[255]⟩)]), ("a-b.json", .file ⟨#[255]⟩), ("a.json", .file ⟨#[]⟩)]

def oddEntries : List (String × FileNode) :=
  [(".json", .file ⟨#[]⟩), ("a.json", .file "\x7b\"id\":\"g:app:feature:1\"\x7d".toUTF8),
    ("x.json", .directory [("b.JSON", .file ⟨#[]⟩)])]

def scannedFiles : FileSystem where
  root := .directory [("m", .directory [("src", .directory
    [("main", .directory [("features", .directory mixedEntries)]),
      ("test", .directory [("features", .directory oddEntries)])])])]
  workingDir := []

theorem scannedFiles_ordered : scannedFiles.root.Ordered := by
  simp only [scannedFiles, mixedEntries, oddEntries, FileNode.Ordered, FileNode.OrderedIn, and_true]
  decide

theorem listed_scannedFiles {entries : List (String × FileNode)} {names : List String}
    (lies : scannedFiles.root.at? names = some (.directory entries))
    (short : ∀ names ∈ ((FileNode.directory entries).nodes []).map Prod.fst,
      FileSystem.checkPath (names.foldl Path.join start) = .ok ()) :
    Listed start (.directory entries) :=
  fun names' _ below => short names'
    (List.mem_map_of_mem ((mem_nodes_top (scannedFiles_ordered.of_at? lies)).2 below))

/-- Of two files without a text the one that is met first is reported, where nothing is at fault all
feature files are read, and where there is no directory there are no features. -/
theorem mixed_refused :
    (∃ names, First (Refused "m" .main (.directory mixedEntries)) names
      (.read "m/src/main/features/a/z.json" .notText)) ∧
    ((∀ names content, FeatureFile (.directory oddEntries) names content →
        ∃ f, Reads (Path.join "m" (location .test names)) content f) ∧
      ∃ f names content, FeatureFile (.directory oddEntries) names content ∧
        "src/test/features/a.json" = location .test names ∧
        Reads (Path.join "m" "src/test/features/a.json") content f) ∧
    features scannedFiles "other" .main = .ok .empty := by
  have scans := scan_exact scannedFiles (by decide +kernel) scannedFiles_ordered
  have main : scannedFiles.root.at? ["m", "src", "main", "features"] = some (.directory mixedEntries) := rfl
  have test : scannedFiles.root.at? ["m", "src", "test", "features"] = some (.directory oddEntries) := rfl
  refine ⟨?mixed, ?odd, (scans "other" .main).1 (by decide +kernel)⟩
  case mixed =>
    have fails : features scannedFiles "m" .main = .error (.read "m/src/main/features/a/z.json" .notText) := by
      decide +kernel
    obtain ⟨-, -, listed⟩ := (scans "m" .main).2 mixedEntries rfl
    exact ((listed (listed_scannedFiles main (by decide +kernel))).2 _).1 fails
  case odd =>
    have found : ((features scannedFiles "m" .test).toOption.bind (·.get? "src/test/features/a.json")).isSome =
        true := by
      decide +kernel
    obtain ⟨f, found⟩ := Option.isSome_iff_exists.1 found
    obtain ⟨taken, succeeds, there⟩ := Option.bind_eq_some_iff.1 found
    have succeeds := Json.ok_of_toOption succeeds
    obtain ⟨taken_iff, -, listed⟩ := (scans "m" .test).2 oddEntries rfl
    exact ⟨(listed (listed_scannedFiles test (by decide +kernel))).1.1 ⟨taken, succeeds⟩,
      f, (taken_iff taken succeeds _ f).1 there⟩

end FeatureDirectory

end FeatureAssembly
