import FeatureAssembly.Proofs.Confluence
import FeatureAssembly.Proofs.ReadBack
import FeatureAssembly.Proofs.WrittenFiles

/-!
# The output of features

Where assembled features are written, and that none is lost there.

**The law** (`Manifest.features_written`): after a build over files that succeeds, each assembled feature
has a file of its own, with plain names below the directory of its module and scope. So writing them
changes no other files, puts none in the place of another, and, if it goes well, leaves each feature
in its file.

Two things can break this, and both are about aggregates, whose file names are made of classifiers that
nothing checks (`AggregatesApart`): a classifier with slashes can lead out of the directory, and an
aggregate can be put where a feature is that was read from a file of the same name
(`Manifest.not_always_written`).

What it does not establish: that writing goes well, or anything of files that were there before and
are no features of the build.
-/

set_option autoImplicit false

namespace FeatureAssembly

open Json

/-! ## Names of entries -/

namespace FileNode

mutual

/-- **The names of all entries** below a node. -/
def entryNames : FileNode → List String
  | .file _ => []
  | .directory entries => entryNamesIn entries

def entryNamesIn : List (String × FileNode) → List String
  | [] => []
  | (name, n) :: rest => name :: (entryNames n ++ entryNamesIn rest)

end

theorem mem_entryNamesIn {entries : List (String × FileNode)} {e : String × FileNode} (listed : e ∈ entries) :
    e.1 ∈ entryNamesIn entries ∧ ∀ name ∈ e.2.entryNames, name ∈ entryNamesIn entries := by
  induction entries with
  | nil => cases listed
  | cons d rest ih =>
    obtain ⟨name, n⟩ := d
    simp only [entryNamesIn, List.mem_cons, List.mem_append]
    rcases List.mem_cons.1 listed with rfl | listed
    · exact ⟨.inl rfl, fun _ h => .inr (.inl h)⟩
    · exact ⟨.inr (.inr (ih listed).1), fun name h => .inr (.inr ((ih listed).2 name h))⟩

/-- The names that lead to a node are names of entries. -/
theorem mem_entryNames_of_at? {names : List String} {n below : FileNode} (found : n.at? names = some below) :
    ∀ name ∈ names, name ∈ n.entryNames := by
  induction names generalizing n with
  | nil => exact nofun
  | cons name rest ih =>
    cases n with
    | file _ => cases found
    | directory entries =>
      obtain ⟨next, there, found⟩ := Option.bind_eq_some_iff.1 found
      obtain ⟨listed, below⟩ := mem_entryNamesIn (SortedMap.mem_of_lookupEntry there)
      exact List.forall_mem_cons.2 ⟨listed, fun other h => below other (ih found other h)⟩

theorem entryNames_of_at? {names : List String} {n below : FileNode} (found : n.at? names = some below) :
    ∀ name ∈ below.entryNames, name ∈ n.entryNames := by
  induction names generalizing n with
  | nil =>
    cases found
    exact fun _ h => h
  | cons name rest ih =>
    cases n with
    | file _ => cases found
    | directory entries =>
      obtain ⟨next, there, found⟩ := Option.bind_eq_some_iff.1 found
      exact fun other h => (mem_entryNamesIn (SortedMap.mem_of_lookupEntry there)).2 other (ih found other h)

mutual

/-- The names that a walk meets are names of entries. -/
theorem names_of_mem_visits {n : FileNode} {start path : String} {above names : List String}
    {content : ByteArray} (h : .file path names content ∈ n.visits start above) :
    ∃ below, names = above ++ below ∧ ∀ name ∈ below, name ∈ n.entryNames := by
  cases n with
  | file _ =>
    cases List.mem_singleton.1 h
    exact ⟨[], (List.append_nil above).symm, nofun⟩
  | directory entries =>
    rcases List.mem_cons.1 h with h | h
    · cases h
    · obtain ⟨below, -, split, listed⟩ := names_of_mem_visitsIn h
      exact ⟨below, split, listed⟩
termination_by structural n

theorem names_of_mem_visitsIn {entries : List (String × FileNode)} {start path : String}
    {above names : List String} {content : ByteArray}
    (h : .file path names content ∈ visitsIn start above entries) :
    ∃ below, below ≠ [] ∧ names = above ++ below ∧ ∀ name ∈ below, name ∈ entryNamesIn entries := by
  cases entries with
  | nil => cases h
  | cons e rest =>
    obtain ⟨name, n⟩ := e
    rcases List.mem_append.1 h with h | h
    · obtain ⟨below, split, listed⟩ := names_of_mem_visits h
      refine ⟨name :: below, nofun, by rw [split, List.append_assoc]; rfl, fun other hother => ?_⟩
      rcases List.mem_cons.1 hother with rfl | hother
      · exact List.mem_cons_self
      · exact List.mem_cons_of_mem name (List.mem_append_left _ (listed other hother))
    · obtain ⟨below, ne, split, listed⟩ := names_of_mem_visitsIn h
      exact ⟨below, ne, split, fun other hother =>
        List.mem_cons_of_mem name (List.mem_append_right _ (listed other hother))⟩
termination_by structural entries

end

end FileNode

/-- **All entries have plain names**, as those of every disk do. -/
def FileSystem.Named (fs : FileSystem) : Prop := ∀ name ∈ fs.root.entryNames, Path.Plain name

instance (fs : FileSystem) : Decidable fs.Named := inferInstanceAs (Decidable (∀ name ∈ _, _))

/-! ## Locations -/

namespace FeatureDirectory

variable {fs : FileSystem} {scope : Scope}

/-- **A location that features are read from**: names below the feature directory of a scope. -/
def Located (fs : FileSystem) (scope : Scope) (l : String) : Prop :=
  ∃ names, names ≠ [] ∧ (∀ name ∈ names, name ∈ fs.root.entryNames) ∧ l = location scope names

theorem entryNames_of_find {path : String} {n : FileNode} (found : fs.find path = .ok n) :
    ∀ name ∈ n.entryNames, name ∈ fs.root.entryNames := by
  obtain ⟨names, there⟩ := FileSystem.exists_at?_of_find found
  exact FileNode.entryNames_of_at? there

theorem located_of_features {dir : String} {taken : FeatureMap} (h : features fs dir scope = .ok taken) :
    ∀ l, taken.contains l = true → Located fs scope l := by
  unfold features at h
  dsimp only at h
  split at h
  · next entries found =>
    refine foldlM_keeps (P := fun m : FeatureMap => ∀ l, m.contains l = true → Located fs scope l)
      (fun v hv taken taken' located step => ?_) h nofun
    cases v with
    | directory path =>
      simp only [visit] at step
      split at step
      · cases step
        exact located
      · cases step
    | file path names content =>
      simp only [visit] at step
      split at step
      · obtain ⟨f, -, rfl⟩ := ok_of_map step
        intro l hl
        rw [SortedMap.contains, SortedMap.get?_insert_eq] at hl
        split at hl
        · next here =>
          rcases List.mem_cons.1 hv with start | hv
          · cases start
          obtain ⟨below, ne, split, listed⟩ := FileNode.names_of_mem_visitsIn hv
          rw [List.nil_append] at split
          subst split
          exact ⟨names, ne, fun name hname => entryNames_of_find found name (listed name hname), here⟩
        · exact located l hl
      · cases step
        exact located
  · cases h
    exact nofun

end FeatureDirectory

/-! ## Files of features -/

/-- The names of the file of an aggregate, below the directory of its scope. -/
def aggregateNames (classifier : String) : List String :=
  Text.segments '/' s!"aggregate-{classifier}.{FeatureDirectory.extension}"

/-- The names of the directory for a scope of a module. -/
def scopeNames (m : Module) (scope : Scope) : List String := [m.group, m.name, scope.word]

variable {out : String} {m : Module} {scope : Scope} {names : List String}

theorem featurePath_aggregateKey {classifier : String}
    (plain : ∀ name ∈ aggregateNames classifier, Path.Plain name) :
    featurePath out m scope (aggregateKey classifier) =
      (scopeNames m scope ++ aggregateNames classifier).foldl Path.join out := by
  unfold featurePath
  rw [aggregateKey, Text.stripLeading?_append, List.foldl_append]
  exact Path.join_eq_foldl plain _

theorem FeatureDirectory.location_eq (ne : names ≠ []) :
    location scope names = scope.featuresDir ++ ("/" ++ Text.joinWith "/" names) := by
  obtain ⟨name, rest, rfl⟩ := List.exists_cons_of_ne_nil ne
  exact String.append_assoc ..

/-- No file is at the key of an aggregate. -/
theorem FeatureDirectory.stripLeading?_location (ne : names ≠ []) :
    Text.stripLeading? aggregateMark (location scope names) = none := by
  rw [location_eq ne]
  unfold Text.stripLeading?
  rw [String.toList_append]
  cases scope <;> rfl

theorem featurePath_location (plain : ∀ name ∈ names, Path.Plain name) (ne : names ≠ []) :
    featurePath out m scope (FeatureDirectory.location scope names) =
      (scopeNames m scope ++ names).foldl Path.join out := by
  let below := Text.joinWith "/" names
  have joined : FeatureDirectory.location scope names = scope.featuresDir ++ ("/" ++ below) :=
    FeatureDirectory.location_eq ne
  have no_aggregate : Text.stripLeading? aggregateMark (FeatureDirectory.location scope names) = none :=
    FeatureDirectory.stripLeading?_location ne
  have relative : ("/" ++ below).toList.dropWhile (· == '/') = below.toList := by
    have flat := Path.not_isAbsolute_joinWith plain
    rw [← Bool.not_eq_true, Path.isAbsolute_iff] at flat
    have start : ("/" ++ below).toList = '/' :: below.toList := by simp [String.toList_append]
    rw [start, List.dropWhile_cons_of_pos (by rfl)]
    cases chars : below.toList with
    | nil => rfl
    | cons c rest =>
      have chars : (Text.joinWith "/" names).toList = c :: rest := chars
      have no_slash : c ≠ '/' := by
        rintro rfl
        exact flat (by rw [chars]; rfl)
      exact List.dropWhile_cons_of_neg (by simpa using no_slash)
  have cut : Text.segments '/' below = names :=
    Text.segments_joinWith (fun name h => (plain name h).flat) ne
  unfold featurePath
  rw [no_aggregate]
  dsimp only
  rw [joined, Text.stripLeading?_append]
  dsimp only
  rw [relative, String.ofList_toList, cut, List.foldl_append]
  rfl

namespace Build

variable {b : Build} {s : Session} {location location' : String}

/-- **The names of the file for a location**, below the directory of its scope: those of the file that
the feature was read from, below the feature directory, or those of an aggregate. -/
inductive Files (b : Build) (m : Module) (scope : Scope) : String → List String → Prop where
  | read {names : List String} {taken : FeatureMap} (ne : names ≠ []) (sourced : b.source m scope = .ok taken)
      (there : taken.contains (FeatureDirectory.location scope names) = true) :
      Files b m scope (FeatureDirectory.location scope names) names
  | aggregate {d : AggregateDecl} (declared : d ∈ b.config.aggregatesOf m.key) (inScope : d.scope = scope) :
      Files b m scope (aggregateKey d.classifier) (aggregateNames d.classifier)

/-- **Aggregates have files of their own**: the file of each declared aggregate has plain names, and no
feature is read from a file with these names, below the feature directory. -/
structure AggregatesApart (b : Build) : Prop where
  plain : ∀ m ∈ b.reactor.modules, ∀ d ∈ b.config.aggregatesOf m.key, ∀ name ∈ aggregateNames d.classifier,
    Path.Plain name
  apart : ∀ m ∈ b.reactor.modules, ∀ d ∈ b.config.aggregatesOf m.key, ∀ taken, b.source m d.scope = .ok taken →
    taken.contains (FeatureDirectory.location d.scope (aggregateNames d.classifier)) = false

theorem aggregateNames_ne (classifier : String) : aggregateNames classifier ≠ [] := Text.segments_ne_nil _ _

theorem aggregateNames_injective {classifier classifier' : String}
    (h : aggregateNames classifier = aggregateNames classifier') : classifier = classifier' := by
  have texts := congrArg (Text.joinWith (String.ofList ['/'])) h
  unfold aggregateNames at texts
  rw [Text.joinWith_segments, Text.joinWith_segments] at texts
  have chars := congrArg String.toList texts
  simp only [String.toList_append, List.append_cancel_right_eq, List.append_cancel_left_eq] at chars
  exact String.toList_injective chars

theorem Files.ne (h : b.Files m scope location names) : names ≠ [] := by
  cases h with
  | read ne => exact ne
  | aggregate => exact aggregateNames_ne _

theorem Files.path (h : b.Files m scope location names) (plain : ∀ name ∈ names, Path.Plain name)
    (out : String) : featurePath out m scope location = (scopeNames m scope ++ names).foldl Path.join out := by
  cases h with
  | read ne => exact featurePath_location plain ne
  | aggregate => exact featurePath_aggregateKey plain

/-- **Files of a scope have different names.** -/
theorem Files.unique (apart : b.AggregatesApart) (hm : m ∈ b.reactor.modules)
    (h : b.Files m scope location names) (h' : b.Files m scope location' names) : location = location' := by
  have never : ∀ d ∈ b.config.aggregatesOf m.key, ∀ taken, b.source m d.scope = .ok taken →
      taken.contains (FeatureDirectory.location d.scope (aggregateNames d.classifier)) ≠ true := by
    intro d declared taken sourced there
    rw [apart.apart m hm d declared taken sourced] at there
    cases there
  generalize same : names = names' at h'
  cases h with
  | read ne sourced there =>
    cases h' with
    | read => rw [same]
    | aggregate declared inScope =>
      subst inScope same
      exact absurd there (never _ declared _ sourced)
  | aggregate declared inScope =>
    cases h' with
    | read ne sourced there =>
      subst inScope same
      exact absurd there (never _ declared _ sourced)
    | aggregate declared' inScope' => rw [aggregateNames_injective same]

/-- **What is assembled was read or is an aggregate**, so its file has plain names. -/
theorem Steady.files {fs : FileSystem} {r : Reactor} (steady : b.Steady s) (named : fs.Named)
    (reads : b.source = FeatureDirectory.source fs (FeatureDirectory.readAll fs r)) (apart : b.AggregatesApart)
    (hm : m ∈ b.reactor.modules) {g : Feature} (hg : ((s.store m.key).assembled scope).get? location = some g) :
    ∃ names, b.Files m scope location names ∧ ∀ name ∈ names, Path.Plain name := by
  cases (steady.opened (steady.processed_of_assembled hg)).bears hg with
  | raw found =>
    obtain ⟨f₀, there, -⟩ := get?_prepared found
    obtain ⟨m', taken, known, sourced, listed⟩ := exists_source there
    obtain ⟨hm', same⟩ := mem_modules_of_get? known
    have here : m' = m := List.inj_on_of_nodup_map b.reactor.distinct hm' hm same
    subst here
    have contained : taken.contains location = true := SortedMap.contains_iff.2 ⟨f₀, listed⟩
    rw [reads] at sourced
    obtain ⟨dir, features⟩ := FeatureDirectory.exists_features sourced
    obtain ⟨names, ne, entries, rfl⟩ := FeatureDirectory.located_of_features features location contained
    rw [← reads] at sourced
    exact ⟨names, .read ne sourced contained, fun name hname => named name (entries name hname)⟩
  | aggregate _ declared inScope keyed =>
    subst keyed
    exact ⟨_, .aggregate declared inScope, apart.plain m hm _ declared⟩

end Build

/-! ## All outputs -/

/-- **An assembled feature of a module**, with its place. -/
structure Output where
  module : Module
  scope : Scope
  location : String
  feature : Feature

namespace Output

/-- The path of the file that it is written to. -/
def path (x : Output) (out : String) : String := featurePath out x.module x.scope x.location

/-- What is written to that file. -/
def text (x : Output) : String := Feature.codec.encodeIndented x.feature

end Output

namespace Session

variable {s : Session} {r : Reactor} {x : Output}

/-- **All that is written for a session**: the assembled features of the modules. -/
def outputs (s : Session) (r : Reactor) : List Output :=
  r.modules.flatMap fun m => Scope.all.flatMap fun scope =>
    ((s.store m.key).assembled scope).entries.map fun e => ⟨m, scope, e.1, e.2⟩

theorem mem_outputs : x ∈ s.outputs r ↔ x.module ∈ r.modules ∧
    ((s.store x.module.key).assembled x.scope).get? x.location = some x.feature := by
  simp only [outputs, List.mem_flatMap, List.mem_map, SortedMap.get?_eq_some_iff]
  constructor
  · rintro ⟨m, hm, scope, -, e, he, rfl⟩
    exact ⟨hm, he⟩
  · rintro ⟨hm, he⟩
    exact ⟨x.module, hm, x.scope, x.scope.mem_all, _, he, rfl⟩

/-- An assembled feature is listed once. -/
theorem nodup_outputs (s : Session) (r : Reactor) : (s.outputs r).Nodup := by
  apply List.nodup_flatMap.2
  refine ⟨fun m _ => List.nodup_flatMap.2 ⟨fun scope _ => ?_, ?_⟩, ?_⟩
  · refine List.pairwise_map.2 (((s.store m.key).assembled scope).ascend.imp fun before same => ?_)
    rw [Output.mk.injEq] at same
    rw [same.2.2.1, Std.ReflOrd.compare_self] at before
    cases before
  · have apart : Scope.all.Nodup := by decide
    refine apart.imp fun apart x hx hx' => ?_
    obtain ⟨_, -, rfl⟩ := List.mem_map.1 hx
    obtain ⟨_, -, same⟩ := List.mem_map.1 hx'
    rw [Output.mk.injEq] at same
    exact apart same.2.1.symm
  · refine (List.pairwise_map.1 r.distinct).imp fun apart x hx hx' => ?_
    obtain ⟨_, -, hx⟩ := List.mem_flatMap.1 hx
    obtain ⟨_, -, hx'⟩ := List.mem_flatMap.1 hx'
    obtain ⟨_, -, rfl⟩ := List.mem_map.1 hx
    obtain ⟨_, -, same⟩ := List.mem_map.1 hx'
    rw [Output.mk.injEq] at same
    exact apart (congrArg Module.key same.1.symm)

theorem flatMap_moduleFiles (s : Session) (r : Reactor) (out : String) :
    r.modules.flatMap (moduleFiles out s) = (s.outputs r).map fun x => (x.path out, x.text) := by
  simp only [outputs, List.map_flatMap, List.map_map]
  rfl

end Session

/-- **Different features have different names** that lead to their files. -/
theorem Output.eq_of_names {b : Build} (apart : b.AggregatesApart) {s : Session} {x y : Output}
    {names names' : List String} (hx : x ∈ s.outputs b.reactor) (hy : y ∈ s.outputs b.reactor)
    (files : b.Files x.module x.scope x.location names) (files' : b.Files y.module y.scope y.location names')
    (same : scopeNames x.module x.scope ++ names = scopeNames y.module y.scope ++ names') : x = y := by
  obtain ⟨m, scope, location, f⟩ := x
  obtain ⟨m', scope', location', f'⟩ := y
  obtain ⟨hm, hf⟩ := Session.mem_outputs.1 hx
  obtain ⟨hm', hf'⟩ := Session.mem_outputs.1 hy
  simp only [scopeNames, List.cons_append, List.nil_append, List.cons.injEq] at same
  obtain ⟨group, name, word, rfl⟩ := same
  have key : m.key = m'.key := congrArg₂ ModuleKey.of group name
  have here : m = m' := List.inj_on_of_nodup_map b.reactor.distinct hm hm' key
  have word : scope = scope' := by
    revert word
    cases scope <;> cases scope' <;> decide
  subst here word
  have there : location = location' := files.unique apart hm files'
  subst there
  have same_feature : f = f' := Option.some.inj (hf.symm.trans hf')
  rw [same_feature]

namespace Manifest

theorem plain_scopeNames {module : Module} (group : isPathComponent module.group = true)
    (name : isPathComponent module.name = true) (scope : Scope) :
    ∀ name ∈ scopeNames module scope, Path.Plain name := by
  have word : Path.Plain scope.word := by cases scope <;> decide
  simp only [scopeNames, List.forall_mem_cons, List.not_mem_nil, false_implies, implies_true, and_true]
  exact ⟨Path.plain_of_isPathComponent group, Path.plain_of_isPathComponent name, word⟩

/-- **No feature is lost on output**, after a build over files that succeeds, where groups and names of
modules are path components and aggregates have files of their own: each assembled feature has a file,
strictly below the directory of its module and scope, and no two have the same. So if they are written,
whatever was there, every file that is new or changed is the file of a feature, below the output
directory and with the text of that feature, and if writing goes well, every feature is in its file. -/
theorem features_written (m : Manifest) (r : Reactor) (env : Environment) (fs : FileSystem)
    (components : ∀ module ∈ r.modules,
      isPathComponent module.group = true ∧ isPathComponent module.name = true)
    (named : fs.Named) (apart : (m.build r env fs).AggregatesApart) {o : Outcome}
    (ho : (m.build r env fs).processAll (.start r) = some o) (hok : o.result = .ok ()) (out : String) :
    (∀ x ∈ o.session.outputs r, Path.Below ((scopeNames x.module x.scope).foldl Path.join out) (x.path out)) ∧
    (∀ x ∈ o.session.outputs r, ∀ y ∈ o.session.outputs r, x.path out = y.path out → x = y) ∧
    ∀ (disk disk' : FileSystem) (failure : Option Failure),
      writeFiles disk (r.modules.flatMap (moduleFiles out o.session)) = (disk', failure) →
      (∀ place content, disk'.look place = some (.file content) → disk.look place = some (.file content) ∨
        ∃ x ∈ o.session.outputs r, ∃ above names, disk'.place out = .ok above ∧ names ≠ [] ∧
          place = above ++ (scopeNames x.module x.scope ++ names) ∧
          x.path out = (scopeNames x.module x.scope ++ names).foldl Path.join out ∧
          content = x.text.toUTF8) ∧
      (failure = none → ∀ x ∈ o.session.outputs r, disk'.find (x.path out) = .ok (.file x.text.toUTF8)) := by
  let b := m.build r env fs
  have steady : b.Steady o.session := Build.processAll_steady (m.regular_build r env fs) (b.steady_start r) ho hok
  have filed : ∀ x, x ∈ o.session.outputs r →
      ∃ names, b.Files x.module x.scope x.location names ∧ ∀ name ∈ names, Path.Plain name := by
    intro x hx
    obtain ⟨hm, there⟩ := Session.mem_outputs.1 hx
    exact steady.files named rfl apart hm there
  choose! names files plain using filed
  have plain_all : ∀ x ∈ o.session.outputs r, ∀ name ∈ scopeNames x.module x.scope ++ names x,
      Path.Plain name := by
    intro x hx name hname
    obtain ⟨group, name'⟩ := components x.module (Session.mem_outputs.1 hx).1
    rcases List.mem_append.1 hname with hname | hname
    · exact plain_scopeNames group name' x.scope name hname
    · exact plain x hx name hname
  have path : ∀ x ∈ o.session.outputs r,
      x.path out = (scopeNames x.module x.scope ++ names x).foldl Path.join out :=
    fun x hx => (files x hx).path (plain x hx) out
  have unique : ∀ x ∈ o.session.outputs r, ∀ y ∈ o.session.outputs r,
      scopeNames x.module x.scope ++ names x = scopeNames y.module y.scope ++ names y → x = y :=
    fun x hx y hy => Output.eq_of_names apart hx hy (files x hx) (files y hy)
  refine ⟨fun x hx => ?below, fun x hx y hy same => ?distinct, fun disk disk' failure h => ?written⟩
  case below => exact ⟨names x, (files x hx).ne, plain x hx, by rw [path x hx, List.foldl_append]⟩
  case distinct =>
    rw [path x hx, path y hy] at same
    exact unique x hx y hy (Path.foldl_join_injective (plain_all x hx) (plain_all y hy) same)
  case written =>
    have listed : r.modules.flatMap (moduleFiles out o.session) = (o.session.outputs r).map fun x =>
        ((scopeNames x.module x.scope ++ names x).foldl Path.join out, x.text) := by
      rw [Session.flatMap_moduleFiles]
      exact List.map_congr_left fun x hx => by rw [path x hx]
    rw [listed] at h
    obtain ⟨changed, found⟩ := each_written (o.session.nodup_outputs r)
      (fun x hx => ⟨by simp [(files x hx).ne], plain_all x hx⟩) unique h
    constructor
    · intro place content there
      rcases changed place content there with before | ⟨x, hx, above, led, lies, holds⟩
      · exact .inl before
      · exact .inr ⟨x, hx, above, names x, led, (files x hx).ne, lies, path x hx, holds⟩
    · intro done x hx
      rw [path x hx]
      exact found done x hx

theorem colon_apart : (colonManifest.build colonReactor default colonFiles).AggregatesApart where
  plain := by decide +kernel
  apart m hm d hd taken sourced := by
    have free : ∀ m ∈ colonReactor.modules, ∀ d ∈ colonManifest.config.aggregatesOf m.key,
        ((colonManifest.build colonReactor default colonFiles).source m d.scope).toOption.all (fun taken =>
          !taken.contains (FeatureDirectory.location d.scope (aggregateNames d.classifier))) = true := by
      decide +kernel
    have here := free m hm d hd
    rw [sourced] at here
    simpa [Except.toOption] using here

/-- The feature of `app` and its aggregate are written to an empty disk, each to its own file. -/
theorem colon_written : ∃ o disk,
    (colonManifest.build colonReactor default colonFiles).processAll (.start colonReactor) = some o ∧
      (o.session.outputs colonReactor).map (fun x => x.path "out") =
        ["out/g/app/main/aggregate-a:b.json", "out/g/app/main/a.json"] ∧
      writeFiles ⟨.emptyDirectory, []⟩ (colonReactor.modules.flatMap (moduleFiles "out" o.session)) =
        (disk, none) ∧
      ∀ x ∈ o.session.outputs colonReactor, disk.find (x.path "out") = .ok (.file x.text.toUTF8) := by
  have run : ((colonManifest.build colonReactor default colonFiles).processAll (.start colonReactor)).map
      (fun o => (o.result, (o.session.outputs colonReactor).map (fun x => x.path "out"),
        (writeFiles ⟨.emptyDirectory, []⟩
          (colonReactor.modules.flatMap (moduleFiles "out" o.session))).2.isNone)) =
      some (.ok (), ["out/g/app/main/aggregate-a:b.json", "out/g/app/main/a.json"], true) := by decide +kernel
  obtain ⟨o, ho, run⟩ := Option.map_eq_some_iff.1 run
  simp only [Prod.mk.injEq] at run
  obtain ⟨hok, paths, done⟩ := run
  have written := features_written colonManifest colonReactor default colonFiles (by decide) (by decide +kernel)
    colon_apart ho hok "out"
  let result := writeFiles ⟨.emptyDirectory, []⟩ (colonReactor.modules.flatMap (moduleFiles "out" o.session))
  have ends : result = (result.1, none) := Prod.ext rfl (Option.isNone_iff_eq_none.1 done)
  exact ⟨o, result.1, ho, paths, ends, (written.2.2 _ _ _ ends).2 rfl⟩

/-! A build over three files: a manifest, in which `app` has two aggregates, and the features of `app`, one
of them in a file with the name of an aggregate. The classifier of the other aggregate leads up. -/

def clashText : String :=
  "\x7b\"modules\":[\x7b\"group\":\"g\",\"name\":\"app\",\"version\":\"1\"\x7d]," ++
    "\"config\":\x7b\"aggregates\":\x7b\"g:app\":[" ++
      "\x7b\"classifier\":\"all\",\"includes\":[\"*\"]\x7d," ++
      "\x7b\"classifier\":\"x/../../../../../evil\",\"includes\":[\"*\"]\x7d]\x7d\x7d\x7d"

def clashFiles : FileSystem where
  root := .directory
    [("app", .directory [("src", .directory [("main", .directory [("features", .directory
      [("a.json", .file "\x7b\"id\":\"g:app:feature:1\"\x7d".toUTF8),
        ("aggregate-all.json", .file "\x7b\"id\":\"g:app:feature:extra:1\"\x7d".toUTF8)])])])]),
    ("fab.json", .file clashText.toUTF8)]
  workingDir := []

def clashManifest : Manifest where
  repository := none
  config := { AssemblyConfig.default with
    aggregates := .ofList [(⟨"g:app"⟩,
      [.of "all" [AggregateDecl.star], .of "x/../../../../../evil" [AggregateDecl.star]])] }
  modules := [.of "g" "app" "1"]

def clashReactor : Reactor := ⟨clashManifest.modules, by decide, by decide⟩

/-- **A manifest was loaded and built with success**, and its modules and the files have plain names. -/
structure Built (fs : FileSystem) (path : String) (m : Manifest) (r : Reactor) (env : Environment)
    (o : Outcome) : Prop where
  loads : load fs path = .ok m
  reactor : m.reactor = .ok r
  components : ∀ module ∈ r.modules, isPathComponent module.group = true ∧ isPathComponent module.name = true
  named : fs.Named
  run : (m.build r env fs).processAll (.start r) = some o
  succeeds : o.result = .ok ()

theorem clash_built : ∃ o, Built clashFiles "fab.json" clashManifest clashReactor default o ∧
    (o.session.outputs clashReactor).map (fun x => (x.location, x.path "out")) =
      [(aggregateKey "all", "out/g/app/main/aggregate-all.json"),
        (aggregateKey "x/../../../../../evil", "out/g/app/main/aggregate-x/../../../../../evil.json"),
        ("src/main/features/a.json", "out/g/app/main/a.json"),
        ("src/main/features/aggregate-all.json", "out/g/app/main/aggregate-all.json")] := by
  have run : ((clashManifest.build clashReactor default clashFiles).processAll (.start clashReactor)).map
      (fun o => (o.result, (o.session.outputs clashReactor).map (fun x => (x.location, x.path "out")))) =
      some (.ok (), [(aggregateKey "all", "out/g/app/main/aggregate-all.json"),
        (aggregateKey "x/../../../../../evil", "out/g/app/main/aggregate-x/../../../../../evil.json"),
        ("src/main/features/a.json", "out/g/app/main/a.json"),
        ("src/main/features/aggregate-all.json", "out/g/app/main/aggregate-all.json")]) := by decide +kernel
  obtain ⟨o, ho, run⟩ := Option.map_eq_some_iff.1 run
  simp only [Prod.mk.injEq] at run
  refine ⟨o, ⟨ok_of_toOption (by decide +kernel), rfl, by decide, by decide +kernel, ho, run.1⟩, run.2⟩

/-- **Features are written elsewhere, and over each other**, if aggregates are declared or put so. -/
theorem not_always_written :
    (¬ ∀ fs path m r env o, Built fs path m r env o → ∀ out, ∀ x ∈ o.session.outputs r,
      Path.Below ((scopeNames x.module x.scope).foldl Path.join out) (x.path out)) ∧
    ¬ ∀ fs path m r env o, Built fs path m r env o → ∀ out, ∀ x ∈ o.session.outputs r,
      ∀ y ∈ o.session.outputs r, x.path out = y.path out → x = y := by
  obtain ⟨o, built, listed⟩ := clash_built
  constructor
  · intro below
    have escape : (aggregateKey "x/../../../../../evil", "out/g/app/main/aggregate-x/../../../../../evil.json") ∈
        (o.session.outputs clashReactor).map fun x => (x.location, x.path "out") := by
      rw [listed]
      simp
    obtain ⟨x, hx, place⟩ := List.mem_map.1 escape
    obtain ⟨names, -, plain, path⟩ := below _ _ _ _ _ o built "out" x hx
    obtain ⟨group, name⟩ := built.components x.module (Session.mem_outputs.1 hx).1
    rw [Prod.mk.injEq] at place
    rw [place.2] at path
    -- all segments are plain names, but two dots are none
    have segments := congrArg Path.leading path
    rw [Path.leading_foldl_join plain, Path.leading_foldl_join (plain_scopeNames group name x.scope)] at segments
    have up : ".." ∈ Path.leading "out/g/app/main/aggregate-x/../../../../../evil.json" := by decide
    rw [segments, List.append_assoc] at up
    rcases List.mem_append.1 up with up | up
    · exact absurd up (by decide)
    · rcases List.mem_append.1 up with up | up
      · exact (plain_scopeNames group name x.scope _ up).not_above rfl
      · exact (plain _ up).not_above rfl
  · intro distinct
    have both : (aggregateKey "all", "out/g/app/main/aggregate-all.json") ∈
        (o.session.outputs clashReactor).map (fun x => (x.location, x.path "out")) ∧
        ("src/main/features/aggregate-all.json", "out/g/app/main/aggregate-all.json") ∈
        (o.session.outputs clashReactor).map fun x => (x.location, x.path "out") := by
      rw [listed]
      simp
    obtain ⟨x, hx, there⟩ := List.mem_map.1 both.1
    obtain ⟨y, hy, there'⟩ := List.mem_map.1 both.2
    rw [Prod.mk.injEq] at there there'
    have same : x = y := distinct _ _ _ _ _ o built "out" x hx y hy (there.2.trans there'.2.symm)
    have locations : aggregateKey "all" = "src/main/features/aggregate-all.json" := by
      rw [← there.1, ← there'.1, same]
    exact absurd locations (by decide)

end Manifest

end FeatureAssembly
