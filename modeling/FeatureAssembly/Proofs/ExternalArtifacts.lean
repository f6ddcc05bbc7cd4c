import FeatureAssembly.Proofs.Aggregates
import FeatureAssembly.Proofs.Changes
import FeatureAssembly.Proofs.FeatureOutput
import FeatureAssembly.Proofs.RawFeatures
import FeatureAssembly.Proofs.RepeatedArtifacts
import FeatureAssembly.Proofs.RepositoryPaths

/-!
# Bundles from outside

Which bundles are looked for in the repository after a build, and how that ends.

**The law** (`Manifest.outside_bundles_located`): after a build over files, the bundles to look for are
exactly those of assembled features that no module owns; a repository has a file for each of them or
does not, and looking for them cannot fail. What comes out are those without a file, in order.

Two invariants carry it. Aggregates may be left out because each bundle of one is in the same scope in
a feature that is none (`Build.Covers`). And a bundle that no module owns was read from a file, so that
it has a place in any repository: the build makes up none but the packaged unit of a module
(`Build.Bundled`).

What it does not establish: that a file holds the artifact that it has the name of.
-/

set_option autoImplicit false

namespace FeatureAssembly

/-! ## Bundles of merged features -/

namespace Feature

variable {lower upper parent : Feature} {parts : List Feature} {prototype : Prototype} {id named : Identity}

theorem mem_bundles_overlay :
    id ∈ (lower.overlay upper).bundles.ids ↔ id ∈ lower.bundles.ids ∨ id ∈ upper.bundles.ids :=
  Artifacts.mem_ids_insertAll

theorem mem_bundles_of_inherited (h : id ∈ (inherited named parent prototype).bundles.ids) :
    id ∈ parent.bundles.ids := by
  have fewer : (inherited named parent prototype).bundles.ids = parent.bundles.ids.diff prototype.removedBundles :=
    Artifacts.ids_foldl_erase _ _
  rw [fewer] at h
  exact List.diff_subset _ _ h

/-- **The bundles of features in layers** are those of the features. -/
theorem mem_bundles_layered : id ∈ (layered named parts).bundles.ids ↔ ∃ f ∈ parts, id ∈ f.bundles.ids := by
  rw [bundles_layered, Artifacts.ofList, Artifacts.mem_ids_insertAll, List.map_flatMap, List.mem_flatMap]
  exact or_iff_right List.not_mem_nil

end Feature

namespace Build

open Relation

variable {b : Build} {s s' : Session} {p q : Progress} {key : ModuleKey} {scope : Scope} {n : Site}
  {f g : Feature} {id : Identity}

/-! ## Where bundles come from -/

/-- **Bundles that a build can have**: those of raw features and of features from outside, and packaged
units of modules. -/
inductive Bundled (b : Build) (id : Identity) : Prop where
  | raw {n : Site} {f : Feature} (sourced : b.featureAt n = some f) (listed : id ∈ f.bundles.ids)
  | outside {id' : Identity} {f : Feature} (loads : b.loader id' = .ok f) (listed : id ∈ f.bundles.ids)
  | unit {m : Module} (known : m ∈ b.reactor.modules) (named : id = (b.packagedUnit m).id)

theorem bundled_of_withUnit {m : Module} (known : m ∈ b.reactor.modules)
    (hf : f ∈ (b.withUnit m (b.sourced key scope)).values) (listed : id ∈ f.bundles.ids) : b.Bundled id := by
  have sourced : ∀ f ∈ (b.sourced key scope).values, id ∈ f.bundles.ids → b.Bundled id := fun f hf listed => by
    obtain ⟨location, there⟩ := SortedMap.exists_get?_of_mem_values hf
    exact .raw (n := ⟨key, scope, location⟩) there listed
  obtain ⟨e, he, rfl⟩ := List.mem_map.1 hf
  rcases mem_withUnit he with he | ⟨-, -, f, hf, attached⟩
  · exact sourced e.2 (List.mem_map_of_mem he) listed
  · rw [attached] at listed
    rcases Artifacts.mem_ids_insertAll (l := [b.packagedUnit m]).1 listed with listed | named
    · exact sourced f hf listed
    · exact .unit known (List.mem_singleton.1 named)

theorem RawAt.bundled (h : b.RawAt n f) (listed : id ∈ f.bundles.ids) : b.Bundled id := by
  rcases h with found | found
  · exact .raw found listed
  · have there := SortedMap.mem_values_of_get? found
    unfold prepared at there
    split at there
    · next known _ => exact bundled_of_withUnit (mem_modules_of_get? known).1 there listed
    · obtain ⟨location, there⟩ := SortedMap.exists_get?_of_mem_values there
      exact .raw (n := ⟨n.module, n.scope, location⟩) there listed

mutual

/-- **The bundles of a whole feature** were given. -/
theorem Whole.bundled (hb : b.merger = .byPrototype) : ∀ {n : Site} {g : Feature}, b.Whole n g →
    id ∈ g.bundles.ids → b.Bundled id
  | _, _, .final raw _, listed => raw.bundled listed
  | _, _, .alone raw _ _, listed => by
    rcases Feature.mem_bundles_overlay.1 listed with never | listed
    · cases never
    · exact raw.bundled listed
  | _, _, .heir raw _ _ handed, listed => by
    rcases Feature.mem_bundles_overlay.1 listed with inherits | listed
    · exact handed.bundled hb (Feature.mem_bundles_of_inherited inherits)
    · exact raw.bundled listed
  | _, _, .aggregate _ _ _ whole, listed => by
    rw [hb] at listed
    obtain ⟨f, hf, listed⟩ := Feature.mem_bundles_layered.1 listed
    obtain ⟨e, he, rfl⟩ := List.mem_map.1 hf
    exact (whole e he).bundled hb listed

theorem Parent.bundled (hb : b.merger = .byPrototype) : ∀ {scope : Scope} {id' : Identity} {f : Feature},
    b.Parent scope id' f → id ∈ f.bundles.ids → b.Bundled id
  | _, _, _, .owned _ _ _ _ whole, listed => whole.bundled hb listed
  | _, _, _, .foreign _ loads, listed => .outside loads listed

end

/-! ## Bundles of aggregates -/

/-- **Aggregates have no bundles of their own**: each bundle of an assembled feature is in a feature of
the same scope that is not at the key of an aggregate. -/
def Covers (s : Session) : Prop := ∀ (n : Site) (g : Feature) (id : Identity),
  (s.state n.module n.scope).assembled.get? n.location = some g → id ∈ g.bundles.ids →
    ∃ location f, isAggregateKey location = false ∧
      (s.state n.module n.scope).assembled.get? location = some f ∧ id ∈ f.bundles.ids

theorem Covers.of_assembled_eq (h : Covers s)
    (same : ∀ key scope, (s'.state key scope).assembled = (s.state key scope).assembled) : Covers s' := by
  intro n g id hg listed
  rw [same] at hg ⊢
  exact h n g id hg listed

theorem Covers.of_store_eq (h : Covers s) (same : ∀ key, s'.store key = s.store key) : Covers s' :=
  h.of_assembled_eq fun key scope => congrArg ScopeState.assembled (Session.state_eq_of_store_eq same key scope)

/-- A feature is recorded whose bundles are in it, where it is no aggregate, or in one that is there. -/
theorem Covers.recordAssembled (h : Covers s)
    (covered : ∀ id ∈ g.bundles.ids, isAggregateKey n.location = false ∨ ∃ location f,
      isAggregateKey location = false ∧ (s.state n.module n.scope).assembled.get? location = some f ∧
        id ∈ f.bundles.ids) :
    Covers (s.modifyStore n.module fun t => t.recordAssembled n.scope n.location g) := by
  have retains := ((Session.Extends.refl n.scope s).recordAssembled n.module n.location g).retains
  intro n' g' id hg listed
  rcases s.assembled_recordAssembled n.module n'.module n.scope n'.scope hg with old | ⟨hk, hs, hl, rfl⟩
  · obtain ⟨location, f, plain, there, listed⟩ := h n' g' id old listed
    exact ⟨location, f, plain, retains _ _ _ _ there, listed⟩
  · rcases covered id listed with plain | ⟨location, f, plain, there, listed⟩
    · exact ⟨n'.location, g', hl ▸ plain, hg, listed⟩
    · rw [← hk, ← hs] at there
      exact ⟨location, f, plain, retains _ _ _ _ there, listed⟩

/-- Whatever changes, bundles of aggregates stay covered. -/
theorem Change.covers (hb : b.merger = .byPrototype) (free : b.KeysFree) (h : b.Change p q)
    (hp : Covers p.session) : Covers q.session := by
  cases h with
  | note | enter | leave => exact hp
  | report d => exact hp.of_store_eq (Session.store_report _ d)
  | mark => exact hp.of_assembled_eq (p.session.view_modifyStore ScopeState.assembled rfl)
  | read _ reads => exact hp.of_assembled_eq reads.assembled
  | record raw g =>
    obtain ⟨f₀, found, -⟩ := raw.carries
    exact hp.recordAssembled fun id _ => .inl (free.plain found)
  | aggregate m d =>
    refine hp.recordAssembled (n := ⟨m.key, d.scope, aggregateKey d.classifier⟩) fun id listed => .inr ?_
    rw [hb] at listed
    obtain ⟨f, hf, listed⟩ := Feature.mem_bundles_layered.1 listed
    obtain ⟨e, he, rfl⟩ := List.mem_map.1 hf
    obtain ⟨there, picked⟩ := List.mem_filter.1 he
    rw [Bool.and_eq_true, Bool.not_eq_true'] at picked
    exact ⟨e.1, e.2, picked.1, SortedMap.get?_of_mem there, listed⟩
  | answer key _ id => exact hp.of_store_eq (store_withReference key id p.session)
  | augment key scope => exact hp.of_store_eq (b.store_augmented key scope p.session)

theorem covers_of_reached (hb : b.Regular) (free : b.KeysFree)
    (h : s.Reached b.reactor (· = b)) : Covers s := by
  refine keeps_of_reached hb (fun n g id hg => ?_) (fun _ _ _ change => change.covers hb.merger free) h
  rw [state_start] at hg
  cases hg

end Build

/-! ## What is looked for -/

namespace Session

variable {s : Session} {r : Reactor} {id : Identity}

theorem mem_externalBundles {store : FeatureStore} : id ∈ externalBundles r store ↔
    r.contains id.moduleKey = false ∧ ∃ scope location f, isAggregateKey location = false ∧
      (store.assembled scope).get? location = some f ∧ id ∈ f.bundles.ids := by
  unfold externalBundles
  simp only [List.mem_flatMap, List.mem_filter, Bool.not_eq_true']
  constructor
  · rintro ⟨scope, -, e, ⟨he, plain⟩, listed, foreign⟩
    exact ⟨foreign, scope, e.1, e.2, plain, SortedMap.get?_of_mem he, listed⟩
  · rintro ⟨foreign, scope, location, f, plain, there, listed⟩
    refine ⟨scope, scope.mem_all, (location, f), ⟨?_, plain⟩, listed, foreign⟩
    exact SortedMap.get?_eq_some_iff.1 there

theorem contains_externalArtifacts : (s.externalArtifacts r).contains id = true ↔
    ∃ store ∈ s.stores.values, id ∈ externalBundles r store := by
  unfold externalArtifacts
  rw [SortedSet.contains_addAll, Bool.or_eq_true, decide_eq_true_iff, List.mem_flatMap]
  exact or_iff_left Bool.false_ne_true

/-- **The bundles to look for**: those of assembled features that no module owns. -/
theorem mem_externalArtifacts (covers : Build.Covers s) : id ∈ (s.externalArtifacts r).keys ↔
    r.contains id.moduleKey = false ∧ ∃ key scope location f,
      ((s.store key).assembled scope).get? location = some f ∧ id ∈ f.bundles.ids := by
  rw [SortedMap.mem_keys_iff, contains_externalArtifacts]
  constructor
  · rintro ⟨store, hs, hid⟩
    obtain ⟨foreign, scope, location, f, -, there, listed⟩ := mem_externalBundles.1 hid
    obtain ⟨key, kept⟩ := SortedMap.exists_get?_of_mem_values hs
    refine ⟨foreign, key, scope, location, f, ?_, listed⟩
    rw [Session.store, kept]
    exact there
  · rintro ⟨foreign, key, scope, location, g, there, listed⟩
    obtain ⟨location', f, plain, there', listed'⟩ := covers ⟨key, scope, location⟩ g id there listed
    have here : ((s.store key).assembled scope).get? location' = some f := there'
    cases kept : s.stores.get? key with
    | none =>
      rw [Session.store, kept] at here
      cases scope <;> cases here
    | some store =>
      rw [Session.store, kept] at here
      refine ⟨store, SortedMap.mem_values_of_get? kept, mem_externalBundles.2 ⟨foreign, ?_⟩⟩
      exact ⟨scope, location', f, plain, here, listed'⟩

end Session

/-! ## Where it is looked for -/

/-- Where all artifacts have a place, looking for them comes to those without a file. -/
theorem missingArtifacts_of_placed {fs : FileSystem} {repository : Repository} {ids : List Identity}
    (placed : ∀ id ∈ ids, ¬ Repository.Misplaced id) : missingArtifacts fs repository ids =
      .ok (ids.filter fun id => !fs.isFile (repository.artifactPath id)) := by
  induction ids with
  | nil => rfl
  | cons id rest ih =>
    have later := ih fun id hid => placed id (List.mem_cons_of_mem _ hid)
    have inside := repository.inside (placed id List.mem_cons_self)
    rw [missingArtifacts, inside.locate, later]
    cases there : fs.isFile (repository.artifactPath id) with
    | true => rw [if_pos rfl, List.filter_cons_of_neg (by simp [there])]
    | false =>
      rw [if_neg Bool.false_ne_true, List.filter_cons_of_pos (by simp [there])]
      rfl

namespace Manifest

variable {m : Manifest} {r : Reactor} {env : Environment} {fs : FileSystem} {id : Identity}

/-- No feature file is at the key of an aggregate. -/
theorem keysFree_build (m : Manifest) (r : Reactor) (env : Environment) (fs : FileSystem) :
    (m.build r env fs).KeysFree := by
  intro _ _ _ _ features location f taken there
  obtain ⟨dir, read⟩ := FeatureDirectory.exists_features taken
  obtain ⟨names, ne, -, split⟩ :=
    FeatureDirectory.located_of_features read location (SortedMap.contains_iff.2 ⟨f, there⟩)
  rw [isAggregateKey, Text.startsWith, split, FeatureDirectory.stripLeading?_location ne]
  rfl

/-- **A bundle that no module owns was read**, so that it has a place in any repository. -/
theorem not_misplaced_of_bundled (bundled : (m.build r env fs).Bundled id)
    (foreign : r.contains id.moduleKey = false) : ¬ Repository.Misplaced id := by
  have reads := m.build_readsFrom r env fs
  have of_stored : ∀ f, fs.Stores f → id ∈ f.bundles.ids → ¬ Repository.Misplaced id := by
    rintro f ⟨_, text, -, -, read⟩ listed
    have legible := Feature.bundles_legible_of_obtains (Json.Codec.obtains_of_decode read)
    obtain ⟨a, ha, rfl⟩ := List.mem_map.1 listed
    exact Repository.not_misplaced_of_legible (legible a ha)
  cases bundled with
  | raw sourced listed =>
    obtain ⟨_, _, -, taken, there⟩ := Build.exists_source sourced
    exact of_stored _ (reads.raw _ _ _ taken _ (SortedMap.mem_values_of_get? there)) listed
  | outside loads listed => exact of_stored _ (reads.outside _ _ loads) listed
  | unit known named =>
    -- A packaged unit is owned by its module.
    have owned := Option.isSome_iff_exists.2 ⟨_, Build.get?_of_mem_modules known⟩
    rw [named] at foreign
    exact absurd owned (Bool.eq_false_iff.1 foreign)

/-- **Bundles from outside are found or missing**, and nothing else. Processing all scopes has an
outcome in any session that processing scopes over the same files comes to, and then the bundles to
look for are exactly those of assembled features, aggregates or not, that no module owns. Whatever
repository they are looked for in, and whatever is on the disk by then, each is located at its path or
not found; and looking for all of them gives those whose path is no file, in order. -/
theorem outside_bundles_located (m : Manifest) (r : Reactor) (env : Environment) (fs : FileSystem)
    (s : Session) (hs : s.Reached r (· = m.build r env fs)) :
    ∃ o, (m.build r env fs).processAll s = some o ∧
      (∀ id, id ∈ (o.session.externalArtifacts r).keys ↔ r.contains id.moduleKey = false ∧
        ∃ key scope location f, ((o.session.store key).assembled scope).get? location = some f ∧
          id ∈ f.bundles.ids) ∧
      (o.session.externalArtifacts r).keys.Pairwise (fun id id' => compare id id' = .lt) ∧
      ∀ (repository : Repository) (disk : FileSystem),
        (∀ id ∈ (o.session.externalArtifacts r).keys, repository.locate disk id =
          if disk.isFile (repository.artifactPath id) then .ok (repository.artifactPath id)
          else .error (.notFound id)) ∧
        missingArtifacts disk repository (o.session.externalArtifacts r).keys =
          .ok ((o.session.externalArtifacts r).keys.filter fun id =>
            !disk.isFile (repository.artifactPath id)) := by
  have hb := m.regular_build r env fs
  obtain ⟨o, ho⟩ := (m.build r env fs).exists_processAll hb.merger s
  obtain ⟨_, comes⟩ := Build.exists_comes (b := m.build r env fs) hs
  have reached := (comes.processAll ho).reached
  have covers := Build.covers_of_reached hb (m.keysFree_build r env fs) reached
  have wanted : ∀ id, id ∈ (o.session.externalArtifacts r).keys ↔
      r.contains id.moduleKey = false ∧ ∃ key scope location f,
        ((o.session.store key).assembled scope).get? location = some f ∧ id ∈ f.bundles.ids :=
    fun _ => Session.mem_externalArtifacts covers
  have placed : ∀ id ∈ (o.session.externalArtifacts r).keys, ¬ Repository.Misplaced id := by
    intro id hid
    obtain ⟨foreign, key, scope, location, f, there, listed⟩ := (wanted id).1 hid
    have whole := (Build.honest_of_reached hb reached).whole (n := ⟨key, scope, location⟩) there
    exact not_misplaced_of_bundled (whole.bundled hb.merger listed) foreign
  refine ⟨o, ho, wanted, List.pairwise_map.2 (o.session.externalArtifacts r).ascend, fun repository disk => ?_⟩
  exact ⟨fun id hid => (repository.inside (placed id hid)).locate disk, missingArtifacts_of_placed placed⟩

/-! A build of one feature with two bundles from outside, and of an aggregate of it, over files with a
repository that has one of the two. -/

def coreBundle : Identity := .of "org.other" "core" "1"

def utilBundle : Identity := .of "org.other" "util" "1"

def bundledText : String :=
  "\x7b\"id\":\"g:app:feature:1\",\"bundles\":" ++
    "[\x7b\"id\":\"org.other:util:1\"\x7d,\x7b\"id\":\"org.other:core:1\"\x7d]\x7d"

def bundledFiles : FileSystem where
  root := .directory
    [("app", .directory [("src", .directory [("main", .directory [("features", .directory
      [("a.json", .file bundledText.toUTF8)])])])]),
    ("repo", .directory [("org", .directory [("other", .directory [("core", .directory [("1", .directory
      [("core-1.jar", .file "".toUTF8)])])])])])]
  workingDir := []

/-- The bundles of the feature and of the aggregate are looked for once, and `util` is missing. -/
theorem bundled_located : ∃ o,
    (colonManifest.build colonReactor default bundledFiles).processAll (.start colonReactor) = some o ∧
      o.result = .ok () ∧ (o.session.externalArtifacts colonReactor).keys = [coreBundle, utilBundle] ∧
      (∃ g, ((o.session.store ⟨"g:app"⟩).assembled .main).get? (aggregateKey "a:b") = some g ∧
        g.bundles.ids = [utilBundle, coreBundle]) ∧
      Repository.locate ⟨"repo"⟩ bundledFiles coreBundle = .ok "repo/org/other/core/1/core-1.jar" ∧
      missingArtifacts bundledFiles ⟨"repo"⟩ (o.session.externalArtifacts colonReactor).keys =
        .ok [utilBundle] := by
  obtain ⟨o, ho, -, -, located⟩ :=
    outside_bundles_located colonManifest colonReactor default bundledFiles (.start colonReactor) .start
  have run : ((colonManifest.build colonReactor default bundledFiles).processAll (.start colonReactor)).map
      (fun o => (o.result, (o.session.externalArtifacts colonReactor).keys,
        (((o.session.store ⟨"g:app"⟩).assembled .main).get? (aggregateKey "a:b")).map (·.bundles.ids))) =
      some (.ok (), [coreBundle, utilBundle], some [utilBundle, coreBundle]) := by decide +kernel
  rw [ho, Option.map_some, Option.some.injEq, Prod.mk.injEq, Prod.mk.injEq, Option.map_eq_some_iff] at run
  obtain ⟨ok, keys, aggregate⟩ := run
  obtain ⟨each, missing⟩ := located ⟨"repo"⟩ bundledFiles
  rw [keys] at each missing
  have paths : Repository.artifactPath ⟨"repo"⟩ coreBundle = "repo/org/other/core/1/core-1.jar" := by
    decide +kernel
  have there : bundledFiles.isFile (Repository.artifactPath ⟨"repo"⟩ coreBundle) = true := by decide +kernel
  have absent : bundledFiles.isFile (Repository.artifactPath ⟨"repo"⟩ utilBundle) = false := by decide +kernel
  have found := each coreBundle List.mem_cons_self
  rw [if_pos there, paths] at found
  refine ⟨o, ho, ok, keys, aggregate, found, ?_⟩
  rw [keys, missing, List.filter_cons_of_neg (by simp [there]), List.filter_cons_of_pos (by simp [absent]),
    List.filter_nil]

end Manifest

end FeatureAssembly
