import FeatureAssembly.Proofs.Documents
import FeatureAssembly.Proofs.FeatureFiles
import FeatureAssembly.Proofs.Provenance

/-!
# Assembled features read back

What is written for the features of a build over files, read again.

**The law** (`Manifest.assembled_read_back`): the text of an assembled feature is read as that
feature exactly if all identities in it are legible. Identities that come from files are. The others
are those that the build puts together, of packaged units and of aggregates, from texts of the
manifest that nothing checks: a classifier with a colon makes an aggregate that is written and cannot
be read (`Manifest.not_always_read_back`).

What it does not establish: anything of features with fractions or exponents in their documents.
-/

set_option autoImplicit false

namespace FeatureAssembly

open Json

variable {depth : Nat}

/-! ## Legible parts -/

/-- **A part that can be read back**: an identity whose text is read as it, or a document in the sorted
form that has no numbers but integers and nests no deeper than a bound. -/
def Part.Legible (depth : Nat) : Part → Prop
  | .identity id => id.Legible
  | .document value => value.sorted = value ∧ value.integral = true ∧ value.height ≤ depth

theorem Artifacts.legible_iff {c : Artifacts} : c.Legible ↔ ∀ part ∈ c.parts, part.Legible depth := by
  constructor
  · intro h part hp
    obtain ⟨a, ha, rfl⟩ := mem_parts_iff.1 hp
    exact h a ha
  · exact fun h a ha => h (.identity a.id) (mem_parts_iff.2 ⟨a, ha, rfl⟩)

theorem Extension.legible_iff {e : Extension} :
    e.Legible depth ↔ ∀ part ∈ e.parts, part.Legible depth := by
  obtain ⟨state, content⟩ := e
  cases content with
  | artifacts list => exact Artifacts.legible_iff
  | structured value =>
    simp only [Legible, ExtensionContent.Legible, parts, Part.Legible, List.forall_mem_singleton]
  | text s => exact iff_of_true trivial fun _ h => by cases h

theorem Prototype.legible_iff {p : Prototype} : p.Legible ↔ ∀ part ∈ p.parts, part.Legible depth := by
  rw [parts, List.forall_mem_cons, List.forall_mem_map]
  exact ⟨fun h => ⟨h.id, h.removedBundles⟩, fun h => ⟨h.1, h.2⟩⟩

/-- A feature can be read back if its parts can. -/
theorem Feature.legible_iff {f : Feature} : f.Legible depth ↔ ∀ part ∈ f.parts, part.Legible depth := by
  constructor
  · intro h part hp
    rcases mem_parts_iff.1 hp with rfl | hp | ⟨e, he, hp⟩ | ⟨p, hproto, hp⟩
    · exact h.id
    · exact Artifacts.legible_iff.1 h.bundles part hp
    · exact Extension.legible_iff.1 (h.extensions e he) part hp
    · exact Prototype.legible_iff.1 (h.prototype p hproto) part hp
  · intro h
    exact {
      id := h _ f.part_of_id
      bundles := Artifacts.legible_iff.2 fun part hp => h part (part_of_bundles hp)
      extensions := fun e he => Extension.legible_iff.2 fun part hp => h part (part_of_extension he hp)
      prototype := fun p hp => Prototype.legible_iff.2 fun part hpart => h part (part_of_prototype hp hpart) }

/-- Documents that can be read back have no numbers but integers. -/
theorem Feature.integral_of_documents {f : Feature}
    (h : ∀ value, .document value ∈ f.parts → Part.Legible depth (.document value)) : f.Integral := by
  intro e he value content
  have within : .document value ∈ e.2.parts := by
    rw [Extension.parts, content]
    exact List.mem_singleton_self _
  exact (h value (part_of_extension he within)).2.1

/-! ## Features that were read -/

/-- How deep documents in features may nest that are read from whole texts. -/
def contentDepth : Nat := depthLimit - 3

/-- A feature that was read can be read back. -/
theorem Feature.legible_of_decode {text : String} {f : Feature} (read : Feature.codec.decode text = .ok f)
    (integral : f.Integral) : f.Legible contentDepth :=
  legible_of_obtains (Codec.obtains_of_decode read) integral

/-- **If the documents in a feature can be read back, the feature is read back from its text exactly if
its identities are legible**, from the compact text as from the indented one. -/
theorem Feature.read_back_iff {f : Feature}
    (documents : ∀ value, .document value ∈ f.parts → Part.Legible contentDepth (.document value)) :
    (Feature.codec.decode (Feature.codec.encode f) = .ok f ↔ ∀ id, .identity id ∈ f.parts → id.Legible) ∧
      (Feature.codec.decode (Feature.codec.encodeIndented f) = .ok f ↔
        ∀ id, .identity id ∈ f.parts → id.Legible) := by
  have legible : ∀ text, Feature.codec.decode text = .ok f → ∀ id, .identity id ∈ f.parts → id.Legible :=
    fun text read id hid => legible_iff.1 (legible_of_decode read (integral_of_documents documents)) _ hid
  have kept (h : ∀ id, .identity id ∈ f.parts → id.Legible) : Feature.codec.Keeps depthLimit f := by
    have all : f.Legible (121 + 3) := legible_iff.2 fun part hp => by
      cases part with
      | identity id => exact h id hp
      | document value => exact documents value hp
    exact keeps_codec all
  exact ⟨⟨legible _, fun h => (kept h).decode (spells_compact _)⟩,
    ⟨legible _, fun h => (kept h).decode (spells_indented 0 _)⟩⟩

/-! ## Builds over files -/

namespace Build

variable {b : Build} {fs : FileSystem} {part : Part}

/-- **No document that a build is given has numbers but integers.** -/
structure Integral (b : Build) : Prop where
  raw : ∀ m ∈ b.reactor.modules, ∀ scope features, b.source m scope = .ok features →
    ∀ f ∈ features.values, f.Integral
  outside : ∀ id f, b.loader id = .ok f → f.Integral

/-- Where the features in all files have no numbers but integers, so do those that are read. -/
theorem ReadsFrom.integral (reads : b.ReadsFrom fs) (h : ∀ f, fs.Stores f → f.Integral) : b.Integral where
  raw m _ scope features taken f hf := h f (reads.raw m scope features taken f hf)
  outside id f loads := h f (reads.outside id f loads)

/-- What is given can be read back, but for identities that are put together. -/
theorem ReadsFrom.legible (reads : b.ReadsFrom fs) (integral : b.Integral) (h : b.Gives part) :
    part.Legible contentDepth ∨ ∃ id, part = .identity id ∧ b.Composes id := by
  cases h with
  | @raw key scope location f _ sourced within =>
    obtain ⟨m, features, known, taken, there⟩ := exists_source sourced
    have listed := SortedMap.mem_values_of_get? there
    obtain ⟨_, text, -, -, read⟩ := reads.raw m scope features taken f listed
    have plain := integral.raw m (mem_modules_of_get? known).1 scope features taken f listed
    exact .inl (Feature.legible_iff.1 (Feature.legible_of_decode read plain) part within)
  | @outside id f _ loads within =>
    obtain ⟨_, text, -, -, read⟩ := reads.outside id f loads
    have plain := integral.outside id f loads
    exact .inl (Feature.legible_iff.1 (Feature.legible_of_decode read plain) part within)
  | @composed id composes => exact .inr ⟨id, rfl, composes⟩

end Build

namespace Manifest

/-- A build over files is regular: features are looked for in the directory of a module. -/
theorem regular_build (m : Manifest) (r : Reactor) (env : Environment) (fs : FileSystem) :
    (m.build r env fs).Regular := ⟨rfl, fun _ _ _ => rfl⟩

/-- **Assembled features are read back**: after a build over files that succeeds, and that was given no
documents with numbers but integers, an assembled feature is read from what is written for it
exactly if its identities are legible; and those that are not were put together by the build. -/
theorem assembled_read_back (m : Manifest) (r : Reactor) (env : Environment) (fs : FileSystem)
    (integral : (m.build r env fs).Integral) {o : Outcome}
    (ho : (m.build r env fs).processAll (.start r) = some o) (hok : o.result = .ok ())
    {key : ModuleKey} {scope : Scope} {location : String} {f : Feature}
    (hf : ((o.session.store key).assembled scope).get? location = some f) :
    (∀ id, .identity id ∈ f.parts → id.Legible ∨ (m.build r env fs).Composes id) ∧
    (Feature.codec.decode (Feature.codec.encode f) = .ok f ↔ ∀ id, .identity id ∈ f.parts → id.Legible) ∧
    (Feature.codec.decode (Feature.codec.encodeIndented f) = .ok f ↔
      ∀ id, .identity id ∈ f.parts → id.Legible) := by
  have given : ∀ part ∈ f.parts, (m.build r env fs).Gives part :=
    Build.processAll_gives (m.regular_build r env fs) ho hok key scope location f hf
  have legible : ∀ part ∈ f.parts,
      part.Legible contentDepth ∨ ∃ id, part = .identity id ∧ (m.build r env fs).Composes id :=
    fun part hp => (m.build_readsFrom r env fs).legible integral (given part hp)
  refine ⟨fun id hid => ?_, Feature.read_back_iff fun value hv => ?_⟩
  · rcases legible _ hid with h | ⟨_, ⟨⟩, composes⟩
    · exact .inl h
    · exact .inr composes
  · rcases legible _ hv with h | ⟨_, ⟨⟩, _⟩
    exact h

/-! A build over two files: a manifest, in which `app` has an aggregate of the classifier `a:b`, and the
only feature of `app`. -/

def colonText : String :=
  "\x7b\"modules\":[\x7b\"group\":\"g\",\"name\":\"app\",\"version\":\"1\"\x7d]," ++
    "\"config\":\x7b\"aggregates\":\x7b\"g:app\":[\x7b\"classifier\":\"a:b\",\"includes\":[\"*\"]\x7d]\x7d\x7d\x7d"

def colonFiles : FileSystem where
  root := .directory
    [("app", .directory [("src", .directory [("main", .directory [("features", .directory
      [("a.json", .file "\x7b\"id\":\"g:app:feature:1\"\x7d".toUTF8)])])])]),
    ("fab.json", .file colonText.toUTF8)]
  workingDir := []

def colonManifest : Manifest where
  repository := none
  config := { AssemblyConfig.default with aggregates := .ofList [(⟨"g:app"⟩, [.of "a:b" [AggregateDecl.star]])] }
  modules := [.of "g" "app" "1"]

def colonReactor : Reactor := ⟨colonManifest.modules, by decide, by decide⟩

theorem colon_loads : load colonFiles "fab.json" = .ok colonManifest := ok_of_toOption (by decide +kernel)

theorem colon_integral : (colonManifest.build colonReactor default colonFiles).Integral := by
  refine (build_readsFrom _ _ _ _).integral fun f stored => ?_
  have plain : ∀ f ∈ colonFiles.storedFeatures, f.extensions = .empty := by decide +kernel
  rw [Feature.Integral, plain f stored.mem_storedFeatures]
  exact fun _ he => absurd he List.not_mem_nil

/-- The build succeeds, and its features have only their identities. -/
theorem colon_assembles : ∃ o f g,
    (colonManifest.build colonReactor default colonFiles).processAll (.start colonReactor) = some o ∧
      o.result = .ok () ∧
      ((o.session.store ⟨"g:app"⟩).assembled .main).get? "src/main/features/a.json" = some f ∧
      ((o.session.store ⟨"g:app"⟩).assembled .main).get? (aggregateKey "a:b") = some g ∧
      f.parts = [.identity ((Identity.of "g" "app" "1").withType featureType)] ∧
      g.parts = [.identity (((Identity.of "g" "app" "1").withType featureType).withClassifier "a:b")] := by
  let app : Identity := (Identity.of "g" "app" "1").withType featureType
  have run : ((colonManifest.build colonReactor default colonFiles).processAll (.start colonReactor)).map
      (fun o => (o.result,
        ((o.session.store ⟨"g:app"⟩).assembled .main).get? "src/main/features/a.json",
        ((o.session.store ⟨"g:app"⟩).assembled .main).get? (aggregateKey "a:b"))) =
      some (.ok (), some { Feature.of app with assembled := true },
        some { Feature.of (app.withClassifier "a:b") with assembled := true }) := by decide +kernel
  obtain ⟨o, ho, run⟩ := Option.map_eq_some_iff.1 run
  simp only [Prod.mk.injEq] at run
  exact ⟨o, _, _, ho, run.1, run.2.1, run.2.2, rfl, rfl⟩

/-- **Not every assembled feature is read back.** -/
theorem not_always_read_back : ¬ ∀ (fs : FileSystem) (path : String) (m : Manifest) (r : Reactor)
    (env : Environment) (o : Outcome), load fs path = .ok m → m.reactor = .ok r →
    (m.build r env fs).Integral → (m.build r env fs).processAll (.start r) = some o → o.result = .ok () →
    ∀ key scope location f, ((o.session.store key).assembled scope).get? location = some f →
      Feature.codec.decode (Feature.codec.encode f) = .ok f := by
  intro h
  obtain ⟨o, -, g, ho, hok, -, hg, -, parts⟩ := colon_assembles
  have read := h colonFiles "fab.json" colonManifest colonReactor default o colon_loads rfl colon_integral ho hok
    _ _ _ g hg
  have documents : ∀ value, .document value ∈ g.parts → Part.Legible contentDepth (.document value) := by
    rw [parts]
    intro value hv
    cases List.mem_singleton.1 hv
  have legible := (Feature.read_back_iff documents).1.1 read _ (by rw [parts]; exact List.mem_singleton_self _)
  exact absurd legible (by decide)

/-- The feature of `app` is read back, the aggregate is not. -/
theorem colon_read_back : ∃ o f g,
    (colonManifest.build colonReactor default colonFiles).processAll (.start colonReactor) = some o ∧
      ((o.session.store ⟨"g:app"⟩).assembled .main).get? "src/main/features/a.json" = some f ∧
      Feature.codec.decode (Feature.codec.encode f) = .ok f ∧
      ((o.session.store ⟨"g:app"⟩).assembled .main).get? (aggregateKey "a:b") = some g ∧
      Feature.codec.decode (Feature.codec.encode g) ≠ .ok g := by
  obtain ⟨o, f, g, ho, hok, hf, hg, parts, parts'⟩ := colon_assembles
  have read := (assembled_read_back colonManifest colonReactor default colonFiles colon_integral ho hok hf).2.1
  have read' := (assembled_read_back colonManifest colonReactor default colonFiles colon_integral ho hok hg).2.1
  rw [parts] at read
  rw [parts'] at read'
  refine ⟨o, f, g, ho, hf, read.2 fun id hid => ?_, hg, fun h => ?_⟩
  · cases List.mem_singleton.1 hid
    decide
  · exact absurd (read'.1 h _ (List.mem_singleton_self _)) (by decide)

end Manifest

end FeatureAssembly
