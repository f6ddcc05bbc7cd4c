import FeatureAssembly.Proofs.Documents
import FeatureAssembly.Proofs.Parentage
import FeatureAssembly.Proofs.Provenance

/-!
# Artifacts that occur twice

A list of artifacts is meant to have each identity once. Its operations see to that, but a list that
was decoded holds what stood in the document.

**The law** (`Build.artifacts_repeat_as_given`): in every session that a build comes to, an identity
occurs twice in the bundles or in an extension of an assembled feature only if it did so in what the
build was given: in the same place of a feature from outside or of a raw feature, as the source
answered, and as for bundles only of a raw feature that was final already. So lists that were given
without repetitions stay without.

Merging puts artifacts in one at a time (`Artifacts.Repeats.of_insertAll`), and what is assembled was
made by merging (`Build.Whole`). So the law is shown along what a feature is made of.

A list that repeats an identity is kept where it is inherited (`Build.not_always_distinct`).

What it does not establish: which of two artifacts with one identity a lookup finds.
-/

set_option autoImplicit false

namespace FeatureAssembly

/-! ## Lists of artifacts -/

namespace Artifacts

variable {c : Artifacts} {id : Identity}

/-- **An identity occurs twice** in a list of artifacts. -/
def Repeats (c : Artifacts) (id : Identity) : Prop := 1 < c.ids.count id

instance (c : Artifacts) (id : Identity) : Decidable (c.Repeats id) := inferInstanceAs (Decidable (_ < _))

/-- A list without repetitions has each identity once. -/
theorem nodup_ids_iff : c.ids.Nodup ↔ ∀ id, ¬ c.Repeats id := by
  simp only [List.nodup_iff_count_le_one, Repeats, Nat.not_lt]

theorem not_repeats_empty (id : Identity) : ¬ empty.Repeats id := Nat.not_lt_zero _

/-- Putting in an artifact adds its identity where that is missing, and no other. -/
theorem ids_insert (c : Artifacts) (a : Artifact) :
    (c.insert a).ids = if a.id ∈ c.ids then c.ids else c.ids ++ [a.id] := by
  obtain ⟨l⟩ := c
  induction l with
  | nil => rfl
  | cons b rest ih =>
    have ih : (insertEntry a rest).map (·.id) =
      if a.id ∈ rest.map (·.id) then rest.map (·.id) else rest.map (·.id) ++ [a.id] := ih
    show (insertEntry a (b :: rest)).map (·.id) = if a.id ∈ b.id :: rest.map (·.id) then
      b.id :: rest.map (·.id) else b.id :: (rest.map (·.id) ++ [a.id])
    rw [insertEntry]
    split
    · next same => rw [if_pos (same ▸ List.mem_cons_self), List.map_cons, same]
    · next other =>
      rw [List.map_cons, ih]
      by_cases there : a.id ∈ rest.map (·.id)
      · rw [if_pos there, if_pos (List.mem_cons_of_mem _ there)]
      · have absent : a.id ∉ b.id :: rest.map (·.id) :=
          List.not_mem_cons_of_ne_of_not_mem (Ne.symm other) there
        rw [if_neg there, if_neg absent]

theorem Repeats.of_insert {a : Artifact} (h : (c.insert a).Repeats id) : c.Repeats id := by
  unfold Repeats at h ⊢
  rw [ids_insert] at h
  split at h
  · exact h
  · next absent =>
    rw [List.count_append] at h
    by_cases same : a.id = id
    · rw [same] at absent
      rw [List.count_eq_zero_of_not_mem absent, same] at h
      simp at h
    · rw [List.count_singleton, beq_false_of_ne same] at h
      exact h

theorem Repeats.of_insertAll {l : List Artifact} (h : (c.insertAll l).Repeats id) : c.Repeats id := by
  induction l generalizing c with
  | nil => exact h
  | cons a l ih => exact (ih (c := c.insert a) h).of_insert

theorem Repeats.of_erase {removed : List Identity} (h : (removed.foldl erase c).Repeats id) : c.Repeats id := by
  induction removed generalizing c with
  | nil => exact h
  | cons r removed ih =>
    have fewer : (c.erase r).ids.Sublist c.ids := List.eraseP_sublist.map _
    exact Nat.lt_of_lt_of_le (ih (c := c.erase r) h) (fewer.count_le id)

end Artifacts

/-! ## Features -/

/-- Where a feature lists artifacts: in its bundles, and in its extensions. -/
inductive ArtifactPlace where
  | bundles
  | extension (name : String)
deriving DecidableEq

namespace Feature

variable {f lower upper : Feature} {place : ArtifactPlace} {id : Identity}

/-- The artifacts that a feature lists in a place. -/
def listed? (f : Feature) : ArtifactPlace → Option Artifacts
  | .bundles => some f.bundles
  | .extension name => (f.extensions.get? name).bind Extension.artifacts?

/-- **An identity occurs twice** in a place of a feature. -/
def Repeats (f : Feature) (place : ArtifactPlace) (id : Identity) : Prop :=
  ∃ c, f.listed? place = some c ∧ c.Repeats id

/-- **A feature without repetitions** has each identity once in its bundles, and once in each extension
that lists artifacts. -/
def Distinct (f : Feature) : Prop :=
  f.bundles.ids.Nodup ∧ ∀ name e list, f.extensions.get? name = some e → e.content = .artifacts list →
    list.ids.Nodup

theorem distinct_iff : f.Distinct ↔ ∀ place id, ¬ f.Repeats place id := by
  constructor
  · rintro ⟨bundles, extensions⟩ place id ⟨c, hc, twice⟩
    cases place with
    | bundles =>
      cases hc
      exact Artifacts.nodup_ids_iff.1 bundles id twice
    | extension name =>
      obtain ⟨e, he, hc⟩ := Option.bind_eq_some_iff.1 hc
      refine Artifacts.nodup_ids_iff.1 (extensions name e c he ?_) id twice
      unfold Extension.artifacts? at hc
      split at hc
      · next list content =>
        cases hc
        exact content
      · cases hc
  · intro never
    refine ⟨Artifacts.nodup_ids_iff.2 fun id twice => never .bundles id ⟨_, rfl, twice⟩, ?_⟩
    intro name e list he content
    refine Artifacts.nodup_ids_iff.2 fun id twice => never (.extension name) id ⟨list, ?_, twice⟩
    rw [listed?, he, Option.bind_some, Extension.artifacts?, content]

/-- An extension that repeats an identity has it from one of the two that were laid over each other. -/
theorem repeats_of_overlay_extension {old new : Extension} {c : Artifacts}
    (hc : (old.overlay new).artifacts? = some c) (twice : c.Repeats id) :
    (∃ c', old.artifacts? = some c' ∧ c'.Repeats id) ∨ new.artifacts? = some c := by
  obtain ⟨state, content⟩ := old
  obtain ⟨state', content'⟩ := new
  cases content with
  | artifacts list =>
    cases content' with
    | artifacts list' =>
      cases hc
      exact .inl ⟨list, rfl, twice.of_insertAll⟩
    | structured | text => exact .inr hc
  | structured | text => exact .inr hc

theorem repeats_of_overlayExtension {extensions : SortedMap String Extension} {u : String × Extension}
    {name : String} {e : Extension} {c : Artifacts} (he : (overlayExtension extensions u).get? name = some e)
    (hc : e.artifacts? = some c) (twice : c.Repeats id) :
    (∃ e' c', extensions.get? name = some e' ∧ e'.artifacts? = some c' ∧ c'.Repeats id) ∨
      u.1 = name ∧ u.2.artifacts? = some c := by
  unfold overlayExtension at he
  split at he
  · next old found =>
    rw [SortedMap.get?_insert_eq] at he
    split at he
    · next here =>
      cases he
      rcases repeats_of_overlay_extension hc twice with ⟨c', hc', twice'⟩ | hc
      · exact .inl ⟨old, c', here ▸ found, hc', twice'⟩
      · exact .inr ⟨here.symm, hc⟩
    · exact .inl ⟨e, c, he, hc, twice⟩
  · rw [SortedMap.get?_insert_eq] at he
    split at he
    · next here =>
      cases he
      exact .inr ⟨here.symm, hc⟩
    · exact .inl ⟨e, c, he, hc, twice⟩

theorem repeats_of_overlayExtensions {l : List (String × Extension)} {extensions : SortedMap String Extension}
    {name : String} {e : Extension} {c : Artifacts}
    (he : (l.foldl overlayExtension extensions).get? name = some e) (hc : e.artifacts? = some c)
    (twice : c.Repeats id) :
    (∃ e' c', extensions.get? name = some e' ∧ e'.artifacts? = some c' ∧ c'.Repeats id) ∨
      ∃ u ∈ l, u.1 = name ∧ ∃ c', u.2.artifacts? = some c' ∧ c'.Repeats id := by
  induction l generalizing extensions with
  | nil => exact .inl ⟨e, c, he, hc, twice⟩
  | cons u l ih =>
    rcases ih he with ⟨e', c', he', hc', twice'⟩ | ⟨u', hu', here⟩
    · rcases repeats_of_overlayExtension he' hc' twice' with lower | ⟨here, hc'⟩
      · exact .inl lower
      · exact .inr ⟨u, List.mem_cons_self, here, c', hc', twice'⟩
    · exact .inr ⟨u', List.mem_cons_of_mem u hu', here⟩

/-- **What repeats an identity where a feature is laid over another** did so in one of the two, and as
for bundles in the lower one. -/
theorem repeats_of_overlay (h : (lower.overlay upper).Repeats place id) :
    lower.Repeats place id ∨ place ≠ .bundles ∧ upper.Repeats place id := by
  obtain ⟨c, hc, twice⟩ := h
  cases place with
  | bundles =>
    cases hc
    exact .inl ⟨_, rfl, twice.of_insertAll⟩
  | extension name =>
    obtain ⟨e, he, hc⟩ := Option.bind_eq_some_iff.1 hc
    rcases repeats_of_overlayExtensions he hc twice with ⟨e', c', he', hc', twice'⟩ | ⟨u, hu, rfl, c', hc', twice'⟩
    · exact .inl ⟨c', Option.bind_eq_some_iff.2 ⟨e', he', hc'⟩, twice'⟩
    · refine .inr ⟨nofun, c', Option.bind_eq_some_iff.2 ⟨u.2, ?_, hc'⟩, twice'⟩
      exact SortedMap.get?_of_mem hu

theorem get?_of_foldl_erase {names : List String} {m : SortedMap String Extension} {name : String} {e : Extension}
    (h : (names.foldl SortedMap.erase m).get? name = some e) : m.get? name = some e :=
  SortedMap.get?_eq_some_iff.2 (mem_of_mem_erase (SortedMap.get?_eq_some_iff.1 h))

/-- What is inherited repeats what the prototype does. -/
theorem repeats_of_inherited {parent : Feature} {prototype : Prototype} {named : Identity}
    (h : (inherited named parent prototype).Repeats place id) : parent.Repeats place id := by
  obtain ⟨c, hc, twice⟩ := h
  cases place with
  | bundles =>
    cases hc
    exact ⟨_, rfl, twice.of_erase⟩
  | extension name =>
    obtain ⟨e, he, hc⟩ := Option.bind_eq_some_iff.1 hc
    exact ⟨c, Option.bind_eq_some_iff.2 ⟨e, get?_of_foldl_erase he, hc⟩, twice⟩

theorem not_repeats_of (named : Identity) : ¬ (of named).Repeats place id := by
  rintro ⟨c, hc, twice⟩
  cases place with
  | bundles =>
    cases hc
    exact Artifacts.not_repeats_empty id twice
  | extension name => cases hc

theorem repeats_of_finished (h : f.finished.Repeats place id) : f.Repeats place id := by
  obtain ⟨c, hc, twice⟩ := h
  cases place <;> exact ⟨c, hc, twice⟩

/-- **Features in layers** repeat in extensions what one of them does, and nothing in bundles. -/
theorem repeats_of_layered {features : List Feature} {named : Identity}
    (h : (layered named features).Repeats place id) : place ≠ .bundles ∧ ∃ f ∈ features, f.Repeats place id := by
  have overlays : ∀ {features : List Feature} {base : Feature}, (features.foldl overlay base).Repeats place id →
      base.Repeats place id ∨ place ≠ .bundles ∧ ∃ f ∈ features, f.Repeats place id := by
    intro features
    induction features with
    | nil => exact .inl
    | cons f features ih =>
      intro base h
      rcases ih h with h | ⟨inside, g, hg, h⟩
      · exact (repeats_of_overlay h).imp_right fun ⟨inside, h⟩ => ⟨inside, f, List.mem_cons_self, h⟩
      · exact .inr ⟨inside, g, List.mem_cons_of_mem f hg, h⟩
  exact (overlays h).resolve_left (not_repeats_of named)

end Feature

/-! ## What builds are given -/

namespace Build

variable {b : Build} {key : ModuleKey} {scope : Scope} {n : Site} {f g : Feature} {place : ArtifactPlace}
  {id id' : Identity}

/-- **An identity is repeated in what a build is given**: in a raw feature, and there in the bundles only
if it is final already, or in a feature from outside. -/
inductive GivenTwice (b : Build) (place : ArtifactPlace) (id : Identity) : Prop where
  | raw {n : Site} {f : Feature} (sourced : b.featureAt n = some f)
      (kept : f.assembled = true ∨ place ≠ .bundles) (twice : f.Repeats place id)
  | outside {id' : Identity} {f : Feature} (foreign : b.reactor.contains id'.moduleKey = false)
      (loads : b.loader id' = .ok f) (twice : f.Repeats place id)

theorem givenTwice_of_sourced (hf : f ∈ (b.sourced key scope).values)
    (kept : f.assembled = true ∨ place ≠ .bundles) (twice : f.Repeats place id) : b.GivenTwice place id := by
  obtain ⟨location, there⟩ := SortedMap.exists_get?_of_mem_values hf
  exact .raw (n := ⟨key, scope, location⟩) there kept twice

/-- The packaged unit is put in once. -/
theorem givenTwice_of_withUnit {m : Module} (hf : f ∈ (b.withUnit m (b.sourced key scope)).values)
    (kept : f.assembled = true ∨ place ≠ .bundles) (twice : f.Repeats place id) : b.GivenTwice place id := by
  obtain ⟨e, he, rfl⟩ := List.mem_map.1 hf
  rcases mem_withUnit he with he | ⟨-, -, f, hf, attached⟩
  · exact givenTwice_of_sourced (List.mem_map_of_mem he) kept twice
  · rw [attached] at kept twice
    obtain ⟨c, hc, twice⟩ := twice
    refine givenTwice_of_sourced hf kept ?_
    cases place with
    | bundles =>
      cases hc
      exact ⟨_, rfl, twice.of_insert⟩
    | extension name => exact ⟨c, hc, twice⟩

theorem RawAt.givenTwice (h : b.RawAt n f) (kept : f.assembled = true ∨ place ≠ .bundles)
    (twice : f.Repeats place id) : b.GivenTwice place id := by
  rcases h with found | found
  · exact .raw found kept twice
  · have listed := SortedMap.mem_values_of_get? found
    unfold prepared at listed
    split at listed
    · exact givenTwice_of_withUnit listed kept twice
    · exact givenTwice_of_sourced listed kept twice

mutual

/-- **What a whole feature repeats was given.** -/
theorem Whole.givenTwice (hb : b.merger = .byPrototype) : ∀ {n : Site} {g : Feature}, b.Whole n g →
    g.Repeats place id → b.GivenTwice place id
  | _, _, .final raw marked, twice => raw.givenTwice (.inl marked) twice
  | _, _, .alone raw _ _, twice => by
    rcases Feature.repeats_of_overlay (Feature.repeats_of_finished twice) with never | ⟨inside, twice⟩
    · exact absurd never (Feature.not_repeats_of _)
    · exact raw.givenTwice (.inr inside) twice
  | _, _, .heir raw _ _ handed, twice => by
    rcases Feature.repeats_of_overlay (Feature.repeats_of_finished twice) with inherits | ⟨inside, twice⟩
    · exact handed.givenTwice hb (Feature.repeats_of_inherited inherits)
    · exact raw.givenTwice (.inr inside) twice
  | _, _, .aggregate _ _ _ whole, twice => by
    rw [hb] at twice
    obtain ⟨-, f, hf, twice⟩ := Feature.repeats_of_layered twice
    obtain ⟨e, he, rfl⟩ := List.mem_map.1 hf
    exact (whole e he).givenTwice hb twice

theorem Parent.givenTwice (hb : b.merger = .byPrototype) : ∀ {scope : Scope} {id' : Identity} {f : Feature},
    b.Parent scope id' f → f.Repeats place id → b.GivenTwice place id
  | _, _, _, .owned _ _ _ _ whole, twice => whole.givenTwice hb twice
  | _, _, _, .foreign unknown loads, twice => .outside unknown loads twice

end

/-- **Artifacts repeat as they were given**, in any session that processing scopes of a fresh one comes
to, also with failures on the way: an identity occurs twice in a place of an assembled feature only if
it does in that place of a raw feature, as the source gave it, or of one from outside, and in bundles
only of a raw feature that was final. So where nothing is repeated in what is given, nothing is in what
is assembled. -/
theorem artifacts_repeat_as_given (b : Build) (hb : b.merger = .byPrototype) (s : Session)
    (t : List Event) (hs : b.Comes s t) (key : ModuleKey) (scope : Scope) :
    ∃ o, b.process s key scope = some o ∧
      (∀ (n : Site) (g : Feature), ((o.session.store n.module).assembled n.scope).get? n.location = some g →
        ∀ place id, g.Repeats place id → (b.asAnswered (t ++ o.events)).GivenTwice place id) ∧
      ((∀ place id, ¬ (b.asAnswered (t ++ o.events)).GivenTwice place id) →
        ∀ (n : Site) (g : Feature),
          ((o.session.store n.module).assembled n.scope).get? n.location = some g → g.Distinct) := by
  obtain ⟨o, ho⟩ := exists_process hb s key scope
  have regular := regular_asAnswered hb (t ++ o.events)
  obtain ⟨answered, same⟩ := hs.process_asAnswered hb ho
  have honest := process_goesOn regular (honest_of_reached regular answered.reached) same
  have given : ∀ (n : Site) (g : Feature),
      ((o.session.store n.module).assembled n.scope).get? n.location = some g →
        ∀ place id, g.Repeats place id → (b.asAnswered (t ++ o.events)).GivenTwice place id :=
    fun n g hg place id twice => (honest.whole hg).givenTwice hb twice
  refine ⟨o, ho, given, fun never n g hg => Feature.distinct_iff.2 fun place id twice => ?_⟩
  exact never place id (given n g hg place id twice)

/-! ## Lists that are decoded -/

/-- **The features that a build is given are decoded**: each comes from a text. -/
def Decoded (b : Build) : Prop :=
  (∀ n f, b.featureAt n = some f → ∃ text, Feature.codec.decode text = .ok f) ∧
    ∀ id f, b.loader id = .ok f → ∃ text, Feature.codec.decode text = .ok f

/-! A build of one module with one feature, which refers to `base` outside, where that lists the bundle
`core` twice. -/

def heir : Feature :=
  .after ((Identity.of "g" "app" "1").withType featureType)
    ((Identity.of "org.other" "base" "1").withType featureType)

def heirText : String :=
  "\x7b\"id\":\"g:app:feature:1\",\"prototype\":\x7b\"id\":\"org.other:base:feature:1\"\x7d\x7d"

def twins : Feature :=
  { Feature.of ((Identity.of "org.other" "base" "1").withType featureType) with
    bundles := ⟨[.of (.of "org.other" "core" "1"), .of (.of "org.other" "core" "1")]⟩ }

def twinsText : String :=
  "\x7b\"id\":\"org.other:base:feature:1\"," ++
    "\"bundles\":[\x7b\"id\":\"org.other:core:1\"\x7d,\x7b\"id\":\"org.other:core:1\"\x7d]\x7d"

def doubled : Build :=
  { ofTable frontier.reactor [(⟨"g:app"⟩, .main, "a.json", heir)] with
    loader := .ofTable (.ofList [(twins.id, twins)]) }

theorem decoded_doubled : doubled.Decoded := by
  constructor
  · intro n f hf
    have only : doubled.everyFeature (fun _ f => f = heir) = true := by decide +kernel
    rw [of_decide_eq_true (of_everyFeature only hf)]
    exact ⟨heirText, Json.ok_of_toOption (by decide +kernel)⟩
  · intro id f loads
    have found : (SortedMap.ofList [(twins.id, twins)]).get? id = some f := by
      unfold doubled FeatureLoader.ofTable at loads
      simp only at loads
      split at loads
      · next there =>
        cases loads
        exact there
      · cases loads
    have only := SortedMap.get?_eq_some_iff.1 found
    cases List.mem_singleton.1 only
    exact ⟨twinsText, Json.ok_of_toOption (by decide +kernel)⟩

/-- What is made of `heir` has `core` twice. -/
theorem process_doubled : ∃ o g, doubled.process (.start doubled.reactor) ⟨"g:app"⟩ .main = some o ∧
    o.result = .ok () ∧ ((o.session.store ⟨"g:app"⟩).assembled .main).get? "a.json" = some g ∧
      g.bundles = twins.bundles := by
  have run : (doubled.process (.start doubled.reactor) ⟨"g:app"⟩ .main).map (fun o =>
      (o.result, (((o.session.store ⟨"g:app"⟩).assembled .main).get? "a.json").map Feature.bundles)) =
        some (.ok (), some twins.bundles) := by
    decide +kernel
  obtain ⟨o, ho, run⟩ := Option.map_eq_some_iff.1 run
  rw [Prod.mk.injEq, Option.map_eq_some_iff] at run
  obtain ⟨ok, g, hg, bundles⟩ := run
  exact ⟨o, g, ho, ok, hg, bundles⟩

/-- **Assembled features are not always without repetitions**, though all that is given is decoded and
the build goes well. -/
theorem not_always_distinct : ¬ ∀ b : Build, b.merger = .byPrototype → b.Decoded → ∀ key scope o,
    b.process (.start b.reactor) key scope = some o → o.result = .ok () → ∀ (n : Site) (g : Feature),
      ((o.session.store n.module).assembled n.scope).get? n.location = some g → g.Distinct := by
  intro h
  obtain ⟨o, g, ho, ok, hg, bundles⟩ := process_doubled
  have distinct := (h doubled rfl decoded_doubled _ _ o ho ok ⟨⟨"g:app"⟩, .main, "a.json"⟩ g hg).1
  rw [bundles] at distinct
  exact absurd distinct (by decide)

/-- In `doubled`, `core` was given twice. -/
theorem doubled_repeats_as_given : ∃ o g,
    doubled.process (.start doubled.reactor) ⟨"g:app"⟩ .main = some o ∧
      ((o.session.store ⟨"g:app"⟩).assembled .main).get? "a.json" = some g ∧
      g.Repeats .bundles (.of "org.other" "core" "1") ∧
      doubled.GivenTwice .bundles (.of "org.other" "core" "1") := by
  obtain ⟨o, ho, given, -⟩ :=
    artifacts_repeat_as_given doubled rfl (.start doubled.reactor) [] .start ⟨"g:app"⟩ .main
  rw [asAnswered_eq (b := doubled) (ignoresDependencies_ofTable doubled.reactor _)] at given
  obtain ⟨o', g, ho', -, hg, bundles⟩ := process_doubled
  cases ho.symm.trans ho'
  have twice : g.Repeats .bundles (.of "org.other" "core" "1") := by
    refine ⟨twins.bundles, congrArg some bundles, ?_⟩
    decide
  exact ⟨o, g, ho, hg, twice, given ⟨⟨"g:app"⟩, .main, "a.json"⟩ g hg _ _ twice⟩

end Build

end FeatureAssembly
