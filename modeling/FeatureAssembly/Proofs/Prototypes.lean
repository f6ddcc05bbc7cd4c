import FeatureAssembly.Proofs.Classifiers
import FeatureAssembly.Proofs.Extension
import Mathlib.Logic.Relation

/-!
# What refers to what

The prototype relation as the source gives it, before anything is assembled: a raw feature
refers to the raw feature that its prototype denotes.

**The lookup rule** (`Build.denoted?`): an identity is looked for in the module that owns
it, in the scope that asks and then, if that is test, in main.

Beside it stands what an assembly makes of it. A feature of another module is only to be had
after that module is processed, so whatever that module has is assembled on the way: a
feature drags along the siblings of what it refers to (`Build.Drags`). Identities come into
flight along such chains, and a request that runs into one of them closes a chain
(`Build.Closes`).

What it does not establish: that a chain with siblings in it is followed by any build. That
depends on what is assembled before.
-/

set_option autoImplicit false

namespace FeatureAssembly

open Relation

/-- **The place of a raw feature.** -/
structure Site where
  module : ModuleKey
  scope : Scope
  location : String
deriving DecidableEq

namespace Build

variable {b : Build}

/-! ## The raw features of the source -/

/-- The raw features that the source has for a scope of a module; none if it has no answer. -/
def sourced (b : Build) (key : ModuleKey) (scope : Scope) : FeatureMap :=
  match b.reactor.get? key with
  | none => .empty
  | some m =>
    match b.source m scope with
    | .ok features => features
    | .error _ => .empty

/-- The raw feature at a site. -/
def featureAt (b : Build) (n : Site) : Option Feature :=
  (b.sourced n.module n.scope).get? n.location

/-- A site that holds a raw feature with an identity. -/
def Carries (b : Build) (n : Site) (id : Identity) : Prop :=
  ∃ f, b.featureAt n = some f ∧ f.id = id

/-- The site, in one scope, of the first raw feature with an identity. -/
def siteIn? (b : Build) (id : Identity) (scope : Scope) : Option Site :=
  ((b.sourced id.moduleKey scope).findById? id).map fun e => ⟨id.moduleKey, scope, e.1⟩

/-- **The lookup rule**: the raw feature that an identity denotes for a scope. -/
def denoted? (b : Build) (scope : Scope) (id : Identity) : Option Site :=
  scope.visible.findSome? (b.siteIn? id)

/-- A raw feature that is not final asks for the identity of its prototype. -/
def Requests (b : Build) (n : Site) (id : Identity) : Prop :=
  ∃ f prototype, b.featureAt n = some f ∧ f.assembled = false ∧ f.prototype = some prototype ∧
    prototype.id = id

/-- **The prototype relation**: a raw feature refers to what its prototype denotes. -/
def Refers (b : Build) (n n' : Site) : Prop :=
  ∃ id, b.Requests n id ∧ b.denoted? n.scope id = some n'

/-- A raw feature drags along what it refers to, and all that is to be seen of another
module that it refers to. -/
def Drags (b : Build) (n n' : Site) : Prop :=
  b.Refers n n' ∨ ∃ id, b.Requests n id ∧ id.moduleKey ≠ n.module ∧ n'.module = id.moduleKey ∧
    n'.scope ∈ n.scope.visible ∧ ∃ f, b.featureAt n' = some f

/-- A build in which `a` refers to `p`, and `q`, beside `p`, refers to `a`. -/
def siblings : Build :=
  let app : Identity := (Identity.of "g" "app" "1").withType featureType
  let lib : Identity := (Identity.of "g" "lib" "1").withType featureType
  ofTable appAndLib
    [(⟨"g:app"⟩, .main, "a.json", .after app lib),
      (⟨"g:lib"⟩, .main, "p.json", .of lib),
      (⟨"g:lib"⟩, .main, "q.json", .after (lib.withClassifier "ext") app)]

/-- The chain of references from a raw feature comes to an end. -/
def Grounded (b : Build) (n : Site) : Prop := Acc (fun m n => b.Refers n m) n

theorem Requests.unique {n : Site} {id id' : Identity} (h : b.Requests n id)
    (h' : b.Requests n id') : id = id' := by
  obtain ⟨f, prototype, hf, -, hp, rfl⟩ := h
  obtain ⟨f', prototype', hf', -, hp', rfl⟩ := h'
  cases hf.symm.trans hf'
  cases hp.symm.trans hp'
  rfl

/-- What the source has, it has for a module of the build. -/
theorem exists_source {key : ModuleKey} {scope : Scope} {location : String} {f : Feature}
    (h : (b.sourced key scope).get? location = some f) : ∃ m features,
      b.reactor.get? key = some m ∧ b.source m scope = .ok features ∧ features.get? location = some f := by
  unfold sourced at h
  split at h
  · cases h
  next m known =>
  split at h
  · next features taken => exact ⟨m, features, known, taken, h⟩
  · cases h

theorem contains_of_get?_sourced {key : ModuleKey} {scope : Scope} {location : String} {f : Feature}
    (h : (b.sourced key scope).get? location = some f) : b.reactor.contains key = true := by
  obtain ⟨m, -, known, -⟩ := exists_source h
  exact Option.isSome_iff_exists.2 ⟨m, known⟩

/-- A check of all raw features of the source. -/
def everyFeature (b : Build) (check : Site → Feature → Bool) : Bool :=
  b.reactor.modules.all fun m => Scope.all.all fun scope =>
    (b.sourced m.key scope).entries.all fun e => check ⟨m.key, scope, e.1⟩ e.2

theorem of_everyFeature {check : Site → Feature → Bool} (h : b.everyFeature check = true) {n : Site}
    {f : Feature} (hf : b.featureAt n = some f) : check n f = true := by
  obtain ⟨m, hm⟩ := Option.isSome_iff_exists.1 (contains_of_get?_sourced hf)
  obtain ⟨mem, hk⟩ := mem_modules_of_get? hm
  have all := List.all_eq_true.1 (List.all_eq_true.1 (List.all_eq_true.1 h m mem) n.scope n.scope.mem_all)
  rw [hk] at all
  exact all _ (SortedMap.get?_eq_some_iff.1 hf)

theorem mem_visible_self (scope : Scope) : scope ∈ scope.visible := by
  cases scope <;> simp [Scope.visible]

theorem mem_visible_test (scope : Scope) : scope ∈ Scope.test.visible := by
  cases scope <;> simp [Scope.visible]

theorem main_mem_visible (scope : Scope) : Scope.main ∈ scope.visible := by
  cases scope <;> simp [Scope.visible]

/-- A scope that is seen and is not the one that looks is main, seen from test. -/
theorem main_of_mem_visible {scope scope' : Scope} (h : scope' ∈ scope.visible) (hne : scope' ≠ scope) :
    scope' = .main ∧ scope = .test := by
  cases scope <;> cases scope' <;> simp_all [Scope.visible]

theorem visible_trans {scope scope' scope'' : Scope} (h : scope' ∈ scope.visible)
    (h' : scope'' ∈ scope'.visible) : scope'' ∈ scope.visible := by
  cases scope <;> cases scope' <;> cases scope'' <;> simp_all [Scope.visible]

theorem siteIn?_eq_some {id : Identity} {scope : Scope} {n : Site} (h : b.siteIn? id scope = some n) :
    n.module = id.moduleKey ∧ n.scope = scope ∧ b.Carries n id := by
  obtain ⟨e, he, rfl⟩ := Option.map_eq_some_iff.1 h
  have hid : e.2.id = id := by simpa using List.find?_some he
  exact ⟨rfl, rfl, e.2, SortedMap.get?_of_mem (List.mem_of_find?_eq_some he), hid⟩

/-- What an identity denotes carries it, and nothing nearer does. -/
theorem denoted?_eq_some {scope : Scope} {id : Identity} {n : Site}
    (h : b.denoted? scope id = some n) :
    n.module = id.moduleKey ∧ n.scope ∈ scope.visible ∧ b.Carries n id ∧
      (n.scope = scope ∨ b.siteIn? id scope = none) := by
  have own : b.siteIn? id scope = some n → n.module = id.moduleKey ∧ n.scope ∈ scope.visible ∧
      b.Carries n id ∧ (n.scope = scope ∨ b.siteIn? id scope = none) := fun h => by
    obtain ⟨hm, hs, hc⟩ := siteIn?_eq_some h
    exact ⟨hm, hs ▸ mem_visible_self _, hc, .inl hs⟩
  unfold denoted? at h
  cases scope with
  | main =>
    simp only [Scope.visible, List.findSome?_cons, List.findSome?_nil] at h
    cases hs : b.siteIn? id .main with
    | none => rw [hs] at h; cases h
    | some n' => rw [hs] at h; cases h; exact hs ▸ own hs
  | test =>
    simp only [Scope.visible, List.findSome?_cons, List.findSome?_nil] at h
    cases hs : b.siteIn? id .test with
    | some n' => rw [hs] at h; cases h; exact hs ▸ own hs
    | none =>
      rw [hs] at h
      cases hs' : b.siteIn? id .main with
      | none => rw [hs'] at h; cases h
      | some n' =>
        rw [hs'] at h
        cases h
        obtain ⟨hm, hn, hc⟩ := siteIn?_eq_some hs'
        exact ⟨hm, by rw [hn]; simp [Scope.visible], hc, .inr rfl⟩

theorem denoted?_of_siteIn? {scope scope' : Scope} {id : Identity} {n : Site}
    (h : b.siteIn? id scope' = some n) (hv : scope' ∈ scope.visible)
    (nearest : scope' = scope ∨ b.siteIn? id scope = none) : b.denoted? scope id = some n := by
  unfold denoted?
  cases scope <;> cases scope' <;> simp_all [Scope.visible]

/-! ## The raw features as they are assembled -/

/-- The raw features of a scope of a module, in main with the packaged unit attached. -/
def prepared (b : Build) (key : ModuleKey) (scope : Scope) : FeatureMap :=
  match b.reactor.get? key, scope with
  | some m, .main => b.withUnit m (b.sourced key .main)
  | _, _ => b.sourced key scope

/-- What is loaded of a module is the same whatever it depends on. -/
theorem load_dependingOn (hi : b.source.IgnoresDependencies) (m : Module) (dependencies : List Dependency)
    (scope : Scope) : b.load (m.dependingOn dependencies) scope = b.load m scope := by
  unfold load
  rw [hi, Module.key_dependingOn]

theorem sourced_of_load {key : ModuleKey} {m : Module} {scope : Scope} {features : FeatureMap}
    (hm : b.reactor.get? key = some m) (hl : b.load m scope = .ok features) :
    b.sourced key scope = features := by
  unfold sourced
  rw [hm]
  simp only [source_of_load hl]

theorem featureAt_of_source {m : Module} (hm : m ∈ b.reactor.modules) {scope : Scope} {features : FeatureMap}
    (taken : b.source m scope = .ok features) {location : String} {f : Feature}
    (found : features.get? location = some f) : b.featureAt ⟨m.key, scope, location⟩ = some f := by
  show (b.sourced m.key scope).get? location = some f
  rwa [sourced_of_load (get?_of_mem_modules hm) (load_of_source taken)]

theorem prepared_main {key : ModuleKey} {m : Module} (hm : b.reactor.get? key = some m) :
    b.prepared key .main = b.withUnit m (b.sourced key .main) := by
  unfold prepared
  rw [hm]

theorem prepared_test (key : ModuleKey) : b.prepared key .test = b.sourced key .test := by
  unfold prepared
  split
  · next h => cases h
  · rfl

/-- Prepared features are at the same locations as those of the source, and agree with them
in identity, prototype and mark. -/
theorem prepared_entries (key : ModuleKey) (scope : Scope) :
    ∃ g : Feature → Feature,
      (∀ f, (g f).id = f.id ∧ (g f).prototype = f.prototype ∧ (g f).assembled = f.assembled) ∧
      (b.prepared key scope).entries = (b.sourced key scope).entries.map fun e => (e.1, g e.2) := by
  unfold prepared
  split
  · exact b.withUnit_entries _ _
  · exact ⟨id, fun _ => ⟨rfl, rfl, rfl⟩, (List.map_id _).symm⟩

theorem get?_prepared {key : ModuleKey} {scope : Scope} {location : String} {f : Feature}
    (h : (b.prepared key scope).get? location = some f) :
    ∃ f₀, (b.sourced key scope).get? location = some f₀ ∧ f.id = f₀.id ∧
      f.prototype = f₀.prototype ∧ f.assembled = f₀.assembled := by
  obtain ⟨g, hg, he⟩ := b.prepared_entries key scope
  have hm := SortedMap.get?_eq_some_iff.1 h
  rw [he] at hm
  obtain ⟨e, he₀, heq⟩ := List.mem_map.1 hm
  cases heq
  exact ⟨e.2, SortedMap.get?_of_mem he₀, hg e.2⟩

theorem get?_prepared_of_sourced {key : ModuleKey} {scope : Scope} {location : String} {f₀ : Feature}
    (h : (b.sourced key scope).get? location = some f₀) :
    ∃ f, (b.prepared key scope).get? location = some f ∧ f.id = f₀.id := by
  obtain ⟨g, hg, he⟩ := b.prepared_entries key scope
  refine ⟨g f₀, SortedMap.get?_eq_some_iff.2 ?_, (hg f₀).1⟩
  rw [he]
  exact List.mem_map.2 ⟨_, SortedMap.get?_eq_some_iff.1 h, rfl⟩

theorem findById?_prepared (key : ModuleKey) (scope : Scope) (id : Identity) :
    ((b.prepared key scope).findById? id).map (·.1) = ((b.sourced key scope).findById? id).map (·.1) := by
  obtain ⟨g, hg, he⟩ := b.prepared_entries key scope
  unfold FeatureMap.findById?
  rw [he, List.find?_map, Option.map_map]
  have same : (fun e : String × Feature => e.2.id == id) ∘ (fun e : String × Feature => (e.1, g e.2)) =
      fun e => e.2.id == id := by
    funext e
    show ((g e.2).id == id) = _
    rw [(hg e.2).1]
  rw [same]
  rfl

/-- Where a prepared feature is found, the source has one. -/
theorem siteIn?_of_findById? {id : Identity} {scope : Scope} {location : String} {f : Feature}
    (h : (b.prepared id.moduleKey scope).findById? id = some (location, f)) :
    b.siteIn? id scope = some ⟨id.moduleKey, scope, location⟩ := by
  have := b.findById?_prepared id.moduleKey scope id
  rw [h, Option.map_some] at this
  obtain ⟨e, he, hl⟩ := Option.map_eq_some_iff.1 this.symm
  unfold siteIn?
  rw [he, Option.map_some, hl]

theorem siteIn?_of_findById?_eq_none {id : Identity} {scope : Scope}
    (h : (b.prepared id.moduleKey scope).findById? id = none) : b.siteIn? id scope = none := by
  have := b.findById?_prepared id.moduleKey scope id
  rw [h, Option.map_none] at this
  unfold siteIn?
  rw [Option.map_eq_none_iff.1 this.symm, Option.map_none]

theorem ne_of_siteIn?_eq_none {id : Identity} {scope : Scope} {location : String} {f : Feature}
    (h : b.siteIn? id scope = none)
    (hf : (b.prepared id.moduleKey scope).get? location = some f) : f.id ≠ id := by
  obtain ⟨f₀, h₀, hid, -⟩ := get?_prepared hf
  rw [hid]
  have absent := List.find?_eq_none.1 (Option.map_eq_none_iff.1 h)
  simpa using absent _ (SortedMap.get?_eq_some_iff.1 h₀)

/-- A prepared feature with a prototype asks for it. -/
theorem requests_of_prepared {n : Site} {f : Feature} {prototype : Prototype}
    (h : (b.prepared n.module n.scope).get? n.location = some f) (hf : f.assembled = false)
    (hp : f.prototype = some prototype) : b.Requests n prototype.id := by
  obtain ⟨f₀, h₀, -, hp₀, ha₀⟩ := get?_prepared h
  exact ⟨f₀, prototype, h₀, ha₀ ▸ hf, hp₀ ▸ hp, rfl⟩

/-- What asks for something is prepared. -/
theorem Requests.prepared {n : Site} {id : Identity} (h : b.Requests n id) :
    ∃ f, (b.prepared n.module n.scope).get? n.location = some f := by
  obtain ⟨f, prototype, hf, -⟩ := h
  obtain ⟨g, hg, -⟩ := get?_prepared_of_sourced hf
  exact ⟨g, hg⟩

theorem requests_iff_of_prepared {n : Site} {f : Feature} {id : Identity}
    (h : (b.prepared n.module n.scope).get? n.location = some f) :
    b.Requests n id ↔
      f.assembled = false ∧ ∃ prototype, f.prototype = some prototype ∧ prototype.id = id := by
  obtain ⟨f₀, h₀, -, hp₀, ha₀⟩ := get?_prepared h
  constructor
  · rintro ⟨f', prototype, hf', ha, hp, rfl⟩
    cases hf'.symm.trans h₀
    exact ⟨ha₀.trans ha, prototype, hp₀.trans hp, rfl⟩
  · rintro ⟨ha, prototype, hp, rfl⟩
    exact requests_of_prepared h ha hp

/-! ## Identities within a module -/

/-- **Within a scope of a module, identities are distinct**: the classifiers of the raw
features and of all declared aggregates are, and no aggregate lacks one. -/
structure Distinct (b : Build) (key : ModuleKey) (scope : Scope) : Prop where
  classified : b.checkAggregates key = .ok ()
  nodup : (Classifiers.ofFeatures (b.prepared key scope) ++
    Classifiers.ofAggregates (b.config.aggregatesOf key)).Nodup

/-- A module that passes the check is distinct. -/
theorem distinct_of_check {key : ModuleKey} {main test : FeatureMap} {scope : Scope}
    (classified : b.checkAggregates key = .ok ()) (h : b.checkClassifiers key main test = .ok ())
    (hs : (match scope with | .main => main | .test => test) = b.sourced key scope) :
    b.Distinct key scope := by
  have same : Classifiers.ofFeatures (b.prepared key scope) =
      Classifiers.ofFeatures (b.sourced key scope) := by
    obtain ⟨g, hg, he⟩ := b.prepared_entries key scope
    unfold Classifiers.ofFeatures SortedMap.values
    rw [he, List.map_map, List.map_map, List.map_map]
    refine List.map_congr_left fun e _ => ?_
    show (g e.2).id.classifier = e.2.id.classifier
    rw [(hg e.2).1]
  refine ⟨classified, ?_⟩
  rw [same, ← hs]
  cases scope with
  | main => exact (Classifiers.distinct_of_checkModule h).1
  | test => exact (Classifiers.distinct_of_checkModule h).2

/-- **A location that an identity belongs to**: a raw feature with that identity is there, or
a declared aggregate is put there. -/
inductive Bears (b : Build) (key : ModuleKey) (scope : Scope) (location : String) (id : Identity) :
    Prop where
  | raw {f : Feature} (found : (b.prepared key scope).get? location = some f) (named : f.id = id)
  | aggregate {m : Module} {d : AggregateDecl} (module : b.reactor.get? key = some m)
      (declared : d ∈ b.config.aggregatesOf key) (inScope : d.scope = scope)
      (keyed : aggregateKey d.classifier = location) (named : aggregateIdentity m d = id)

/-- The classifier of a declared aggregate is that of its identity. -/
theorem classifier_aggregateIdentity {key : ModuleKey} {d : AggregateDecl}
    (h : b.checkAggregates key = .ok ()) (hd : d ∈ b.config.aggregatesOf key) (m : Module) :
    (aggregateIdentity m d).classifier = some d.classifier := by
  have hc : d.classifier ≠ "" := by
    rintro hc
    unfold checkAggregates at h
    rw [if_pos (List.any_eq_true.2 ⟨d, hd, by rw [hc]; rfl⟩)] at h
    cases h
  show (if d.classifier = "" then none else some d.classifier) = _
  rw [if_neg hc]

/-- Features with other classifiers than declared aggregates have other identities. -/
theorem ne_aggregateIdentity_of_nodup {key : ModuleKey} {features : FeatureMap}
    (classified : b.checkAggregates key = .ok ())
    (nodup : (Classifiers.ofFeatures features ++
      Classifiers.ofAggregates (b.config.aggregatesOf key)).Nodup)
    {location : String} {f : Feature} (hf : features.get? location = some f) {d : AggregateDecl}
    (hd : d ∈ b.config.aggregatesOf key) (m : Module) : f.id ≠ aggregateIdentity m d := by
  intro hid
  have hc : f.classifier ∈ Classifiers.ofFeatures features :=
    List.mem_map_of_mem (SortedMap.mem_values_of_get? hf)
  refine (List.nodup_append'.1 nodup).2.2 hc ?_
  unfold Feature.classifier
  rw [hid, classifier_aggregateIdentity classified hd]
  exact List.mem_map_of_mem (f := fun d : AggregateDecl => some d.classifier) hd

namespace Distinct

variable {key : ModuleKey} {scope : Scope} (h : b.Distinct key scope)
include h

/-- No raw feature has the identity of a declared aggregate, of whatever scope. -/
theorem ne_aggregateIdentity {location : String} {f : Feature} {d : AggregateDecl} {m : Module}
    (hf : (b.prepared key scope).get? location = some f) (hd : d ∈ b.config.aggregatesOf key) :
    f.id ≠ aggregateIdentity m d :=
  ne_aggregateIdentity_of_nodup h.classified h.nodup hf hd m

/-- Declared aggregates with the same identity are the same. -/
theorem eq_of_aggregateIdentity {d d' : AggregateDecl} {m : Module}
    (hd : d ∈ b.config.aggregatesOf key) (hd' : d' ∈ b.config.aggregatesOf key)
    (hid : aggregateIdentity m d = aggregateIdentity m d') : d = d' := by
  refine List.inj_on_of_nodup_map (List.nodup_append'.1 h.nodup).2.1 hd hd' ?_
  rw [← classifier_aggregateIdentity h.classified hd m,
    ← classifier_aggregateIdentity h.classified hd' m, hid]

/-- **An identity belongs to one location** of a scope. -/
theorem location_unique {location location' : String} {id : Identity}
    (hb : b.Bears key scope location id) (hb' : b.Bears key scope location' id) :
    location = location' := by
  cases hb with
  | raw found named =>
    cases hb' with
    | raw found' named' =>
      have nodup := (List.nodup_append'.1 h.nodup).1
      exact Classifiers.location_of_nodup nodup found found' (named.trans named'.symm)
    | aggregate _ declared _ _ named' =>
      exact absurd (named.trans named'.symm) (h.ne_aggregateIdentity found declared)
  | aggregate module declared _ keyed named =>
    cases hb' with
    | raw found' named' => exact absurd (named'.trans named.symm) (h.ne_aggregateIdentity found' declared)
    | aggregate module' declared' _ keyed' named' =>
      cases module.symm.trans module'
      cases h.eq_of_aggregateIdentity declared declared' (named.trans named'.symm)
      exact keyed.symm.trans keyed'

/-- The identity of an aggregate in test belongs to nothing in main. -/
theorem not_bears_of_aggregate {d : AggregateDecl} {m : Module} (hm : b.reactor.get? key = some m)
    (hd : d ∈ b.config.aggregatesOf key) (hs : d.scope ≠ scope) (location : String) :
    ¬ b.Bears key scope location (aggregateIdentity m d) := by
  intro hb
  cases hb with
  | raw found named => exact h.ne_aggregateIdentity found hd named
  | aggregate module declared inScope _ named =>
    cases hm.symm.trans module
    cases h.eq_of_aggregateIdentity declared hd named
    exact hs inScope

end Distinct

/-- **Where the lookup rule leads**: to a location that the identity belongs to, in the
nearest scope that has one. -/
structure Locates (b : Build) (scope : Scope) (id : Identity) (scope' : Scope) (location : String) :
    Prop where
  visible : scope' ∈ scope.visible
  bears : b.Bears id.moduleKey scope' location id
  nearest : scope' = scope ∨ ∀ location, ¬ b.Bears id.moduleKey scope location id
  distinct : ∀ scope' ∈ scope.visible, b.Distinct id.moduleKey scope'

/-- A location that a site carries an identity at. -/
theorem Carries.bears {n : Site} {id : Identity} (h : b.Carries n id) :
    b.Bears n.module n.scope n.location id := by
  obtain ⟨f₀, h₀, rfl⟩ := h
  obtain ⟨f, hf, hid⟩ := get?_prepared_of_sourced h₀
  exact .raw hf hid

/-- **The two rules agree**: what an identity denotes is where the lookup leads. -/
theorem Locates.site_eq {scope scope' : Scope} {id : Identity} {location : String} {n : Site}
    (h : b.Locates scope id scope' location) (hn : b.denoted? scope id = some n) :
    n = ⟨id.moduleKey, scope', location⟩ := by
  obtain ⟨module, mem, carries, nearest⟩ := denoted?_eq_some hn
  obtain ⟨key, s, l⟩ := n
  change key = id.moduleKey at module
  subst module
  have bears : b.Bears id.moduleKey s l id := carries.bears
  have same : s = scope' := by
    rcases Decidable.em (s = scope) with rfl | hne
    · exact (h.nearest.resolve_right fun none => none l bears).symm
    · obtain ⟨rfl, rfl⟩ := main_of_mem_visible mem hne
      rcases h.nearest with hs | none
      · subst hs
        have absent := nearest.resolve_left hne
        cases h.bears with
        | raw found named => exact absurd named (ne_of_siteIn?_eq_none absent found)
        | aggregate module declared inScope _ named =>
          -- An aggregate of test could bear the identity there, but main would clash with it.
          exact absurd (named ▸ bears) ((h.distinct .main mem).not_bears_of_aggregate module declared
            (by rw [inScope]; exact Ne.symm hne) l)
      · exact (main_of_mem_visible h.visible fun hs => none _ (hs ▸ h.bears)).1.symm
  subst same
  rw [(h.distinct s h.visible).location_unique bears h.bears]

/-! ## Chains -/

/-- A feature with an identity leads to a site: along references, and along what is dragged
in by them. -/
def Leads (b : Build) (id : Identity) (n : Site) : Prop :=
  ∃ m, b.Carries m id ∧ b.Distinct m.module m.scope ∧ ReflTransGen b.Drags m n

/-- **A closed chain**: a feature that an identity leads to asks for that identity. -/
def Closes (b : Build) (id : Identity) : Prop := ∃ n, b.Leads id n ∧ b.Requests n id

theorem Leads.drags {id : Identity} {n n' : Site} (h : b.Leads id n) (hd : b.Drags n n') :
    b.Leads id n' := by
  obtain ⟨m, hm, distinct, chain⟩ := h
  exact ⟨m, hm, distinct, chain.tail hd⟩

theorem Carries.leads {id : Identity} {n : Site} (h : b.Carries n id)
    (distinct : b.Distinct n.module n.scope) : b.Leads id n :=
  ⟨n, h, distinct, .refl⟩

end Build

end FeatureAssembly
