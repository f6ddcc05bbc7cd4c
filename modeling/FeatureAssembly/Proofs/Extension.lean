import Mathlib.Data.List.Nodup
import FeatureAssembly.Proofs.Pieces
import FeatureAssembly.Proofs.SortedMap

/-!
# What an assembly leaves alone

An assembly only adds to a session, whatever session it starts from: marks stay, the raw
features of a marked scope stay, an assembled feature stays at its location, and on behalf
of main nothing in test is touched (`Session.Extends`). Here are the changes that a session
undergoes, each with what it leaves alone; that whole assemblies leave it alone is a matter
of their steps.

A session has raw features from two places, the session before and the source. So the
identities that raw features ever have can be listed in advance (`Session.RawsWithin`).
-/

set_option autoImplicit false

namespace FeatureAssembly

open Step

/-! ## Growing scopes -/

/-- **A scope has grown**: its mark stays, its raw features stay once it is marked, and
assembled features stay at their locations. -/
structure ScopeState.Extends (t t' : ScopeState) : Prop where
  processed : t.processed = true → t'.processed = true
  raw : t.processed = true → t'.raw = t.raw
  assembled : ∀ {location : String} {f : Feature},
    t.assembled.get? location = some f → t'.assembled.get? location = some f

namespace ScopeState.Extends

variable {t t' t'' : ScopeState}

theorem refl (t : ScopeState) : t.Extends t := ⟨id, fun _ => rfl, id⟩

theorem trans (h : t.Extends t') (h' : t'.Extends t'') : t.Extends t'' where
  processed hp := h'.processed (h.processed hp)
  raw hp := (h'.raw (h.processed hp)).trans (h.raw hp)
  assembled ha := h'.assembled (h.assembled ha)

end ScopeState.Extends

namespace Session

/-- What is known of a scope of a module. -/
def state (s : Session) (key : ModuleKey) (scope : Scope) : ScopeState :=
  (s.store key).state scope

/-- The scopes after a change of one of them. -/
theorem state_modifyStore (s : Session) (key key' : ModuleKey) (scope scope' : Scope)
    (f : ScopeState → ScopeState) :
    (s.modifyStore key fun t => t.modify scope f).state key' scope' =
      if key' = key ∧ scope' = scope then f (s.state key scope) else s.state key' scope' := by
  unfold state
  rw [store_modifyStore]
  by_cases hk : key' = key
  · subst hk
    rw [if_pos rfl, FeatureStore.state_modify]
    by_cases hs : scope' = scope <;> simp [hs]
  · rw [if_neg hk, if_neg fun h => hk h.1]

theorem state_modifyStore_self (s : Session) (key : ModuleKey) (scope : Scope)
    (f : ScopeState → ScopeState) :
    (s.modifyStore key fun t => t.modify scope f).state key scope = f (s.state key scope) := by
  rw [state_modifyStore, if_pos ⟨rfl, rfl⟩]

theorem state_modifyStore_of_ne (s : Session) {key key' : ModuleKey} {scope scope' : Scope}
    (f : ScopeState → ScopeState) (h : ¬ (key' = key ∧ scope' = scope)) :
    (s.modifyStore key fun t => t.modify scope f).state key' scope' = s.state key' scope' := by
  rw [state_modifyStore, if_neg h]

/-- What a change leaves alone in the scope that it changes, it leaves alone everywhere. -/
theorem view_modifyStore (s : Session) {α : Type} (view : ScopeState → α) {key : ModuleKey}
    {scope : Scope} {f : ScopeState → ScopeState}
    (hf : view (f (s.state key scope)) = view (s.state key scope)) (key' : ModuleKey) (scope' : Scope) :
    view ((s.modifyStore key fun t => t.modify scope f).state key' scope') =
      view (s.state key' scope') := by
  rw [state_modifyStore]
  split
  · next hk => rw [hk.1, hk.2, hf]
  · rfl

section Fields

variable (s : Session) (key key' : ModuleKey) (scope scope' : Scope) (features : FeatureMap)

theorem raw_setRaw :
    ((s.modifyStore key fun t => t.setRaw scope features).state key scope).raw = features :=
  congrArg ScopeState.raw (s.state_modifyStore_self key scope _)

@[simp] theorem processed_setRaw :
    ((s.modifyStore key fun t => t.setRaw scope features).state key' scope').processed =
      (s.state key' scope').processed :=
  s.view_modifyStore ScopeState.processed rfl key' scope'

@[simp] theorem assembled_setRaw :
    ((s.modifyStore key fun t => t.setRaw scope features).state key' scope').assembled =
      (s.state key' scope').assembled :=
  s.view_modifyStore ScopeState.assembled rfl key' scope'

@[simp] theorem processed_recordAssembled (location : String) (f : Feature) :
    ((s.modifyStore key fun t => t.recordAssembled scope location f).state key' scope').processed =
      (s.state key' scope').processed :=
  s.view_modifyStore ScopeState.processed rfl key' scope'

theorem processed_markProcessed :
    ((s.modifyStore key fun t => t.markProcessed scope).state key' scope').processed = true ↔
      (key', scope') = (key, scope) ∨ (s.state key' scope').processed = true := by
  unfold FeatureStore.markProcessed
  rw [state_modifyStore]
  split
  · next hk => simp [hk.1, hk.2]
  · next hk => simp [hk]

/-- What is assembled then was so before, or it is what was recorded. -/
theorem assembled_recordAssembled {location location' : String} {f f' : Feature}
    (h : ((s.modifyStore key fun t => t.recordAssembled scope location f).state key' scope').assembled.get?
      location' = some f') :
    (s.state key' scope').assembled.get? location' = some f' ∨
      key' = key ∧ scope' = scope ∧ location' = location ∧ f' = f := by
  unfold FeatureStore.recordAssembled at h
  rw [state_modifyStore] at h
  split at h
  · next hk =>
    obtain ⟨rfl, rfl⟩ := hk
    rw [SortedMap.get?_insertIfNew] at h
    split at h
    · next hl =>
      subst hl
      cases old : (s.state key' scope').assembled.get? location' with
      | none => rw [old] at h; exact .inr ⟨rfl, rfl, rfl, (Option.some.inj h).symm⟩
      | some f₀ => rw [old] at h; exact .inl h
    · exact .inl h
  · exact .inl h

end Fields

theorem state_eq_of_store_eq {s s' : Session} (h : ∀ key, s'.store key = s.store key)
    (key : ModuleKey) (scope : Scope) : s'.state key scope = s.state key scope := by
  unfold state
  rw [h]

/-- Assembled features stay at their locations. -/
def Retains (s s' : Session) : Prop := ∀ key scope location f,
  (s.state key scope).assembled.get? location = some f →
    (s'.state key scope).assembled.get? location = some f

theorem Retains.trans {s s' s'' : Session} (h : s.Retains s') (h' : s'.Retains s'') : s.Retains s'' :=
  fun key scope location f hf => h' key scope location f (h key scope location f hf)

/-- **A session has grown** on behalf of a scope. -/
structure Extends (scope : Scope) (s s' : Session) : Prop where
  state : ∀ key scope', (s.state key scope').Extends (s'.state key scope')
  test : scope = .main → ∀ key, s'.state key .test = s.state key .test

namespace Extends

variable {scope scope' : Scope} {s s' s'' : Session}

theorem refl (scope : Scope) (s : Session) : s.Extends scope s :=
  ⟨fun _ _ => .refl _, fun _ _ => rfl⟩

theorem trans (h : s.Extends scope s') (h' : s'.Extends scope s'') : s.Extends scope s'' :=
  ⟨fun key scope => (h.state key scope).trans (h'.state key scope),
    fun hm key => (h'.test hm key).trans (h.test hm key)⟩

/-- What grows on behalf of main grows on behalf of test. -/
theorem weaken (h : s.Extends scope s') (hs : scope' = .main → scope = .main) :
    s.Extends scope' s' :=
  ⟨h.state, fun hm => h.test (hs hm)⟩

theorem retains (h : s.Extends scope s') : s.Retains s' :=
  fun key scope _ _ hf => (h.state key scope).assembled hf

theorem of_state_eq (h : ∀ key scope, s'.state key scope = s.state key scope) :
    s.Extends scope s' :=
  ⟨fun key scope => by rw [h]; exact .refl _, fun _ key => h key .test⟩

theorem of_store_eq (h : ∀ key, s'.store key = s.store key) : s.Extends scope s' :=
  of_state_eq (state_eq_of_store_eq h)

/-- A change of one scope that grows it. -/
theorem modify {key : ModuleKey} {f : ScopeState → ScopeState} (h : s.Extends scope s')
    (hf : (s.state key scope).Extends (f (s'.state key scope))) :
    s.Extends scope (s'.modifyStore key fun t => t.modify scope f) where
  state key' scope' := by
    rw [state_modifyStore]
    split
    · next hk => rw [hk.1, hk.2]; exact hf
    · exact h.state key' scope'
  test hm key' := by
    rw [state_modifyStore, if_neg (by rw [hm]; exact fun hk => nomatch hk.2)]
    exact h.test hm key'

theorem markProcessed (h : s.Extends scope s') (key : ModuleKey) :
    s.Extends scope (s'.modifyStore key fun t => t.markProcessed scope) :=
  h.modify ⟨fun _ => rfl, (h.state key scope).raw, (h.state key scope).assembled⟩

/-- The raw features of a scope that was not marked may change. -/
theorem setRaw (h : s.Extends scope s') {key : ModuleKey}
    (hn : (s.state key scope).processed = false) (features : FeatureMap) :
    s.Extends scope (s'.modifyStore key fun t => t.setRaw scope features) :=
  h.modify ⟨(h.state key scope).processed, fun hp => absurd hp (by simp [hn]),
    (h.state key scope).assembled⟩

theorem recordAssembled (h : s.Extends scope s') (key : ModuleKey) (location : String)
    (f : Feature) :
    s.Extends scope (s'.modifyStore key fun t => t.recordAssembled scope location f) :=
  h.modify ⟨(h.state key scope).processed, (h.state key scope).raw,
    fun ha => SortedMap.get?_insertIfNew_of_some ((h.state key scope).assembled ha)⟩

end Extends

/-! ## Changes that leave the features alone -/

theorem get?_ensureDependency (s : Session) (owner key : ModuleKey) (id : Identity) (word : String) :
    (s.ensureDependency owner id word).dependencies.get? key =
      if key = owner then (s.dependencies.get? owner).map fun listed => Dependency.ensure owner listed id word
      else s.dependencies.get? key := by
  unfold ensureDependency
  cases h : s.dependencies.get? owner with
  | none =>
    by_cases hk : key = owner
    · subst hk
      simp [h]
    · simp [hk]
  | some listed => simp only [SortedMap.get?_insert_eq, Option.map_some]

theorem store_report (s : Session) (d : Diagnostic) (key : ModuleKey) :
    (s.report d).store key = s.store key := rfl

theorem store_ensureDependency (s : Session) (owner : ModuleKey) (id : Identity) (word : String)
    (key : ModuleKey) : (s.ensureDependency owner id word).store key = s.store key := by
  unfold ensureDependency
  split <;> rfl

theorem references_ensureDependency (s : Session) (owner : ModuleKey) (id : Identity)
    (word : String) : (s.ensureDependency owner id word).references = s.references := by
  unfold ensureDependency
  split <;> rfl

theorem diagnostics_ensureDependency (s : Session) (owner : ModuleKey) (id : Identity)
    (word : String) : (s.ensureDependency owner id word).diagnostics = s.diagnostics := by
  unfold ensureDependency
  split <;> rfl

end Session

namespace Build

variable {b : Build}

theorem store_augmented (b : Build) (owner : ModuleKey) (scope : Scope) (s : Session) (key : ModuleKey) :
    (b.augmented owner scope s).store key = s.store key := by
  unfold augmented augment
  split
  · rfl
  · generalize referenced s owner scope = ids
    induction ids generalizing s with
    | nil => rfl
    | cons id rest ih => exact (ih _).trans (s.store_ensureDependency owner id _ key)

theorem diagnostics_augmented (owner : ModuleKey) (scope : Scope) (s : Session) :
    (b.augmented owner scope s).diagnostics = s.diagnostics := by
  unfold augmented augment
  split
  · rfl
  · generalize referenced s owner scope = ids
    induction ids generalizing s with
    | nil => rfl
    | cons id rest ih => exact (ih _).trans (s.diagnostics_ensureDependency owner id _)

theorem references_augmented (owner : ModuleKey) (scope : Scope) (s : Session) :
    (b.augmented owner scope s).references = s.references := by
  unfold augmented augment
  split
  · rfl
  · generalize referenced s owner scope = ids
    induction ids generalizing s with
    | nil => rfl
    | cons id rest ih => exact (ih _).trans (s.references_ensureDependency owner id _)

/-- Nothing is added to the dependencies of other modules. -/
theorem dependenciesOf_augmented_of_ne {owner key : ModuleKey} (h : key ≠ owner) (scope : Scope)
    (s : Session) : (b.augmented owner scope s).dependenciesOf key = s.dependenciesOf key := by
  unfold augmented augment
  split
  · rfl
  · generalize referenced s owner scope = ids
    induction ids generalizing s with
    | nil => rfl
    | cons id rest ih =>
      refine (ih _).trans ?_
      unfold Session.dependenciesOf
      rw [Session.get?_ensureDependency, if_neg h]

theorem store_withReference (owner : ModuleKey) (id : Identity) (s : Session) (key : ModuleKey) :
    (withReference owner id s).store key = s.store key := by
  unfold withReference
  split <;> rfl

/-- A module refers to what it referred to before, and to what was recorded. -/
theorem contains_withReference_iff {owner key : ModuleKey} {id id' : Identity} {s : Session} :
    ((withReference owner id s).referencesOf key).contains id' = true ↔
      (s.referencesOf key).contains id' = true ∨ key = owner ∧ id' = id ∧ id.isOwnedBy owner = false := by
  unfold withReference
  cases ho : id.isOwnedBy owner with
  | true => simp
  | false =>
    have set : ((s.recordReference owner id).referencesOf key) =
        if key = owner then (s.referencesOf owner).add id else s.referencesOf key := by
      unfold Session.recordReference Session.referencesOf
      simp only [SortedMap.get?_insert_eq]
      split <;> rfl
    simp only [Bool.false_eq_true, if_false, set]
    by_cases hk : key = owner
    · subst hk
      simp [SortedSet.contains_add, or_comm]
    · simp [hk]

theorem dependencies_withReference (owner : ModuleKey) (id : Identity) (s : Session) :
    (withReference owner id s).dependencies = s.dependencies := by
  unfold withReference
  split <;> rfl

theorem diagnostics_withReference (owner : ModuleKey) (id : Identity) (s : Session) :
    (withReference owner id s).diagnostics = s.diagnostics := by
  unfold withReference
  split <;> rfl

end Build

/-! ## Raw features -/

/-- The raw feature with an identity and a prototype, and nothing else. -/
def Feature.after (id prototype : Identity) : Feature :=
  { Feature.of id with prototype := some ⟨prototype, [], []⟩ }

namespace Build

variable {b : Build}

/-- A reactor of two modules that do not depend on each other. -/
def appAndLib : Reactor := ⟨[.of "g" "app" "1", .of "g" "lib" "1"], by decide, by decide⟩

/-- The build by prototype of a table of raw features, told nothing, with nothing outside. -/
def ofTable (r : Reactor) (table : List (ModuleKey × Scope × String × Feature)) : Build where
  reactor := r
  config := .default
  merger := .byPrototype
  loader := .ofTable .empty
  source m scope :=
    .ok (.ofList ((table.filter fun e => e.1 == m.key && e.2.1 == scope).map fun e => e.2.2))

theorem ignoresDependencies_ofTable (r : Reactor)
    (table : List (ModuleKey × Scope × String × Feature)) :
    (ofTable r table).source.IgnoresDependencies := fun _ _ _ => rfl

/-- The source has no raw features but those with an identity from a list, whatever the dependencies
of modules are. -/
def Lists (b : Build) (ids : List Identity) : Prop :=
  ∀ m dependencies scope features, m ∈ b.reactor.modules →
    b.source (m.dependingOn dependencies) scope = .ok features → ∀ f ∈ features.values, f.id ∈ ids

theorem id_mem_withUnit {ids : List Identity} {m : Module} {features : FeatureMap}
    (h : ∀ f ∈ features.values, f.id ∈ ids) : ∀ f ∈ (b.withUnit m features).values, f.id ∈ ids := by
  obtain ⟨g, hg, he⟩ := b.withUnit_entries m features
  intro f hf
  obtain ⟨e, hm, rfl⟩ := List.mem_map.1 hf
  rw [he] at hm
  obtain ⟨e', hm', rfl⟩ := List.mem_map.1 hm
  rw [(hg e'.2).1]
  exact h _ (List.mem_map_of_mem hm')

theorem mem_modules_of_get? {key : ModuleKey} {m : Module} (h : b.reactor.get? key = some m) :
    m ∈ b.reactor.modules ∧ m.key = key :=
  ⟨List.mem_of_find?_eq_some h, by simpa using List.find?_some h⟩

/-- A module of the reactor is found by its key. -/
theorem get?_of_mem_modules {m : Module} (h : m ∈ b.reactor.modules) : b.reactor.get? m.key = some m := by
  cases hf : b.reactor.get? m.key with
  | none => exact absurd (List.find?_eq_none.1 hf m h) (by simp)
  | some m' =>
    obtain ⟨h', same⟩ := mem_modules_of_get? hf
    rw [List.inj_on_of_nodup_map b.reactor.distinct h' h same]

theorem contains_of_mem_modules {m : Module} (h : m ∈ b.reactor.modules) :
    b.reactor.contains m.key = true := by
  unfold Reactor.contains
  rw [get?_of_mem_modules h]
  rfl

theorem source_of_load {m : Module} {scope : Scope} {features : FeatureMap}
    (h : b.load m scope = .ok features) : b.source m scope = .ok features := by
  unfold load at h
  cases hs : b.source m scope with
  | error e => rw [hs] at h; cases h
  | ok found => rw [hs] at h; cases h; rfl

theorem load_of_source {m : Module} {scope : Scope} {features : FeatureMap}
    (h : b.source m scope = .ok features) : b.load m scope = .ok features :=
  congrArg (Except.mapError _) h

end Build

/-- A session has no raw features but those with an identity from a list. -/
def Session.RawsWithin (ids : List Identity) (s : Session) : Prop :=
  ∀ key scope, ∀ f ∈ (s.state key scope).raw.values, f.id ∈ ids

namespace Session.RawsWithin

variable {ids : List Identity} {s s' : Session}

theorem of_state_eq (h : s.RawsWithin ids) (hs : ∀ key scope, s'.state key scope = s.state key scope) :
    s'.RawsWithin ids := fun key scope => by
  rw [hs]
  exact h key scope

theorem modify {key : ModuleKey} {scope : Scope} {f : ScopeState → ScopeState}
    (h : s.RawsWithin ids) (hf : ∀ g ∈ (f (s.state key scope)).raw.values, g.id ∈ ids) :
    (s.modifyStore key fun t => t.modify scope f).RawsWithin ids := fun key' scope' => by
  rw [state_modifyStore]
  split
  · exact hf
  · exact h key' scope'

end Session.RawsWithin

end FeatureAssembly
