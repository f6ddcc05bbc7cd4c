import FeatureAssembly.Proofs.Completion
import FeatureAssembly.Proofs.Confluence
import FeatureAssembly.Proofs.Layers

/-!
# Aggregates

What the declared aggregates of a processed scope are.

**The law** (`Build.aggregates_in_layers`): where no raw feature is at the key of an aggregate, every
declared aggregate of a scope that is processed with success is there, and it is the features that it
selects, laid over each other in the order of their locations. If one of them selects nothing, the
scope is not processed with success.

An aggregate is put into the table that its parts are taken from. It is no part of another, for parts
are not at the keys of aggregates; so what is selected in the end is what was selected when the
aggregate was put together (`Build.Formation`), whatever came between.

What it does not establish: that the selected features do not depend on aggregates. A feature may have
one as its prototype.
-/

set_option autoImplicit false

namespace FeatureAssembly.Build

variable {b : Build} {s : Session} {past : List Event} {key : ModuleKey} {scope : Scope} {m : Module}
  {d : AggregateDecl}

/-- **The keys of aggregates are free**: the source has no raw feature at such a location, whatever
the dependencies of modules are. -/
def KeysFree (b : Build) : Prop :=
  ∀ m ∈ b.reactor.modules, ∀ dependencies scope features location f,
    b.source (m.dependingOn dependencies) scope = .ok features → features.get? location = some f →
      isAggregateKey location = false

theorem KeysFree.asAnswered (free : b.KeysFree) (l : List Event) : (b.asAnswered l).KeysFree :=
  fun m hm _ scope features location f => free m hm _ scope features location f

/-- Where the source ignores dependencies, it is enough to look at each raw feature. -/
theorem keysFree_of_everyFeature (hi : b.source.IgnoresDependencies)
    (all : b.everyFeature (fun n _ => !isAggregateKey n.location) = true) : b.KeysFree := by
  intro m hm dependencies scope features location f taken found
  rw [hi] at taken
  simpa using of_everyFeature all (featureAt_of_source hm taken found)

theorem KeysFree.plain (free : b.KeysFree) {n : Site} {f : Feature} (hf : b.featureAt n = some f) :
    isAggregateKey n.location = false := by
  obtain ⟨m, features, known, taken, found⟩ := exists_source hf
  exact free m (mem_modules_of_get? known).1 m.dependencies n.scope features n.location f taken found

theorem KeysFree.prepared (free : b.KeysFree) (key : ModuleKey) (scope : Scope) (classifier : String) :
    (b.prepared key scope).get? (aggregateKey classifier) = none := by
  cases h : (b.prepared key scope).get? (aggregateKey classifier) with
  | none => rfl
  | some f =>
    obtain ⟨f₀, sourced, -⟩ := get?_prepared h
    have plain := free.plain (n := ⟨key, scope, aggregateKey classifier⟩) sourced
    rw [isAggregateKey_aggregateKey] at plain
    cases plain

/-! ## In between builds -/

namespace Settled

theorem process (hb : b.Regular) (h : b.Settled s past) {o : Outcome}
    (ho : b.process s key scope = some o) (hok : o.result = .ok ()) :
    b.Settled o.session (o.events.reverse ++ past) := by
  obtain ⟨r, s', events⟩ := o
  cases hok
  have each : b.processEach s [(key, scope)] = some ⟨.ok (), s', events⟩ := by
    simp only [Build.processEach, ho, Option.bind_some, andThen, Option.map_some, List.append_nil]
  exact h.processEach hb each rfl

/-- **A declared aggregate of a processed scope** was put together of what it selects now. -/
theorem aggregate (h : b.Settled s past) (free : b.KeysFree) (hm : b.reactor.get? key = some m)
    (hd : d ∈ b.config.aggregatesOf key) (marked : (s.state key d.scope).processed = true) :
    aggregateParts (s.store key) d ≠ [] ∧
      (s.state key d.scope).assembled.get? (aggregateKey d.classifier) =
        some (b.merger.aggregate (aggregateIdentity m d) (aggregateParts (s.store key) d)) := by
  obtain ⟨g, hg⟩ := h.steady.complete key d.scope marked _ _ (.aggregate hm hd rfl rfl rfl)
  cases h.formed key d.scope _ g hg with
  | merged prepared made => cases prepared.symm.trans (free.prepared key d.scope d.classifier)
  | @aggregated m' d' known declared inScope keyed _ _ made selected =>
    cases known.symm.trans hm
    have distinct := (h.steady.opened marked).distinct
    cases distinct.eq_of_aggregateKey m declared hd keyed
    exact ⟨selected, hg.trans (congrArg some made)⟩

/-- What an aggregate selects was selected in the source. -/
theorem exists_selected (h : b.Settled s past) (selected : aggregateParts (s.store key) d ≠ []) :
    ∃ f ∈ (b.sourced key d.scope).values, d.selects f.classifier = true := by
  obtain ⟨g, hg⟩ := List.exists_mem_of_ne_nil _ selected
  obtain ⟨e, he, rfl⟩ := List.mem_map.1 hg
  obtain ⟨there, picked⟩ := List.mem_filter.1 he
  rw [Bool.and_eq_true, Bool.not_eq_true'] at picked
  have formed := h.formed key d.scope e.1 e.2 (SortedMap.get?_of_mem there)
  cases formed with
  | merged prepared made =>
    obtain ⟨f, sourced, named, -⟩ := get?_prepared prepared
    refine ⟨f, SortedMap.mem_values_of_get? sourced, ?_⟩
    rw [Feature.classifier, ← named, ← made.id_eq]
    exact picked.2
  | aggregated _ _ _ keyed =>
    rw [← keyed, isAggregateKey_aggregateKey] at picked
    cases picked.1

end Settled

/-! ## Processing -/

/-- **Aggregates are what they select, in layers**: where no raw feature is at the key of an aggregate,
processing a scope has an outcome in any session that processing scopes of a fresh one comes to
without a failure. If it goes well, the scope is processed, and each aggregate that is declared for a
processed scope is at its key, as the features that it selects there, laid over each other in the order
of their locations; these are some, and the same whatever is at the keys of aggregates. If one that is
declared for the scope selects no raw feature that the source gave, it does not go well. -/
theorem aggregates_in_layers (b : Build) (hb : b.merger = .byPrototype) (free : b.KeysFree)
    (targets : List (ModuleKey × Scope)) (key : ModuleKey) (scope : Scope) :
    ∃ o, b.processEach (.start b.reactor) targets = some o ∧ (o.result = .ok () →
      ∃ o', b.process o.session key scope = some o' ∧
        (o'.result = .ok () → (o'.session.store key).isProcessed scope = true ∧
          ∀ key' m d, b.reactor.get? key' = some m → d ∈ b.config.aggregatesOf key' →
            (o'.session.store key').isProcessed d.scope = true →
              ∃ g, ((o'.session.store key').assembled d.scope).get? (aggregateKey d.classifier) = some g ∧
                g.Layers (aggregateIdentity m d) (aggregateParts (o'.session.store key') d) ∧
                aggregateParts (o'.session.store key') d ≠ [] ∧
                ∀ t : FeatureStore, (∀ location, isAggregateKey location = false →
                  (t.assembled d.scope).get? location =
                    ((o'.session.store key').assembled d.scope).get? location) →
                      aggregateParts t d = aggregateParts (o'.session.store key') d) ∧
        ((∃ d ∈ b.config.aggregatesOf key, d.scope = scope ∧
          ∀ f ∈ ((b.asAnswered (o.events ++ o'.events)).sourced key scope).values,
            d.selects f.classifier = false) → o'.result ≠ .ok ())) := by
  obtain ⟨o, ho⟩ := exists_processEach hb targets (.start b.reactor)
  refine ⟨o, ho, fun hok => ?_⟩
  obtain ⟨o', ho'⟩ := exists_process hb o.session key scope
  -- Both are done by the build with the answers of both.
  have history := (Comes.start.processEach ho).process ho'
  have regular := regular_asAnswered hb (o.events ++ o'.events)
  have answers : ∀ e ∈ o.events ++ o'.events, ¬ b.Unlike (b.asAnswered (o.events ++ o'.events)).source e :=
    fun _ he => alike_asAnswered (history.loads_nodup hb) he
  replace free := free.asAnswered (o.events ++ o'.events)
  have before := (settled_start (b.asAnswered (o.events ++ o'.events))).processEach regular
    (processEach_alike hb ho fun e he => answers e (List.mem_append_left _ he)) hok
  have second := process_alike hb ho' fun e he => answers e (List.mem_append_right _ he)
  refine ⟨o', ho', fun hok' => ⟨?processed, fun key' m d hm hd marked => ?aggregate⟩,
    fun ⟨d, hd, inScope, nothing⟩ hok' => ?empty⟩
  case processed => exact (process_steady regular before.steady second).2 hok'
  case aggregate =>
    have after := before.process regular second hok'
    obtain ⟨selected, there⟩ := after.aggregate free hm hd marked
    refine ⟨_, there, ?_, selected, fun t same => aggregateParts_congr d same⟩
    rw [regular.merger]
    exact Feature.layers_layered _ _
  case empty =>
    subst inScope
    have after := before.process regular second hok'
    have marked := (process_steady regular before.steady second).2 hok'
    obtain ⟨m, hm⟩ := Option.isSome_iff_exists.1 (after.steady.opened marked).known
    obtain ⟨f, hf, selected⟩ := after.exists_selected (after.aggregate free hm hd marked).1
    rw [nothing f hf] at selected
    cases selected

/-- In `followers`, the aggregate of main is made of the one feature that is there. -/
theorem followers_aggregate : ∃ o g,
    followers.process (.start followers.reactor) ⟨"g:app"⟩ .main = some o ∧
      ((o.session.store ⟨"g:app"⟩).assembled .main).get? (aggregateKey "all") = some g ∧
      g.Layers (((Identity.of "g" "app" "1").withType featureType).withClassifier "all")
        (aggregateParts (o.session.store ⟨"g:app"⟩) (.of "all" [AggregateDecl.star])) ∧
      (aggregateParts (o.session.store ⟨"g:app"⟩) (.of "all" [AggregateDecl.star])).map Feature.id =
        [(Identity.of "g" "app" "1").withType featureType] := by
  have free : followers.KeysFree :=
    keysFree_of_everyFeature (ignoresDependencies_ofTable followers.reactor _) (by decide +kernel)
  obtain ⟨o, ho, aggregates⟩ := aggregates_in_layers followers rfl free [] ⟨"g:app"⟩ .main
  cases ho
  obtain ⟨o, ho, complete, -⟩ := aggregates rfl
  have ho : followers.process (.start followers.reactor) ⟨"g:app"⟩ .main = some o := ho
  have run : (followers.process (.start followers.reactor) ⟨"g:app"⟩ .main).map (fun o => (o.result,
      (aggregateParts (o.session.store ⟨"g:app"⟩) (.of "all" [AggregateDecl.star])).map Feature.id)) =
        some (.ok (), [(Identity.of "g" "app" "1").withType featureType]) := by
    decide +kernel
  rw [ho, Option.map_some, Option.some.injEq, Prod.mk.injEq] at run
  obtain ⟨marked, declared⟩ := complete run.1
  obtain ⟨g, there, layers, -⟩ := declared ⟨"g:app"⟩ _ (.of "all" [AggregateDecl.star]) rfl (by decide) marked
  exact ⟨o, g, ho, there, layers, run.2⟩

end FeatureAssembly.Build
