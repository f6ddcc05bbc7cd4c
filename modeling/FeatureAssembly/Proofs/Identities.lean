import FeatureAssembly.Proofs.Acceptance
import FeatureAssembly.Proofs.Confluence
import FeatureAssembly.Proofs.RawFeatures
import Mathlib.Data.List.ReduceOption

/-!
# Identities of a module

The three passes of a classifier check come to one condition, and what a build may rely on after it:
lookups by identity take the first feature that they meet, and there is only one.

**The law** (`Build.identities_unique`): main and test may each have one feature without classifier,
and all other classifiers of a module, those of its declared aggregates among them, are distinct. So
after a build that went well an identity names one raw feature of a scope, no raw feature has that of
an aggregate, and one with a classifier names one raw feature of main and test together. For that a
merger has to pass errors on, no more. What features of its own it makes is another matter; those that
are assembled by prototype have their identities where the raw ones do.

What it does not establish: that identities without classifier are kept apart between main and test.
A test feature may have the identity of a main feature, and hides it.
-/

set_option autoImplicit false

namespace FeatureAssembly

/-! ## The condition of the check -/

/-- A list has no repetition if what is there has none, and at most one entry is missing. -/
theorem nodup_iff_reduceOption {α : Type} [DecidableEq α] {l : List (Option α)} :
    l.Nodup ↔ l.count none ≤ 1 ∧ l.reduceOption.Nodup := by
  induction l with
  | nil => simp
  | cons a l ih =>
    cases a with
    | none =>
      rw [List.nodup_cons, ih, List.count_cons_self, List.reduceOption_cons_of_none, ← List.count_eq_zero]
      constructor
      · rintro ⟨absent, -, rest⟩
        exact ⟨by omega, rest⟩
      · rintro ⟨few, rest⟩
        exact ⟨by omega, by omega, rest⟩
    | some a =>
      rw [List.nodup_cons, ih, List.count_cons_of_ne (by simp), List.reduceOption_cons_of_some,
        List.nodup_cons, List.reduceOption_mem_iff]
      exact and_left_comm

namespace FeatureMap

/-- How many features have no classifier. -/
def unclassified (features : FeatureMap) : Nat := features.values.countP fun f => f.classifier.isNone

/-- The classifiers of the features that have one. -/
def classifiers (features : FeatureMap) : List String := features.values.filterMap Feature.classifier

end FeatureMap

namespace Classifiers

theorem count_none_ofFeatures (features : FeatureMap) :
    (ofFeatures features).count none = features.unclassified := by
  unfold ofFeatures FeatureMap.unclassified
  rw [List.count, List.countP_map]
  apply List.countP_congr
  intro f _
  simp

theorem reduceOption_ofFeatures (features : FeatureMap) :
    (ofFeatures features).reduceOption = features.classifiers := by
  unfold ofFeatures FeatureMap.classifiers List.reduceOption
  rw [List.filterMap_map]
  rfl

theorem reduceOption_classified (features : FeatureMap) :
    ((ofFeatures features).filter Option.isSome).reduceOption = features.classifiers := by
  rw [← reduceOption_ofFeatures, List.reduceOption, List.filterMap_filter]
  apply List.filterMap_congr
  intro c _
  cases c <;> rfl

theorem reduceOption_ofAggregates (decls : List AggregateDecl) :
    (ofAggregates decls).reduceOption = decls.map AggregateDecl.classifier := by
  unfold ofAggregates List.reduceOption
  rw [List.filterMap_map, ← List.filterMap_eq_map]
  rfl

/-- **What a check amounts to**: at most one feature of each scope has no classifier, and the other
classifiers are distinct, over both scopes and the declared aggregates. -/
theorem checkModule_eq_ok_iff_classifiers {module : ModuleKey} {main test : FeatureMap}
    {decls : List AggregateDecl} : checkModule module main test decls = .ok () ↔
      main.unclassified ≤ 1 ∧ test.unclassified ≤ 1 ∧
        (main.classifiers ++ test.classifiers ++ decls.map AggregateDecl.classifier).Nodup := by
  -- Only main contributes a feature without classifier to what is checked together.
  have bare : (ofFeatures main ++ (ofFeatures test).filter Option.isSome ++ ofAggregates decls).count none =
      main.unclassified := by
    have test : ((ofFeatures test).filter Option.isSome).count none = 0 :=
      List.count_eq_zero.2 fun hm => nomatch (List.mem_filter.1 hm).2
    have decls : (ofAggregates decls).count none = 0 :=
      List.count_eq_zero.2 fun hm => by simp [ofAggregates] at hm
    rw [List.count_append, List.count_append, test, decls, count_none_ofFeatures, Nat.add_zero]
  have joint : (ofFeatures main ++ (ofFeatures test).filter Option.isSome ++ ofAggregates decls).reduceOption =
      main.classifiers ++ test.classifiers ++ decls.map AggregateDecl.classifier := by
    rw [List.reduceOption_append, List.reduceOption_append, reduceOption_ofFeatures, reduceOption_classified,
      reduceOption_ofAggregates]
  rw [checkModule_eq_ok_iff, nodup_iff_reduceOption, nodup_iff_reduceOption, nodup_iff_reduceOption, bare,
    joint, count_none_ofFeatures, count_none_ofFeatures, reduceOption_ofFeatures, reduceOption_ofFeatures]
  constructor
  · rintro ⟨⟨main, -⟩, ⟨test, -⟩, -, all⟩
    exact ⟨main, test, all⟩
  · rintro ⟨main, test, all⟩
    have both := (List.nodup_append'.1 all).1
    exact ⟨⟨main, (List.nodup_append'.1 both).1⟩, ⟨test, (List.nodup_append'.1 both).2.1⟩, main, all⟩

end Classifiers

/-- **A session holds a feature** at a location of a scope, raw or assembled. -/
def Session.Holds (s : Session) (key : ModuleKey) (scope : Scope) (location : String) (f : Feature) : Prop :=
  ((s.store key).raw scope).get? location = some f ∨ ((s.store key).assembled scope).get? location = some f

namespace Build

variable {b : Build} {s : Session} {m : Module} {key : ModuleKey} {scope : Scope} {location location' : String}
  {f f' : Feature} {id : Identity}

/-! ## Where identities belong -/

/-- What is held is where its identity belongs, and the scope is processed. -/
theorem Steady.bears (h : b.Steady s) (onFile : b.OnFile s) (hf : s.Holds key scope location f) :
    b.Bears key scope location f.id ∧ (s.state key scope).processed = true := by
  have processed : (s.state key scope).processed = true := by
    apply Bool.of_not_eq_false
    intro unmarked
    rcases hf with raw | assembled
    · change (s.state key scope).raw.get? location = some f at raw
      rw [onFile.unread key scope unmarked] at raw
      cases raw
    · change (s.state key scope).assembled.get? location = some f at assembled
      rw [h.sound.unmarked key scope unmarked] at assembled
      cases assembled
  have opened := h.opened processed
  refine ⟨?_, processed⟩
  rcases hf with raw | assembled
  · change (s.state key scope).raw.get? location = some f at raw
    rw [opened.raw] at raw
    exact .raw raw rfl
  · exact opened.bears assembled

/-- Features of main and test that are accepted together and share an identity have no classifier. -/
theorem classifier_eq_none_of_accepted {main test : FeatureMap}
    (accepted : b.checkClassifiers key main test = .ok ()) (hf : main.get? location = some f)
    (hf' : test.get? location' = some f') (same : f.id = f'.id) : f.classifier = none := by
  obtain ⟨-, -, distinct⟩ := Classifiers.checkModule_eq_ok_iff_classifiers.1 accepted
  have apart := (List.nodup_append'.1 (List.nodup_append'.1 distinct).1).2.2
  cases hc : f.classifier with
  | none => rfl
  | some c =>
    have hc' : f'.classifier = some c := (congrArg Identity.classifier same).symm.trans hc
    have inMain : c ∈ main.classifiers := List.mem_filterMap.2 ⟨f, SortedMap.mem_values_of_get? hf, hc⟩
    have inTest : c ∈ test.classifiers := List.mem_filterMap.2 ⟨f', SortedMap.mem_values_of_get? hf', hc'⟩
    exact absurd inTest (apart inMain)

namespace Clean

/-- Where a raw feature is, its module is accepted. -/
theorem accepted (h : b.Clean s) (hf : (s.state key scope).raw.get? location = some f) :
    b.Accepted s key := by
  rcases h key with unread | accepted
  · rw [unread scope] at hf
    cases hf
  · exact accepted

theorem nodup (h : b.Clean s) (hf : (s.state key scope).raw.get? location = some f) :
    (Classifiers.ofFeatures (s.state key scope).raw ++
      Classifiers.ofAggregates (b.config.aggregatesOf key)).Nodup := by
  obtain ⟨main, test⟩ := Classifiers.distinct_of_checkModule (h.accepted hf).classifiers
  cases scope with
  | main => exact main
  | test => exact test

/-- In a scope, an identity is that of one raw feature. -/
theorem location_unique (h : b.Clean s) (hf : (s.state key scope).raw.get? location = some f)
    (hf' : (s.state key scope).raw.get? location' = some f') (same : f.id = f'.id) : location = location' :=
  Classifiers.location_of_nodup (List.nodup_append'.1 (h.nodup hf)).1 hf hf' same

/-- No raw feature has the identity of a declared aggregate. -/
theorem ne_aggregateIdentity (h : b.Clean s) (hf : (s.state key scope).raw.get? location = some f)
    {d : AggregateDecl} (hd : d ∈ b.config.aggregatesOf key) (m : Module) : f.id ≠ aggregateIdentity m d :=
  ne_aggregateIdentity_of_nodup (h.accepted hf).declared (h.nodup hf) hf hd m

/-- Raw features of main and test that share an identity have no classifier. -/
theorem classifier_eq_none (h : b.Clean s) (hf : (s.state key .main).raw.get? location = some f)
    (hf' : (s.state key .test).raw.get? location' = some f') (same : f.id = f'.id) : f.classifier = none :=
  classifier_eq_none_of_accepted (h.accepted hf).classifiers hf hf' same

end Clean

/-- **An identity with a classifier belongs to one scope** of a module. -/
theorem Clean.classifier_eq_none_of_bears (h : b.Clean s) (main : b.Opened s key .main)
    (test : b.Opened s key .test) (hb : b.Bears key .main location id) (hb' : b.Bears key .test location' id) :
    id.classifier = none := by
  cases hb with
  | raw found named =>
    cases hb' with
    | raw found' named' =>
      rw [← main.raw] at found
      rw [← test.raw] at found'
      rw [← named]
      exact h.classifier_eq_none found found' (named.trans named'.symm)
    | aggregate _ declared _ _ named' =>
      exact absurd (named.trans named'.symm) (main.distinct.ne_aggregateIdentity found declared)
  | aggregate known declared inScope _ named =>
    cases hb' with
    | raw found' named' =>
      exact absurd (named'.trans named.symm) (test.distinct.ne_aggregateIdentity found' declared)
    | aggregate known' declared' inScope' _ named' =>
      cases known.symm.trans known'
      cases main.distinct.eq_of_aggregateIdentity declared declared' (named.trans named'.symm)
      cases inScope.symm.trans inScope'

/-! ## Whole builds -/

/-- **Identities are unique** where the classifiers of modules are accepted, and they are accepted
exactly if main and test have at most one feature without classifier each, and the classifiers of all
others and of the declared aggregates are distinct.

After scopes were processed in turn, all of them with success and with a merger that passes errors on:
an identity is that of one raw feature of a scope, which does not share it with a declared aggregate,
and raw features of main and test share an identity only without classifier.

With the merger by prototype that is so of assembled features as well: an identity is held at one
location of a scope, and one with a classifier at one location of main and test together. -/
theorem identities_unique (b : Build) :
    (∀ key main test, b.checkClassifiers key main test = .ok () ↔
      main.unclassified ≤ 1 ∧ test.unclassified ≤ 1 ∧
        (main.classifiers ++ test.classifiers ++
          (b.config.aggregatesOf key).map AggregateDecl.classifier).Nodup) ∧
    (b.merger.PassesOn → ∀ targets o, b.processEach (.start b.reactor) targets = some o →
      o.result = .ok () → ∀ key,
        (∀ scope location location' f f', ((o.session.store key).raw scope).get? location = some f →
          ((o.session.store key).raw scope).get? location' = some f' → f.id = f'.id →
          location = location') ∧
        (∀ scope location f, ((o.session.store key).raw scope).get? location = some f →
          ∀ d ∈ b.config.aggregatesOf key, ∀ m, f.id ≠ aggregateIdentity m d) ∧
        ∀ location location' f f', ((o.session.store key).raw .main).get? location = some f →
          ((o.session.store key).raw .test).get? location' = some f' → f.id = f'.id →
          f.classifier = none) ∧
    (b.merger = .byPrototype → ∀ targets, ∃ o, b.processEach (.start b.reactor) targets = some o ∧
      (o.result = .ok () → ∀ key,
        (∀ scope location location' f f', o.session.Holds key scope location f →
          o.session.Holds key scope location' f' → f.id = f'.id → location = location') ∧
        ∀ scope scope' location location' f f', o.session.Holds key scope location f →
          o.session.Holds key scope' location' f' → f.id = f'.id → f.classifier ≠ none →
          scope = scope' ∧ location = location')) := by
  refine ⟨fun _ _ _ => Classifiers.checkModule_eq_ok_iff_classifiers, ?raw, ?held⟩
  case raw =>
    intro passes targets o ho hok key
    have clean := processEach_clean passes (b.clean_start b.reactor) ho hok
    exact ⟨fun _ _ _ _ _ => clean.location_unique, fun _ _ _ hf d hd m => clean.ne_aggregateIdentity hf hd m,
      fun _ _ _ _ => clean.classifier_eq_none⟩
  case held =>
    intro hb targets
    obtain ⟨o, ho⟩ := exists_processEach hb targets (.start b.reactor)
    refine ⟨o, ho, ?_⟩
    intro hok key
    have passes : b.merger.PassesOn := hb ▸ Merger.byPrototype_passesOn
    -- The build with the answers that were given does the same.
    have regular := regular_asAnswered hb o.events
    have answered := processEach_asAnswered hb .start ho
    have clean := processEach_clean (b := b.asAnswered o.events) passes (clean_start _ b.reactor) answered hok
    obtain ⟨steady, -⟩ := (processEach_steady regular (steady_start _ b.reactor) answered).1.2 hok
    have onFile := onFile_of_reached regular (Comes.start.processEach answered).reached
    have within : ∀ scope location location' f f', o.session.Holds key scope location f →
        o.session.Holds key scope location' f' → f.id = f'.id → location = location' := by
      intro scope location location' f f' hf hf' same
      obtain ⟨bears, processed⟩ := steady.bears onFile hf
      obtain ⟨bears', -⟩ := steady.bears onFile hf'
      rw [← same] at bears'
      exact (steady.opened processed).distinct.location_unique bears bears'
    -- The two scopes, main first.
    have across : ∀ location location' f f', o.session.Holds key .main location f →
        o.session.Holds key .test location' f' → f.id = f'.id → f.classifier = none := by
      intro location location' f f' hf hf' same
      obtain ⟨bears, processed⟩ := steady.bears onFile hf
      obtain ⟨bears', processed'⟩ := steady.bears onFile hf'
      rw [← same] at bears'
      exact clean.classifier_eq_none_of_bears (steady.opened processed) (steady.opened processed') bears bears'
    refine ⟨within, ?_⟩
    intro scope scope' location location' f f' hf hf' same classified
    cases scope with
    | main =>
      cases scope' with
      | main => exact ⟨rfl, within _ _ _ _ _ hf hf' same⟩
      | test => exact absurd (across _ _ _ _ hf hf' same) classified
    | test =>
      cases scope' with
      | test => exact ⟨rfl, within _ _ _ _ _ hf hf' same⟩
      | main =>
        have none := across _ _ _ _ hf' hf same.symm
        exact absurd ((congrArg Identity.classifier same).trans none) classified

/-- In `followers`, with both scopes of `app` processed, the identity of `t` is held at its place only,
and it is not that of the aggregate. -/
theorem followers_identities_unique :
    let t : Identity := ((Identity.of "g" "app" "1").withType featureType).withClassifier "t"
    ∃ o, followers.processEach (.start followers.reactor) [(⟨"g:app"⟩, .test)] = some o ∧
      o.result = .ok () ∧
      (∀ scope location f, o.session.Holds ⟨"g:app"⟩ scope location f → f.id = t →
        scope = .test ∧ location = "t.json") ∧
      t ≠ aggregateIdentity (.of "g" "app" "1") (.of "all" [AggregateDecl.star]) := by
  intro t
  obtain ⟨-, raw, held⟩ := identities_unique followers
  obtain ⟨o, ho, unique⟩ := held rfl [(⟨"g:app"⟩, .test)]
  have run : (followers.processEach (.start followers.reactor) [(⟨"g:app"⟩, .test)]).map (fun o =>
      (o.result, (((o.session.store ⟨"g:app"⟩).raw .test).get? "t.json").map Feature.id)) =
        some (.ok (), some t) := by
    decide +kernel
  rw [ho, Option.map_some, Option.some.injEq] at run
  obtain ⟨hok, there⟩ := Prod.mk.inj run
  obtain ⟨f, hf, named⟩ := Option.map_eq_some_iff.1 there
  obtain ⟨-, classified⟩ := unique hok ⟨"g:app"⟩
  refine ⟨o, ho, hok, ?held, ?aggregate⟩
  case held =>
    intro scope location f' hf' named'
    apply classified scope .test location "t.json" f' f hf' (.inl hf) (named'.trans named.symm)
    show f'.id.classifier ≠ none
    rw [named']
    decide
  case aggregate =>
    obtain ⟨-, apart, -⟩ := raw Merger.byPrototype_passesOn _ o ho hok ⟨"g:app"⟩
    rw [← named]
    exact apart .test "t.json" f hf _ (by decide) _

end Build

end FeatureAssembly
