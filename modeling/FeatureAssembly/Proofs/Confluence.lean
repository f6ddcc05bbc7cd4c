import FeatureAssembly.Proofs.Ledger

/-!
# The order does not matter

Two builds of the same reactor that succeed and process the same scopes come to the same thing,
however their calls are ordered or repeated.

**The law** (`Build.successful_builds_agree`): such builds agree on the raw and the assembled
features of every scope, aggregates among them, on the references of every module, and on its
dependencies with their order.

One build is followed move by move, and held against the end of the other (`Build.Move.agrees`):
what it makes is made of what is there, which the other has as well; so it is what the other has in
that place. This needs no order in which features are made, and no second path.

What it does not establish: that two orders succeed alike. One order can fail where another
succeeds.
-/

set_option autoImplicit false

namespace FeatureAssembly.Build

open Relation

variable {b : Build} {s s' : Session} {o o' : Outcome} {key : ModuleKey} {scope : Scope} {location : String}
  {id : Identity} {g g' : Feature}

/-- **A session agrees with another**: the features that it has assembled in scopes that are marked
there are assembled there. -/
def Agrees (s s' : Session) : Prop := ∀ key scope location g,
  (s'.state key scope).processed = true → (s.state key scope).assembled.get? location = some g →
    (s'.state key scope).assembled.get? location = some g

/-- The lookup rule leads to one place. -/
theorem Locates.unique {scope₁ scope₂ : Scope} {location₁ location₂ : String}
    (h₁ : b.Locates scope id scope₁ location₁) (h₂ : b.Locates scope id scope₂ location₂) :
    scope₁ = scope₂ ∧ location₁ = location₂ := by
  have same : scope₁ = scope₂ := by
    by_cases hs₁ : scope₁ = scope
    · rcases h₂.nearest with hs₂ | none
      · rw [hs₁, hs₂]
      · exact absurd (hs₁ ▸ h₁.bears) (none _)
    · by_cases hs₂ : scope₂ = scope
      · exact absurd (hs₂ ▸ h₂.bears) (h₁.nearest.resolve_left hs₁ _)
      · rw [(main_of_mem_visible h₁.visible hs₁).1, (main_of_mem_visible h₂.visible hs₂).1]
  subst same
  exact ⟨rfl, (h₁.distinct _ h₁.visible).location_unique h₁.bears h₂.bears⟩

/-- What is assembled somewhere is in a scope that is marked. -/
theorem Steady.processed_of_assembled (h : b.Steady s)
    (hg : (s.state key scope).assembled.get? location = some g) :
    (s.state key scope).processed = true := by
  cases hp : (s.state key scope).processed with
  | true => rfl
  | false =>
    rw [h.sound.unmarked key scope hp] at hg
    cases hg

/-- **Sessions that agree supply the same.** -/
theorem Supplied.unique (h : b.Supplied s scope id g) (h' : b.Supplied s' scope id g')
    (agrees : Agrees s s') (steady : b.Steady s') : g = g' := by
  cases h with
  | loaded foreign loads =>
    cases h' with
    | loaded _ loads' => exact Except.ok.inj (loads.symm.trans loads')
    | stored owned => cases foreign.symm.trans owned
  | stored owned located named found =>
    cases h' with
    | loaded foreign => cases foreign.symm.trans owned
    | stored _ located' _ found' =>
      obtain ⟨rfl, rfl⟩ := located.unique located'
      have there := agrees _ _ _ _ (steady.processed_of_assembled found') found
      exact Option.some.inj (there.symm.trans found')

/-- **What is made of a location is made of it elsewhere**, in a concluded build that agrees. -/
theorem Formation.unique (h : b.Formation s key scope location g)
    (h' : b.Formation o'.session key scope location g') (agrees : Agrees s o'.session)
    (concluded : b.Concluded o') (marked : (o'.session.state key scope).processed = true) : g = g' := by
  cases h with
  | merged prepared made =>
    cases h' with
    | merged prepared' made' =>
      cases prepared.symm.trans prepared'
      exact made.unique made' fun _ _ _ supplied supplied' =>
        supplied.unique supplied' agrees concluded.steady
    | aggregated _ _ _ _ free => cases prepared.symm.trans free
  | @aggregated m d known declared inScope keyed free raw made =>
    cases h' with
    | merged prepared => cases prepared.symm.trans free
    | @aggregated m' d' known' declared' inScope' keyed' _ _ made' =>
      cases known.symm.trans known'
      have distinct := (concluded.steady.opened marked).distinct
      cases distinct.eq_of_aggregateKey m declared declared' (keyed.trans keyed'.symm)
      subst inScope
      rw [made, made', raw.aggregateParts_eq (fun location g => agrees key _ location g marked)
        fun location g hg => (concluded.booked.formed key _ location g hg).prepared_of_not_key]

/-- **A move keeps a session in agreement** with what another build comes to. -/
theorem Move.agrees {c c' : Stage} (hm : b.Move c c') (formed : b.Formed c.session)
    (concluded : b.Concluded o') (h : Agrees c.session o'.session) : Agrees c'.session o'.session := by
  intro key scope location g marked hg
  have made := hm.forms formed key scope location g hg
  obtain ⟨id, bears⟩ := made.bears
  obtain ⟨g', there⟩ := concluded.steady.complete key scope marked location id bears
  have made' := concluded.booked.formed key scope location g' there
  rw [made.unique made' h concluded marked]
  exact there

theorem agrees_start (r : Reactor) (s : Session) : Agrees (.start r) s := by
  intro key scope location g _ hg
  rw [state_start] at hg
  cases hg

/-! ## Whole builds -/

/-- **A build that succeeds agrees with every other** that does. -/
theorem Concluded.agrees (h : b.Concluded o') (hb : b.Regular)
    {targets : List (ModuleKey × Scope)} (ho : b.processEach (.start b.reactor) targets = some o)
    (hok : o.result = .ok ()) : Agrees o.session o'.session := by
  have step : ∀ c c', b.Move c c' → b.Formed c.session ∧ Agrees c.session o'.session →
      b.Formed c'.session ∧ Agrees c'.session o'.session := fun _ _ hm hc =>
    ⟨hm.formed hc.1, hm.agrees hc.1 h hc.2⟩
  have path := (processEach_follows hb (b.steady_start b.reactor) ho []).path hok
  exact (Path.keeps step path ⟨b.formed_start b.reactor, agrees_start b.reactor _⟩).2

namespace Concluded

variable (h : b.Concluded o) (h' : b.Concluded o')
include h h'

/-- A scope that is processed in both, or in none, is the same in both. -/
theorem state_eq (agrees : Agrees o.session o'.session) (agrees' : Agrees o'.session o.session)
    (same : (o.session.state key scope).processed = (o'.session.state key scope).processed) :
    o.session.state key scope = o'.session.state key scope := by
  have parts : (o.session.state key scope).raw = (o'.session.state key scope).raw ∧
      (o.session.state key scope).assembled = (o'.session.state key scope).assembled := by
    cases hp : (o.session.state key scope).processed with
    | true =>
      have hp' := same.symm.trans hp
      refine ⟨?_, SortedMap.ext_get? fun location => Option.ext fun g => ?_⟩
      · rw [(h.steady.opened hp).raw, (h'.steady.opened hp').raw]
      · exact ⟨agrees key scope location g hp', agrees' key scope location g hp⟩
    | false =>
      have hp' := same.symm.trans hp
      have raw := h.booked.unread key scope fun hr => by cases hp.symm.trans hr.1
      have raw' := h'.booked.unread key scope fun hr => by cases hp'.symm.trans hr.1
      exact ⟨raw.trans raw'.symm,
        (h.steady.sound.unmarked key scope hp).trans (h'.steady.sound.unmarked key scope hp').symm⟩
  cases hs : o.session.state key scope
  cases hs' : o'.session.state key scope
  simp only [hs, hs'] at parts same
  rw [parts.1, parts.2, same]

theorem referencesOf_eq
    (same : ∀ scope, (o.session.state key scope).processed = (o'.session.state key scope).processed) :
    o.session.referencesOf key = o'.session.referencesOf key := by
  refine SortedSet.ext_contains fun id => Bool.eq_iff_iff.2 ?_
  rw [h.booked.contains_referencesOf_iff, h'.booked.contains_referencesOf_iff]
  simp only [same]

theorem dependenciesOf_eq
    (states : ∀ scope, o.session.state key scope = o'.session.state key scope) :
    o.session.dependenciesOf key = o'.session.dependenciesOf key := by
  have listed : o.session.dependencies.get? key = o'.session.dependencies.get? key := by
    refine (h.booked.dependencies key).trans (Eq.trans ?_ (h'.booked.dependencies key).symm)
    refine ledger_congr (fun scope => ?_) fun scope _ => congrArg ScopeState.assembled (states scope)
    rw [closed_atRest_iff, closed_atRest_iff, states]
  rw [Session.dependenciesOf, listed]
  rfl

end Concluded

/-- **Successful builds agree**, if the source ignores dependencies: after any two lists of scopes
processed in turn with success that leave the same scopes processed, all raw and assembled features
are the same, and so are the references and the dependencies of every module, with their order. -/
theorem successful_builds_agree (b : Build) (hb : b.merger = .byPrototype)
    (hi : b.source.IgnoresDependencies) (targets targets' : List (ModuleKey × Scope)) :
    ∃ o o', b.processEach (.start b.reactor) targets = some o ∧
      b.processEach (.start b.reactor) targets' = some o' ∧
      (o.result = .ok () → o'.result = .ok () →
        (∀ key scope, (o.session.store key).isProcessed scope = (o'.session.store key).isProcessed scope) →
        ∀ key,
          (∀ scope, (o.session.store key).raw scope = (o'.session.store key).raw scope ∧
            (o.session.store key).assembled scope = (o'.session.store key).assembled scope) ∧
          o.session.referencesOf key = o'.session.referencesOf key ∧
          o.session.dependenciesOf key = o'.session.dependenciesOf key) := by
  obtain ⟨o, ho⟩ := exists_processEach hb targets (.start b.reactor)
  obtain ⟨o', ho'⟩ := exists_processEach hb targets' (.start b.reactor)
  refine ⟨o, o', ho, ho', fun hok hok' same key => ?_⟩
  have regular : b.Regular := ⟨hb, hi⟩
  have concluded := processEach_concludes regular ho hok
  have concluded' := processEach_concludes regular ho' hok'
  have agrees := concluded'.agrees regular ho hok
  have agrees' := concluded.agrees regular ho' hok'
  have states : ∀ scope, o.session.state key scope = o'.session.state key scope := fun scope =>
    concluded.state_eq concluded' agrees agrees' (same key scope)
  refine ⟨fun scope => ?features, ?references, ?dependencies⟩
  case features =>
    exact ⟨congrArg ScopeState.raw (states scope), congrArg ScopeState.assembled (states scope)⟩
  case references => exact concluded.referencesOf_eq concluded' (same key)
  case dependencies => exact concluded.dependenciesOf_eq concluded' states

/-- A build in which `a`, and `t` in test, refer to `p`, and `app` has an aggregate. -/
def followers : Build :=
  let app : Identity := (Identity.of "g" "app" "1").withType featureType
  let lib : Identity := (Identity.of "g" "lib" "1").withType featureType
  let build := ofTable appAndLib
    [(⟨"g:app"⟩, .main, "a.json", .after app lib),
      (⟨"g:app"⟩, .test, "t.json", .after (app.withClassifier "t") lib),
      (⟨"g:lib"⟩, .main, "p.json", .of lib)]
  { build with config.aggregates := .ofList [(⟨"g:app"⟩, [.of "all" [AggregateDecl.star]])] }

theorem regular_followers : followers.Regular := ⟨rfl, fun _ _ _ => rfl⟩

/-- Whether all scopes of a reactor are processed. -/
def allProcessed (r : Reactor) (s : Session) : Bool :=
  r.modules.all fun m => Scope.all.all (s.store m.key).isProcessed

theorem isProcessed_of_allProcessed {r : Reactor} (h : allProcessed r s = true) {m : Module}
    (hm : m ∈ r.modules) (scope : Scope) : (s.store m.key).isProcessed scope = true :=
  List.all_eq_true.1 (List.all_eq_true.1 h m hm) scope scope.mem_all

/-- Where all scopes of a reactor are processed, they are all that is. -/
theorem Steady.isProcessed_eq (h : b.Steady s) (all : allProcessed b.reactor s = true)
    (key : ModuleKey) (scope : Scope) : (s.store key).isProcessed scope = b.reactor.contains key := by
  refine Bool.eq_iff_iff.2 ⟨fun hp => (h.opened hp).known, fun known => ?_⟩
  obtain ⟨m, hm⟩ := Option.isSome_iff_exists.1 known
  obtain ⟨mem, rfl⟩ := mem_modules_of_get? hm
  exact isProcessed_of_allProcessed all mem scope

/-- In `followers`, `app` comes to the same dependencies, not declared but added, whether `lib` is
processed before it or on its behalf. -/
theorem followers_agree : ∃ o o',
    followers.processEach (.start followers.reactor) [(⟨"g:app"⟩, .test)] = some o ∧
      followers.processEach (.start followers.reactor) [(⟨"g:lib"⟩, .main), (⟨"g:app"⟩, .test)] = some o' ∧
      o.session.dependenciesOf ⟨"g:app"⟩ = o'.session.dependenciesOf ⟨"g:app"⟩ ∧
      (o.session.dependenciesOf ⟨"g:app"⟩).length = 1 ∧
      (o.session.store ⟨"g:app"⟩).assembled .main = (o'.session.store ⟨"g:app"⟩).assembled .main ∧
      ((o.session.store ⟨"g:app"⟩).assembled .main).contains (aggregateKey "all") = true := by
  obtain ⟨o, o', ho, ho', agree⟩ := successful_builds_agree followers rfl
    regular_followers.ignores [(⟨"g:app"⟩, .test)] [(⟨"g:lib"⟩, .main), (⟨"g:app"⟩, .test)]
  have run : (followers.processEach (.start followers.reactor) [(⟨"g:app"⟩, .test)]).map (fun o =>
      (o.result.isOk, allProcessed followers.reactor o.session, (o.session.dependenciesOf ⟨"g:app"⟩).length,
        ((o.session.store ⟨"g:app"⟩).assembled .main).contains (aggregateKey "all"))) =
      some (true, true, 1, true) := by decide +kernel
  have run' : (followers.processEach (.start followers.reactor)
      [(⟨"g:lib"⟩, .main), (⟨"g:app"⟩, .test)]).map (fun o =>
      (o.result.isOk, allProcessed followers.reactor o.session)) = some (true, true) := by decide +kernel
  rw [ho, Option.map_some, Option.some.injEq] at run
  rw [ho', Option.map_some, Option.some.injEq] at run'
  simp only [Prod.mk.injEq] at run run'
  obtain ⟨ok, marked, listed, aggregated⟩ := run
  obtain ⟨ok', marked'⟩ := run'
  have succeeds : ∀ {o : Outcome}, o.result.isOk = true → o.result = .ok () := fun {o} h => by
    cases hr : o.result with
    | ok u => rfl
    | error e => simp [hr, Except.isOk, Except.toBool] at h
  have steady := (processEach_concludes regular_followers ho (succeeds ok)).steady
  have steady' := (processEach_concludes regular_followers ho' (succeeds ok')).steady
  have same : ∀ key scope,
      (o.session.store key).isProcessed scope = (o'.session.store key).isProcessed scope := fun key scope => by
    rw [steady.isProcessed_eq marked, steady'.isProcessed_eq marked']
  obtain ⟨features, -, dependencies⟩ := agree (succeeds ok) (succeeds ok') same ⟨"g:app"⟩
  exact ⟨o, o', ho, ho', dependencies, listed, (features .main).2, aggregated⟩

/-- The build of `followers` with a source that has test features of `app` only when `app` depends on
something. -/
def watchful : Build :=
  followers.withSource fun m scope =>
    if scope = .test ∧ m.dependencies = [] then .ok .empty else followers.source m scope

/-- **Where a source reads dependencies the order matters**: in `watchful` test is empty if it is asked
for before main has added to the dependencies of `app`, and holds a feature if main is processed first,
although both builds succeed and process all scopes. -/
theorem watchful_disagrees : ∃ o o',
    watchful.processEach (.start watchful.reactor) [(⟨"g:app"⟩, .test), (⟨"g:lib"⟩, .test)] = some o ∧
      watchful.processEach (.start watchful.reactor)
        [(⟨"g:app"⟩, .main), (⟨"g:app"⟩, .test), (⟨"g:lib"⟩, .test)] = some o' ∧
      o.result.isOk = true ∧ o'.result.isOk = true ∧
      (∀ m ∈ watchful.reactor.modules, ∀ scope, (o.session.store m.key).isProcessed scope = true ∧
        (o'.session.store m.key).isProcessed scope = true) ∧
      ((o.session.store ⟨"g:app"⟩).raw .test).keys = [] ∧
      ((o'.session.store ⟨"g:app"⟩).raw .test).keys = ["t.json"] := by
  have run : (watchful.processEach (.start watchful.reactor) [(⟨"g:app"⟩, .test), (⟨"g:lib"⟩, .test)]).map
      (fun o => (o.result.isOk, allProcessed watchful.reactor o.session,
        ((o.session.store ⟨"g:app"⟩).raw .test).keys)) =
        some (true, true, []) := by decide +kernel
  have run' : (watchful.processEach (.start watchful.reactor)
      [(⟨"g:app"⟩, .main), (⟨"g:app"⟩, .test), (⟨"g:lib"⟩, .test)]).map
      (fun o => (o.result.isOk, allProcessed watchful.reactor o.session,
        ((o.session.store ⟨"g:app"⟩).raw .test).keys)) =
        some (true, true, ["t.json"]) := by decide +kernel
  obtain ⟨o, ho, h⟩ := Option.map_eq_some_iff.1 run
  obtain ⟨o', ho', h'⟩ := Option.map_eq_some_iff.1 run'
  simp only [Prod.mk.injEq] at h h'
  obtain ⟨ok, processed, empty⟩ := h
  obtain ⟨ok', processed', found⟩ := h'
  refine ⟨o, o', ho, ho', ok, ok', fun m hm scope => ⟨?_, ?_⟩, empty, found⟩
  · exact isProcessed_of_allProcessed processed hm scope
  · exact isProcessed_of_allProcessed processed' hm scope

end FeatureAssembly.Build
