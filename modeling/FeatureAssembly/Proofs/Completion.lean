import FeatureAssembly.Proofs.AssembledStore
import FeatureAssembly.Proofs.BuildOrder
import FeatureAssembly.Proofs.Formation
import FeatureAssembly.Proofs.Nesting

/-!
# Builds of a whole reactor

What a build of all modules leaves behind when it goes well, whatever was processed before it, and
what another one finds.

**The law** (`Build.processAll_complete`): every scope of every module is processed, all that can be
assembled is assembled and final, and building all modules again changes nothing and does nothing.

A scope counts as processed from the moment it is opened, and it may have been opened by an earlier
build or from within another module. That it is complete by the end is what `Build.Steady` says. A
build that starts there meets marked scopes only (`Build.processEach_marked`), for the dependencies
that are added on the way are none that the order looks at.

What it does not establish: that a build of all modules goes well.
-/

set_option autoImplicit false

namespace FeatureAssembly.Build

open Relation Step

variable {b : Build} {s : Session} {targets : List (ModuleKey × Scope)}

/-! ## The schedule -/

/-- The scopes of some modules, one module after the other, main before test. -/
def schedule (order : List ModuleKey) : List (ModuleKey × Scope) :=
  order.flatMap fun key => Scope.all.map fun scope => (key, scope)

theorem schedule_cons (key : ModuleKey) (order : List ModuleKey) :
    schedule (key :: order) = (key, .main) :: (key, .test) :: schedule order := rfl

theorem mem_schedule {order : List ModuleKey} {t : ModuleKey × Scope} :
    t ∈ schedule order ↔ t.1 ∈ order := by
  obtain ⟨key, scope⟩ := t
  cases scope <;> simp [schedule, Scope.all]

/-- A build of all modules processes what its order schedules. -/
theorem processAll_eq {order : List ModuleKey} (h : b.reactor.buildOrder = .ok order) :
    b.processAll s = b.processEach s (schedule order) := by
  unfold processAll
  rw [h]
  rfl

theorem exists_processAll (hb : b.merger = .byPrototype) (s : Session) :
    ∃ o, b.processAll s = some o := by
  unfold processAll
  split
  · exact ⟨_, rfl⟩
  · exact exists_processEach hb _ s

/-- A build of all modules that goes well has an order. -/
theorem exists_buildOrder {o : Outcome} (ho : b.processAll s = some o) (hok : o.result = .ok ()) :
    ∃ order, b.reactor.buildOrder = .ok order := by
  cases h : b.reactor.buildOrder with
  | ok order => exact ⟨order, rfl⟩
  | error e =>
    unfold processAll at ho
    rw [h] at ho
    cases ho
    cases hok

/-! ## Marked scopes -/

/-- A scope that is marked is left alone. -/
theorem process_marked (hb : b.merger = .byPrototype) {key : ModuleKey} {scope : Scope}
    (known : b.reactor.contains key = true) (marked : (s.state key scope).processed = true) :
    b.process s key scope = some ⟨.ok (), s, []⟩ := by
  have ends : Ends True ((b.calls 1).process key scope) ⟨s, .empty, []⟩ _ :=
    ends_processWith_marked known marked
  obtain ⟨r, p, hx, rfl, rfl⟩ := ends_true_iff.1 ends
  exact process_of_depth hb hx

/-- **Marked scopes are left alone**, however many are processed. -/
theorem processEach_marked (hb : b.merger = .byPrototype)
    (h : ∀ t ∈ targets, b.reactor.contains t.1 = true ∧ (s.state t.1 t.2).processed = true) :
    b.processEach s targets = some ⟨.ok (), s, []⟩ := by
  induction targets with
  | nil => rfl
  | cons t rest ih =>
    obtain ⟨known, marked⟩ := h t List.mem_cons_self
    have later := ih fun t ht => h t (List.mem_cons_of_mem _ ht)
    rw [processEach, process_marked hb known marked, Option.bind_some]
    simp only [andThen, later, Option.map_some, List.append_nil]

/-! ## What is there in the end -/

/-- Whatever was formed is final. -/
theorem Formation.finished (hb : b.merger = .byPrototype) {key : ModuleKey} {scope : Scope}
    {location : String} {g : Feature} (h : b.Formation s key scope location g) : g.assembled = true := by
  cases h with
  | merged prepared made => exact made.finished.1
  | aggregated known declared inScope keyed free raw made =>
    rw [made, hb]
    rfl

/-- **Where a build has come to**: in between builds, and at a stage with scopes nested and every
feature formed. -/
structure Settled (b : Build) (s : Session) (past : List Event) : Prop where
  steady : b.Steady s
  nested : Nested (atRest s past)
  formed : b.Formed s

theorem settled_start (b : Build) : b.Settled (.start b.reactor) [] :=
  ⟨b.steady_start _, nested_start _, b.formed_start _⟩

/-- Builds that go well come from one such session to the next. -/
theorem Settled.processEach (hb : b.Regular) {past : List Event} (h : b.Settled s past)
    {o : Outcome} (ho : b.processEach s targets = some o) (hok : o.result = .ok ()) :
    b.Settled o.session (o.events.reverse ++ past) := by
  have path := (processEach_follows hb h.steady ho past).path hok
  have keeps : ∀ c c', b.Move c c' → Nested c ∧ b.Formed c.session → Nested c' ∧ b.Formed c'.session :=
    fun c c' hm hc => ⟨hm.turn.nested hc.1, hm.formed hc.2⟩
  have kept := Path.keeps keeps path ⟨h.nested, h.formed⟩
  exact ⟨((processEach_steady hb h.steady ho).1.2 hok).1, kept.1, kept.2⟩

/-- A raw feature of whatever scope is assembled, if all scopes of the reactor are processed. -/
theorem Settled.isAssembled_of_raw {past : List Event} (h : b.Settled s past) {key : ModuleKey}
    {scope : Scope} {location : String} (hr : ((s.store key).raw scope).contains location = true) :
    (s.store key).isAssembled scope location = true := by
  by_cases hp : (s.store key).isProcessed scope = true
  · exact (h.steady.isAssembled_iff hp location).2 (.inl hr)
  · -- A scope that is not marked was not read.
    have unread : (s.state key scope).raw = .empty := h.nested.unread key scope fun read => hp read.1
    rw [show (s.store key).raw scope = .empty from unread] at hr
    cases hr

/-- **A build of all modules is complete, and doing it again changes nothing**: in any session that
processing scopes of a fresh one comes to without a failure, a build of all modules has an outcome;
and if it went well, all scopes of all modules are processed, all raw features and all declared
aggregates are assembled, all that is assembled is final, and another build of all modules goes well
with nothing done and the session as it was. -/
theorem processAll_complete (b : Build) (hb : b.merger = .byPrototype)
    (targets : List (ModuleKey × Scope)) :
    ∃ o, b.processEach (.start b.reactor) targets = some o ∧
      ∃ o', b.processAll o.session = some o' ∧
        (o.result = .ok () → o'.result = .ok () →
          (∀ m ∈ b.reactor.modules, ∀ scope, (o'.session.store m.key).isProcessed scope = true) ∧
          (∀ key scope location, ((o'.session.store key).raw scope).contains location = true →
            (o'.session.store key).isAssembled scope location = true) ∧
          (∀ m ∈ b.reactor.modules, ∀ d ∈ b.config.aggregatesOf m.key,
            (o'.session.store m.key).isAssembled d.scope (aggregateKey d.classifier) = true) ∧
          (∀ key scope location g,
            ((o'.session.store key).assembled scope).get? location = some g → g.assembled = true) ∧
          b.processAll o'.session = some ⟨.ok (), o'.session, []⟩) := by
  obtain ⟨o, ho⟩ := exists_processEach hb targets (.start b.reactor)
  obtain ⟨o', ho'⟩ := exists_processAll hb o.session
  refine ⟨o, ho, o', ho', fun hok hok' => ?_⟩
  obtain ⟨order, horder⟩ := exists_buildOrder ho' hok'
  rw [processAll_eq horder] at ho'
  -- Both are done by the build with the answers of both.
  have history := Comes.start.processEach ho
  have regular := regular_asAnswered hb (o.events ++ o'.events)
  have first := processEach_alike hb ho fun _ he =>
    alike_asAnswered ((history.processEach ho').loads_nodup hb) (List.mem_append_left _ he)
  have second := processEach_asAnswered hb history ho'
  have before := (settled_start (b.asAnswered (o.events ++ o'.events))).processEach regular first hok
  have after := before.processEach regular second hok'
  have marked := (processEach_steady regular before.steady second).2 hok'
  have processed : ∀ m ∈ b.reactor.modules, ∀ scope, (o'.session.store m.key).isProcessed scope = true :=
    fun m hm scope => marked (m.key, scope) (mem_schedule.2 (b.reactor.mem_of_buildOrder horder m hm))
  refine ⟨processed, fun key scope location hr => after.isAssembled_of_raw hr, fun m hm d hd => ?aggregates,
    fun key scope location g hg => (after.formed key scope location g hg).finished regular.merger, ?again⟩
  case aggregates =>
    exact (after.steady.isAssembled_iff (processed m hm d.scope) _).2 (.inr ⟨d, hd, rfl, rfl⟩)
  case again =>
    rw [processAll_eq horder]
    refine processEach_marked hb fun t ht => ⟨?_, marked t ht⟩
    exact b.reactor.contains_of_mem_buildOrder horder (mem_schedule.1 ht)

/-- In `siblings`, with `lib` processed first, a build of all modules goes well, and then again with
nothing done. -/
theorem siblings_complete : ∃ o o',
    siblings.processEach (.start siblings.reactor) [(⟨"g:lib"⟩, .main)] = some o ∧
      siblings.processAll o.session = some o' ∧
      siblings.processAll o'.session = some ⟨.ok (), o'.session, []⟩ := by
  obtain ⟨o, ho, o', ho', complete⟩ := processAll_complete siblings rfl [(⟨"g:lib"⟩, .main)]
  have run : ((siblings.processEach (.start siblings.reactor) [(⟨"g:lib"⟩, .main)]).map fun o =>
      (o.result, (siblings.processAll o.session).map fun o => o.result)) =
        some (.ok (), some (.ok ())) := by
    decide +kernel
  rw [ho, Option.map_some, ho', Option.map_some, Option.some.injEq, Prod.mk.injEq, Option.some.injEq] at run
  obtain ⟨-, -, -, -, again⟩ := complete run.1 run.2
  exact ⟨o, o', ho, ho', again⟩

end FeatureAssembly.Build
