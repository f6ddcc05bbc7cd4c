import FeatureAssembly.Proofs.Termination

/-!
# Builds with their answers

What is done in a fresh session, call by call and also after failures, has a history
(`Build.Comes`). In all of it the source is asked once at most for a scope. So the same is done by a
build whose source ignores dependencies, and has the answers that were given (`Build.asAnswered`).

**The law** (`Build.Comes.asAnswered`): whatever a build comes to, the build with its answers comes
to by the same history. So what holds of all builds whose sources ignore dependencies
(`Build.Regular`) holds of any build with its answers.

What it does not establish: that a build does the same again in another order. Its source may be
asked with other dependencies then.
-/

set_option autoImplicit false

namespace FeatureAssembly

open Step

/-- **A session that builds come to**: the fresh one, and whatever the processing of a scope
leaves behind, also if it failed. -/
inductive Session.Reached (r : Reactor) (builds : Build → Prop) : Session → Prop
  | start : Session.Reached r builds (.start r)
  | process {b : Build} {s : Session} {key : ModuleKey} {scope : Scope} {o : Outcome}
    (reached : Session.Reached r builds s) (admitted : builds b)
    (ends : b.process s key scope = some o) : Session.Reached r builds o.session

namespace Build

/-- **A regular build** has the merger by prototype and a source that ignores dependencies. -/
structure Regular (b : Build) : Prop where
  merger : b.merger = .byPrototype
  ignores : b.source.IgnoresDependencies

variable {b : Build} {s : Session} {l t : List Event} {key : ModuleKey} {scope : Scope} {o : Outcome}
  {targets : List (ModuleKey × Scope)} {source : FeatureSource}

theorem regular_asAnswered (hb : b.merger = .byPrototype) (l : List Event) : (b.asAnswered l).Regular :=
  ⟨hb, b.ignoresDependencies_asAnswered l⟩

/-! ## Single calls -/

/-- What is asked for in the course of a call. -/
theorem asks_of_process (hb : b.merger = .byPrototype) (ho : b.process s key scope = some o) :
    s.Asks b.reactor o.session [] o.events.reverse := by
  obtain ⟨depth, r, q, hx, rfl⟩ := exists_depth_of_process ho
  obtain ⟨_, kept⟩ := kept_of_call hb (.process key scope) hx
  rw [List.reverse_reverse]
  exact kept.asks

/-- A source that answers all questions of a call alike comes to the same. -/
theorem process_alike (hb : b.merger = .byPrototype) (ho : b.process s key scope = some o)
    (alike : ∀ e ∈ o.events, ¬ b.Unlike source e) : (b.withSource source).process s key scope = some o := by
  obtain ⟨depth, r, q, hx, rfl⟩ := exists_depth_of_process ho
  refine process_of_depth (b := b.withSource source) hb (call_alike (.process key scope) hx fun e he => ?_)
  exact alike e (by simpa using he)

/-- **A call is a call of the build with its answers**, from any session. -/
theorem process_asAnswered (hb : b.merger = .byPrototype) (ho : b.process s key scope = some o) :
    (b.asAnswered o.events).process s key scope = some o := by
  have once := (asks_of_process hb ho).once
  rw [since_nil, List.reverse_reverse] at once
  exact process_alike hb ho fun e he => alike_asAnswered once he

/-! ## Histories -/

/-- **A session with its history**: the fresh one, and what the processing of a scope leaves behind,
also if it failed, with all that was done. -/
inductive Comes (b : Build) : Session → List Event → Prop
  | start : b.Comes (.start b.reactor) []
  | process {s : Session} {t : List Event} {key : ModuleKey} {scope : Scope} {o : Outcome}
    (comes : b.Comes s t) (ends : b.process s key scope = some o) : b.Comes o.session (t ++ o.events)

/-- What is reached has a history. -/
theorem exists_comes (h : s.Reached b.reactor (· = b)) : ∃ t, b.Comes s t := by
  induction h with
  | start => exact ⟨[], .start⟩
  | @process b' s key scope o _ admitted ends ih =>
    subst admitted
    obtain ⟨t, comes⟩ := ih
    exact ⟨_, comes.process ends⟩

namespace Comes

theorem reached (h : b.Comes s t) : s.Reached b.reactor (· = b) := by
  induction h with
  | start => exact .start
  | process _ ends ih => exact .process ih rfl ends

/-- What is asked for in the whole of a history. -/
theorem asks (hb : b.merger = .byPrototype) (h : b.Comes s t) :
    (Session.start b.reactor).Asks b.reactor s [] t.reverse := by
  induction h with
  | start => exact .refl _ _ _
  | @process s t key scope o _ ends ih =>
    rw [List.reverse_append]
    exact ih.trans ((asks_of_process hb ends).shift t.reverse)

/-- Nothing is asked for twice. -/
theorem loads_nodup (hb : b.merger = .byPrototype) (h : b.Comes s t) : (loads t).Nodup := by
  have once := (h.asks hb).once
  rwa [since_nil, List.reverse_reverse] at once

/-- A source that answers all questions of a history alike has the same history. -/
theorem alike (hb : b.merger = .byPrototype) (h : b.Comes s t) (alike : ∀ e ∈ t, ¬ b.Unlike source e) :
    (b.withSource source).Comes s t := by
  induction h with
  | start => exact .start
  | @process s t key scope o _ ends ih =>
    exact .process (ih fun e he => alike e (List.mem_append_left _ he))
      (process_alike hb ends fun e he => alike e (List.mem_append_right _ he))

/-- **The build with its answers** has the same history. -/
theorem asAnswered (hb : b.merger = .byPrototype) (h : b.Comes s t) : (b.asAnswered t).Comes s t :=
  h.alike hb fun _ he => alike_asAnswered (h.loads_nodup hb) he

/-- Main is asked for with the declared dependencies, so its answer is the one for those. -/
theorem source_main (hb : b.merger = .byPrototype) (h : b.Comes s t) {m : Module}
    (hm : m ∈ b.reactor.modules) : (b.asAnswered t).source m .main = b.source m .main := by
  by_cases asked : (m.key, .main) ∈ loads t
  · obtain ⟨dependencies, he⟩ := mem_loads_iff.1 asked
    have declared : dependencies = m.dependencies := by
      rw [← Session.dependenciesOf_start hm]
      refine ((h.asks hb).asked m.key dependencies .main ?_).2.2.2 rfl
      rwa [since_nil, List.reverse_reverse]
    subst declared
    exact answers_alike (h.loads_nodup hb) he
  · exact source_asAnswered_of_not_mem hm asked

/-- A scope that is processed behind a history is processed by the build with the answers of both. -/
theorem process_asAnswered (hb : b.merger = .byPrototype) (h : b.Comes s t)
    (ho : b.process s key scope = some o) :
    (b.asAnswered (t ++ o.events)).Comes s t ∧
      (b.asAnswered (t ++ o.events)).process s key scope = some o := by
  have answers : ∀ e ∈ t ++ o.events, ¬ b.Unlike (b.asAnswered (t ++ o.events)).source e := fun _ he =>
    alike_asAnswered ((h.process ho).loads_nodup hb) he
  exact ⟨h.alike hb fun e he => answers e (List.mem_append_left _ he),
    process_alike hb ho fun e he => answers e (List.mem_append_right _ he)⟩

/-- Scopes that are processed in turn go on with a history. -/
theorem processEach (h : b.Comes s t) (ho : b.processEach s targets = some o) :
    b.Comes o.session (t ++ o.events) := by
  induction targets generalizing s t o with
  | nil =>
    cases ho
    rwa [List.append_nil]
  | cons target rest ih =>
    obtain ⟨first, hfirst, hrest⟩ := Option.bind_eq_some_iff.1 ho
    unfold andThen at hrest
    split at hrest
    · cases hrest
      exact h.process hfirst
    · obtain ⟨later, hlater, rfl⟩ := Option.map_eq_some_iff.1 hrest
      rw [← List.append_assoc]
      exact ih (o := later) (h.process hfirst) hlater

end Comes

/-! ## Whole builds -/

theorem processEach_alike (hb : b.merger = .byPrototype) (ho : b.processEach s targets = some o)
    (alike : ∀ e ∈ o.events, ¬ b.Unlike source e) : (b.withSource source).processEach s targets = some o := by
  induction targets generalizing s o with
  | nil => exact ho
  | cons target rest ih =>
    obtain ⟨first, hfirst, hrest⟩ := Option.bind_eq_some_iff.1 ho
    refine Option.bind_eq_some_iff.2 ⟨first, process_alike hb hfirst fun e he => alike e ?_, ?_⟩
    · unfold andThen at hrest
      split at hrest
      · cases hrest
        exact he
      · obtain ⟨later, -, rfl⟩ := Option.map_eq_some_iff.1 hrest
        exact List.mem_append_left _ he
    · unfold andThen at hrest ⊢
      split
      · next h => rw [h] at hrest; exact hrest
      · next h =>
        rw [h] at hrest
        obtain ⟨later, hlater, rfl⟩ := Option.map_eq_some_iff.1 hrest
        exact Option.map_eq_some_iff.2 ⟨later,
          ih hlater fun e he => alike e (List.mem_append_right _ he), rfl⟩

theorem processAll_alike (hb : b.merger = .byPrototype) (ho : b.processAll s = some o)
    (alike : ∀ e ∈ o.events, ¬ b.Unlike source e) : (b.withSource source).processAll s = some o := by
  unfold processAll at ho ⊢
  rw [show (b.withSource source).reactor = b.reactor from rfl]
  cases hr : b.reactor.buildOrder with
  | error e => rw [hr] at ho; exact ho
  | ok order =>
    rw [hr] at ho
    exact processEach_alike hb ho alike

/-- **Scopes processed in turn** are processed by the build with its answers. -/
theorem processEach_asAnswered (hb : b.merger = .byPrototype) (h : b.Comes s t)
    (ho : b.processEach s targets = some o) :
    (b.asAnswered (t ++ o.events)).processEach s targets = some o :=
  processEach_alike hb ho fun _ he =>
    alike_asAnswered ((h.processEach ho).loads_nodup hb) (List.mem_append_right t he)

/-- A whole reactor goes on with a history. -/
theorem Comes.processAll (h : b.Comes s t) (ho : b.processAll s = some o) :
    b.Comes o.session (t ++ o.events) := by
  unfold Build.processAll at ho
  split at ho
  · cases ho
    rwa [List.append_nil]
  · exact h.processEach ho

/-- **A whole reactor** is processed by the build with its answers. -/
theorem processAll_asAnswered (hb : b.merger = .byPrototype) (h : b.Comes s t)
    (ho : b.processAll s = some o) : (b.asAnswered (t ++ o.events)).processAll s = some o :=
  processAll_alike hb ho fun _ he =>
    alike_asAnswered ((h.processAll ho).loads_nodup hb) (List.mem_append_right t he)

end Build

end FeatureAssembly
