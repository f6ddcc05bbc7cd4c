import FeatureAssembly.Proofs.Termination

/-!
# What is in flight, before and after

An identity is in flight while a feature with it is provided or assembled. It is put there and
taken out in three places that do not match each other: assembling takes out only what it put
there, processing on behalf of an identity takes it out first and puts it back, and providing
gives up at once on what is there already.

**The law** (`Build.inFlight_restored`): whatever a build starts from, each call leaves in flight
exactly what was in flight before, however it ends, and at every depth, so that this holds of the
calls in the middle of a build, too.

What it does not establish: that the pieces do. Processing on behalf of an identity puts it in
flight also if it was not there; only providing, which put it there itself, makes up for that.
-/

set_option autoImplicit false

namespace FeatureAssembly.Build

open Step

variable {b : Build}

/-- **What is in flight is restored** by every call, from any session and with anything in flight:
whenever processing a scope or providing a feature ends, at whatever depth and with whatever result,
exactly what was in flight before is in flight behind it. And both end from some depth on, which the
session tells if the source ignores dependencies. -/
theorem inFlight_restored (b : Build) (hb : b.merger = .byPrototype) (p : Progress) :
    (∀ depth key scope r q, (b.calls depth).process key scope p = some (r, q) →
      q.inFlight = p.inFlight) ∧
    (∀ depth key scope id r q, (b.calls depth).provide key scope id p = some (r, q) →
      q.inFlight = p.inFlight) ∧
    (∀ key scope, ∃ bound r q, q.inFlight = p.inFlight ∧
      (b.source.IgnoresDependencies → bound = b.depthBound p.session) ∧
        ∀ depth, bound ≤ depth → (b.calls depth).process key scope p = some (r, q)) ∧
    ∀ key scope id, ∃ bound r q, q.inFlight = p.inFlight ∧
      (b.source.IgnoresDependencies → bound = b.depthBound p.session) ∧
        ∀ depth, bound ≤ depth → (b.calls depth).provide key scope id p = some (r, q) := by
  have processes : ∀ depth key scope r q, (b.calls depth).process key scope p = some (r, q) →
      q.inFlight = p.inFlight := by
    intro depth key scope r q h
    obtain ⟨_, kept⟩ := kept_of_call hb (.process key scope) h
    exact kept.inFlight
  have provides : ∀ depth key scope id r q, (b.calls depth).provide key scope id p = some (r, q) →
      q.inFlight = p.inFlight := by
    intro depth key scope id r q h
    obtain ⟨_, kept⟩ := kept_of_call hb (.provide key scope id) h
    exact kept.inFlight
  refine ⟨processes, provides, fun key scope => ?process, fun key scope id => ?provide⟩
  case process =>
    obtain ⟨bound, ⟨r, q⟩, told, stays⟩ := exists_bound hb (.process key scope) (b := b) p
    exact ⟨bound, r, q, processes bound key scope r q (stays bound (Nat.le_refl bound)), told, stays⟩
  case provide =>
    obtain ⟨bound, ⟨r, q⟩, told, stays⟩ := exists_bound hb (.provide key scope id) (b := b) p
    exact ⟨bound, r, q, provides bound key scope id r q (stays bound (Nat.le_refl bound)), told, stays⟩

/-- In `knot`, with the identity of the feature of `app` in flight from the beginning: processing
`app` fails over a cycle in the middle of `lib`, asking for that identity gives nothing, and
behind both it is in flight as before, alone. -/
theorem knot_restores_inFlight :
    let app : Identity := (Identity.of "g" "app" "1").withType featureType
    let p : Progress := ⟨.start knot.reactor, .add .empty app, []⟩
    let calls := knot.calls (knot.depthBound p.session)
    (∃ e q, calls.process ⟨"g:app"⟩ .main p = some (.error e, q) ∧ q.inFlight = .add .empty app) ∧
      ∃ q, calls.provide ⟨"g:lib"⟩ .main app p = some (.ok none, q) ∧ q.inFlight = .add .empty app := by
  intro app p calls
  obtain ⟨process, provide, -⟩ := inFlight_restored knot rfl p
  refine ⟨?_, ?_⟩
  · have run : ((calls.process ⟨"g:app"⟩ .main p).map fun r => r.1.isOk) = some false := by
      decide +kernel
    obtain ⟨⟨r, q⟩, hx, failed⟩ := Option.map_eq_some_iff.1 run
    cases r with
    | ok u => cases failed
    | error e => exact ⟨e, q, hx, process _ _ _ _ _ hx⟩
  · have run : ((calls.provide ⟨"g:lib"⟩ .main app p).map fun r => r.1.toOption) = some (some none) := by
      decide +kernel
    obtain ⟨⟨r, q⟩, hx, nothing⟩ := Option.map_eq_some_iff.1 run
    cases r with
    | error e => cases nothing
    | ok found =>
      cases nothing
      exact ⟨q, hx, provide _ _ _ _ _ _ hx⟩

end FeatureAssembly.Build
