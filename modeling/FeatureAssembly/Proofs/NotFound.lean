import FeatureAssembly.Proofs.Diagnostics
import FeatureAssembly.Proofs.Paths

/-!
# Features that are not found

What a build that reports a missing feature has made sure of.

**The law** (`Build.not_found_is_absent`): a missing feature is reported only if there is none
with its identity. If a module of the reactor owns it, the source has none for that module in any
scope that is seen from where it was asked for, however far the module is processed by then; if
no module owns it, the loader says that it does not exist. A loader that fails in another way
ends the build, and nothing is reported.

Each report belongs to one `missing` event, which tells on whose behalf the feature was asked for
(`Build.Told`); a move that reports nothing of the kind keeps that.

What it does not establish: that a feature without raw form is reported as missing. One that is
asked for while it is in flight is reported as a cycle.
-/

set_option autoImplicit false

namespace FeatureAssembly.Build

open Relation Step

variable {b : Build} {c c' : Stage}

/-! ## Reports and events -/

/-- The reports of missing features. -/
def notFounds (l : List Diagnostic) : List Diagnostic :=
  l.filter fun d => d.kind == .featureNotFound

/-- The features that do not exist, with the module and scope on whose behalf they were asked for. -/
def missed (l : List Event) : List (ModuleKey × Scope × Identity) :=
  l.filterMap fun
    | .missing key scope id => some (key, scope, id)
    | _ => none

theorem mem_missed {l : List Event} {m : ModuleKey × Scope × Identity} :
    m ∈ missed l ↔ .missing m.1 m.2.1 m.2.2 ∈ l := by
  unfold missed
  rw [List.mem_filterMap]
  constructor
  · rintro ⟨event, he, hm⟩
    split at hm
    · cases hm
      exact he
    · cases hm
  · exact fun he => ⟨_, he, rfl⟩

theorem notFounds_append (l l' : List Diagnostic) : notFounds (l ++ l') = notFounds l ++ notFounds l' :=
  List.filter_append ..

/-- What is reported of other things. -/
theorem notFounds_append_others {l l' : List Diagnostic} (h : ∀ d ∈ l', d.kind ≠ .featureNotFound) :
    notFounds (l ++ l') = notFounds l := by
  have none : notFounds l' = [] := List.filter_eq_nil_iff.2 fun d hd => by simpa using h d hd
  rw [notFounds_append, none, List.append_nil]

/-- What an identity denotes nothing for, the source has no raw feature of. -/
theorem ne_of_denoted?_eq_none {scope scope' : Scope} {id : Identity} {m : Module} {features : FeatureMap}
    (h : b.denoted? scope id = none) (hv : scope' ∈ scope.visible)
    (hm : b.reactor.get? id.moduleKey = some m) (hs : b.source m scope' = .ok features) :
    ∀ f ∈ features.values, f.id ≠ id := by
  have sourced : b.sourced id.moduleKey scope' = features := by
    unfold Build.sourced
    rw [hm]
    simp only [hs]
  have absent : b.siteIn? id scope' = none := List.findSome?_eq_none_iff.1 h scope' hv
  have missed := List.find?_eq_none.1 (Option.map_eq_none_iff.1 absent)
  intro f hf
  obtain ⟨e, he, rfl⟩ := List.mem_map.1 hf
  simpa using missed e (sourced ▸ he)

/-! ## The invariant -/

/-- **Reports are told of in the trace**, and every one of them is justified. -/
structure Told (b : Build) (s : Session) (t : List Event) : Prop where
  reported : notFounds s.diagnostics = (missed t).reverse.map fun m => .notFound m.1 m.2.2
  justified : ∀ m ∈ missed t, b.Nowhere m.2.1 m.2.2

/-- All that the loader was asked for it had, or said that it does not exist. -/
def Fine (b : Build) (t : List Event) : Prop :=
  ∀ id e, .fetched id ∈ t → b.loader id = .error e → e.isNotFound = true

theorem Told.keep {s s' : Session} {t t' : List Event} (h : b.Told s t)
    (hs : notFounds s'.diagnostics = notFounds s.diagnostics) (ht : missed t' = missed t) :
    b.Told s' t' :=
  ⟨by rw [hs, ht]; exact h.reported, by rw [ht]; exact h.justified⟩

theorem Fine.cons {t : List Event} {event : Event} (h : b.Fine t)
    (he : ∀ id e, event = .fetched id → b.loader id = .error e → e.isNotFound = true) :
    b.Fine (event :: t) := fun id e hm hl =>
  (List.mem_cons.1 hm).elim (fun heq => he id e heq.symm hl) fun hm => h id e hm hl

/-- What a stage tells. -/
structure Tells (b : Build) (c : Stage) : Prop where
  told : b.Told c.session c.trace
  fine : b.Fine c.trace

/-- **Every move tells** what it reports. -/
theorem Move.tells (hm : b.Move c c') (h : b.Tells c) : b.Tells c' := by
  obtain ⟨told, fine⟩ := h
  have other : ∀ {event : Event}, (∀ id, event ≠ .fetched id) → b.Fine (event :: c.trace) := fun he =>
    fine.cons fun id _ heq => absurd heq (he id)
  cases hm with
  | mark | begin | record | aggregate => exact ⟨told.keep rfl rfl, other nofun⟩
  | read _ _ reads => exact ⟨told.keep (congrArg notFounds reads.diagnostics) rfl, other nofun⟩
  | complete => exact ⟨told.keep (congrArg notFounds (diagnostics_augmented _ _ _)) rfl, fine⟩
  | supply => exact ⟨told.keep (congrArg notFounds (diagnostics_withReference _ _ _)) rfl, other nofun⟩
  | fetch foreign hl =>
    refine ⟨told.keep rfl rfl, fine.cons fun id e heq he => ?_⟩
    cases heq
    exact hl e he
  | refuse => exact ⟨told.keep (notFounds_append_others (by simp [Diagnostic.cycle])) rfl, other nofun⟩
  | @miss s t a n id request absent =>
    have missing : b.Fine (.missing n.module n.scope id :: t) := other nofun
    refine ⟨⟨?_, fun m hm => ?_⟩, missing.cons nofun⟩
    · have reported : notFounds (s.diagnostics ++ [.notFound n.module id]) =
          notFounds s.diagnostics ++ [.notFound n.module id] := notFounds_append _ _
      have missing : missed (.answered n.module n.scope id (.ok none) ::
          .missing n.module n.scope id :: t) = (n.module, n.scope, id) :: missed t := rfl
      show notFounds (s.diagnostics ++ [.notFound n.module id]) = _
      rw [reported, missing, told.reported]
      simp
    · rcases List.mem_cons.1 hm with rfl | hm
      · exact absent
      · exact told.justified m hm

/-- A build that stops reports no missing feature by that, and a loader that fails is the error. -/
theorem Halt.tells {e : AssemblyError} (hh : b.Halt c e c') (h : b.Tells c) :
    b.Told c'.session c'.trace ∧ ∀ id err, .fetched id ∈ c'.trace → b.loader id = .error err →
      err.isNotFound = false → e = .externalResolution id err := by
  obtain ⟨told, fine⟩ := h
  have before : ∀ {id err} {P : Prop}, .fetched id ∈ c.trace → b.loader id = .error err →
      err.isNotFound = false → P := by
    intro id err P hm hl hn
    rw [fine id err hm hl] at hn
    cases hn
  cases hh with
  | stop => exact ⟨told, fun id err hm hl hn => before hm hl hn⟩
  | reject e seen apart tells =>
    obtain ⟨ds, hd, others⟩ := tells
    refine ⟨told.keep ?_ rfl, fun id err hm hl hn => ?_⟩
    · exact (congrArg notFounds hd).trans (notFounds_append_others others)
    · exact (List.mem_cons.1 hm).elim nofun fun hm => before hm hl hn
  | outside foreign fails other =>
    refine ⟨told.keep rfl rfl, fun id err hm hl hn => ?_⟩
    rcases List.mem_cons.1 hm with heq | hm
    · cases heq
      cases fails.symm.trans hl
      rfl
    · exact before hm hl hn

theorem tells_start (b : Build) (r : Reactor) : b.Tells (atRest (.start r) []) :=
  ⟨⟨rfl, nofun⟩, nofun⟩

/-- **What a whole build tells.** -/
theorem Takes.tells {s : Session} {o : Outcome} (h : b.Takes s [] o) (hs : b.Tells (atRest s [])) :
    b.Told o.session o.events.reverse ∧ ∀ id e, .fetched id ∈ o.events → b.loader id = .error e →
      e.isNotFound = false → o.result = .error (.externalResolution id e) := by
  have step : ∀ c c', b.Move c c' → b.Tells c → b.Tells c' := fun _ _ hm => hm.tells
  cases hr : o.result with
  | ok u =>
    have tells := Path.keeps step (h.path hr) hs
    rw [List.append_nil] at tells
    refine ⟨tells.told, fun id e hm hl hn => ?_⟩
    rw [tells.fine id e (List.mem_reverse.2 hm) hl] at hn
    cases hn
  | error e =>
    obtain ⟨c₁, c₂, closing, path, halt, session, trace, ended⟩ := h.fails e hr
    rw [List.append_nil] at trace
    obtain ⟨told, broken⟩ := halt.tells (Path.keeps step path hs)
    refine ⟨?_, fun id err hm hl hn => ?_⟩
    · rw [session, trace]
      exact told.keep rfl (filterMap_closing ended (fun event he => by cases event <;> first | rfl | cases he) _)
    · rw [← List.mem_reverse, trace] at hm
      rcases List.mem_append.1 hm with hm | hm
      · exact False.elim (ended _ hm)
      · rw [broken id err hm hl hn]

/-! ## All together -/

/-- **What is reported as missing does not exist**, in scopes processed in turn up to the first
that fails: each report is one question that found nothing; the source gave no raw feature for it
where it could be seen, or the loader none if no module owns it; and a loader that fails
otherwise ends the build, with nothing reported. -/
theorem not_found_is_absent (b : Build) (hb : b.merger = .byPrototype)
    (targets : List (ModuleKey × Scope)) :
    ∃ o, b.processEach (.start b.reactor) targets = some o ∧
      (o.session.diagnostics.filter fun d => d.kind == .featureNotFound) =
        (missed o.events).map (fun m => .notFound m.1 m.2.2) ∧
      (∀ key scope id, .missing key scope id ∈ o.events →
        (∀ m, b.reactor.get? id.moduleKey = some m → ∀ scope' ∈ scope.visible, ∀ features,
          (b.asAnswered o.events).source m scope' = .ok features → ∀ f ∈ features.values, f.id ≠ id) ∧
        (b.reactor.get? id.moduleKey = none → ∃ e, b.loader id = .error e ∧ e.isNotFound = true)) ∧
      ∀ id e, .fetched id ∈ o.events → b.loader id = .error e → e.isNotFound = false →
        o.result = .error (.externalResolution id e) ∧ o.session.diagnostics = [] := by
  obtain ⟨o, ho⟩ := exists_processEach hb targets (.start b.reactor)
  have follows := processEach_follows (regular_asAnswered hb o.events) (steady_start _ b.reactor)
    (processEach_asAnswered hb .start ho) []
  obtain ⟨told, broken⟩ := follows.tells (tells_start _ b.reactor)
  have missed_reverse : (missed o.events.reverse).reverse = missed o.events := by
    rw [missed, List.filterMap_reverse, List.reverse_reverse]
    rfl
  refine ⟨o, ho, ?reported, fun key scope id hm => ?absent, fun id e hm hl hn => ?broken⟩
  case reported =>
    rw [← missed_reverse]
    exact told.reported
  case absent =>
    have nowhere := told.justified (key, scope, id) (mem_missed.2 (List.mem_reverse.2 hm))
    refine ⟨fun m hk scope' hv features hs => ?_, fun hk => nowhere.foreign ?_⟩
    · have owned : b.reactor.contains id.moduleKey = true := Option.isSome_iff_exists.2 ⟨m, hk⟩
      exact ne_of_denoted?_eq_none (nowhere.owned owned) hv hk hs
    · show (b.reactor.get? id.moduleKey).isSome = false
      rw [hk]
      rfl
  case broken =>
    have result := broken id e hm hl hn
    obtain ⟨told, hd, hr⟩ := (processEach_reports hb ho).owns _ result
    cases (show told = [] from hr)
    exact ⟨result, hd⟩

/-- A build in which a feature in test refers to one that its module does not have. -/
def dangling : Build :=
  let app : Identity := (Identity.of "g" "app" "1").withType featureType
  let lib : Identity := (Identity.of "g" "lib" "1").withType featureType
  ofTable appAndLib [(⟨"g:app"⟩, .test, "a.json", .after app lib),
    (⟨"g:lib"⟩, .main, "b.json", .of (lib.withClassifier "b"))]

/-- In `dangling` a feature is reported as missing, and `lib` has none with its identity. -/
theorem dangling_not_found :
    let lib : Identity := (Identity.of "g" "lib" "1").withType featureType
    ∃ o, dangling.processEach (.start dangling.reactor) [(⟨"g:app"⟩, .test)] = some o ∧
      o.session.diagnostics = [.notFound ⟨"g:app"⟩ lib] ∧
      ∀ features, dangling.source (.of "g" "lib" "1") .main = .ok features →
        ∀ f ∈ features.values, f.id ≠ lib := by
  intro lib
  obtain ⟨o, ho, -, absent, -⟩ := not_found_is_absent dangling rfl [(⟨"g:app"⟩, .test)]
  rw [asAnswered_eq (b := dangling) (ignoresDependencies_ofTable _ _)] at absent
  have run : (dangling.processEach (.start dangling.reactor) [(⟨"g:app"⟩, .test)]).map (fun o =>
      (o.session.diagnostics, missed o.events)) =
        some ([.notFound ⟨"g:app"⟩ lib], [(⟨"g:app"⟩, .test, lib)]) := by decide +kernel
  rw [ho] at run
  have here := Option.some.inj run
  have events : missed o.events = [(⟨"g:app"⟩, .test, lib)] := congrArg Prod.snd here
  have missing : .missing ⟨"g:app"⟩ .test lib ∈ o.events :=
    (mem_missed (m := (⟨"g:app"⟩, .test, lib))).1 (by rw [events]; exact List.mem_singleton_self _)
  exact ⟨o, ho, congrArg Prod.fst here,
    (absent _ _ _ missing).1 _ rfl .main (main_mem_visible _)⟩

end FeatureAssembly.Build
