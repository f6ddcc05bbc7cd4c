import FeatureAssembly.Proofs.Runs

/-!
# What cycle detection finds

Both directions of cycle detection, for whole builds.

**It finds every cycle** (`Build.processed_acyclic`): a build that succeeds has processed no
feature that refers to itself, over whatever features, modules and scopes.

**It finds more than cycles.** A feature is in flight while a module is processed that it
refers to, and a sibling of the feature that it refers to may ask for it. Such a request is
answered as a cycle, although the sibling was not needed (`Build.siblings_report_cycle`). In
the same way a request in main for an identity that is in flight for test is answered as a
cycle, although main does not see test. Nothing else is reported without a cycle
(`Build.reported_cycle_or_detour`).
-/

set_option autoImplicit false

namespace FeatureAssembly.Build

open Relation

variable {b : Build} {s : Session}

/-! ## Every cycle is found -/

theorem Grounded.not_cycle {n : Site} (h : b.Grounded n) : ¬ TransGen b.Refers n n := by
  induction h with
  | intro n _ ih =>
    intro hc
    obtain ⟨m, hm, hmn⟩ := TransGen.head'_iff.1 hc
    exact ih m hm (TransGen.tail' hmn hm)

/-- The chain of references from a raw feature of a processed scope ends. -/
theorem Steady.grounded (h : b.Steady s) {n : Site} {f : Feature}
    (hp : (s.store n.module).isProcessed n.scope = true) (hf : b.featureAt n = some f) :
    b.Grounded n := by
  obtain ⟨f', hf', -⟩ := get?_prepared_of_sourced hf
  obtain ⟨g, hg⟩ := h.complete n.module n.scope hp n.location f'.id (.raw hf' rfl)
  exact (h.sound.entries hf' hg).2

/-- **Cycles are found**: after any scopes processed in turn with success, those scopes are
processed, and no raw feature that the source gave for a processed scope refers to itself in the
end. -/
theorem processed_acyclic (b : Build) (hb : b.merger = .byPrototype)
    (targets : List (ModuleKey × Scope)) :
    ∃ o, b.processEach (.start b.reactor) targets = some o ∧
      (o.result = .ok () →
        (∀ t ∈ targets, (o.session.store t.1).isProcessed t.2 = true) ∧
        ∀ n, ¬ TransGen (fun n n' => (o.session.store n.module).isProcessed n.scope = true ∧
          (b.asAnswered o.events).Refers n n') n n) := by
  obtain ⟨o, ho⟩ := exists_processEach hb targets (.start b.reactor)
  obtain ⟨⟨-, steady⟩, marked⟩ := processEach_steady (regular_asAnswered hb o.events)
    (steady_start _ b.reactor) (processEach_asAnswered hb .start ho)
  refine ⟨o, ho, fun hok => ⟨marked hok, fun n hc => ?_⟩⟩
  obtain ⟨m, ⟨hp, hm⟩, -⟩ := TransGen.head'_iff.1 hc
  obtain ⟨-, ⟨f, -, hf, -⟩, -⟩ := id hm
  exact ((steady hok).1.grounded hp hf).not_cycle (TransGen.mono (fun _ _ h => h.2) n n hc)

/-- In `siblings` nothing refers to itself in the end. -/
theorem siblings_processed_acyclic : ∃ o,
    siblings.processEach (.start siblings.reactor) [(⟨"g:lib"⟩, .main), (⟨"g:app"⟩, .main)] = some o ∧
      o.result = .ok () ∧ (o.session.store ⟨"g:app"⟩).isProcessed .main = true ∧
      ¬ TransGen (fun n n' => (o.session.store n.module).isProcessed n.scope = true ∧
        siblings.Refers n n') ⟨⟨"g:app"⟩, .main, "a.json"⟩ ⟨⟨"g:app"⟩, .main, "a.json"⟩ := by
  obtain ⟨o, ho, h⟩ := processed_acyclic siblings rfl [(⟨"g:lib"⟩, .main), (⟨"g:app"⟩, .main)]
  rw [asAnswered_eq (b := siblings) (ignoresDependencies_ofTable _ _)] at h
  have run : (siblings.processEach (.start siblings.reactor)
      [(⟨"g:lib"⟩, .main), (⟨"g:app"⟩, .main)]).map (·.result.isOk) = some true := by decide +kernel
  rw [ho] at run
  have ok : o.result = .ok () := by
    cases hr : o.result with
    | ok u => rfl
    | error e => simp [hr, Except.isOk, Except.toBool] at run
  exact ⟨o, ho, ok, (h ok).1 (⟨"g:app"⟩, .main) (by simp), (h ok).2 _⟩

/-! ## What else is found -/

/-- A raw feature with an identity refers to itself in the end. -/
def OnCycle (b : Build) (id : Identity) : Prop := ∃ n, b.Carries n id ∧ TransGen b.Refers n n

/-- **A detour**: a raw feature with an identity leads to one that asks for the identity, but
the way there takes siblings that nothing refers to, or goes from test to main, from where
test is not seen. -/
def Detour (b : Build) (id : Identity) : Prop :=
  ∃ m n, b.Carries m id ∧ ReflTransGen b.Drags m n ∧ b.Requests n id ∧
    (¬ ReflTransGen b.Refers m n ∨ m.scope = .test ∧ n.scope = .main)

theorem Drags.scope_visible {n n' : Site} (h : b.Drags n n') : n'.scope ∈ n.scope.visible := by
  rcases h with ⟨id, -, hd⟩ | ⟨id, -, -, -, hv, -⟩
  · exact (denoted?_eq_some hd).2.1
  · exact hv

theorem scope_visible_of_drags {m n : Site} (h : ReflTransGen b.Drags m n) :
    n.scope ∈ m.scope.visible := by
  induction h with
  | refl => exact mem_visible_self _
  | tail _ hd ih => exact visible_trans ih hd.scope_visible

/-- An identity denotes the site that carries it, in the scope of that site. -/
theorem Carries.denoted {m : Site} {id : Identity} (h : b.Carries m id)
    (distinct : b.Distinct m.module m.scope) (owned : id.moduleKey = m.module) :
    b.denoted? m.scope id = some m := by
  obtain ⟨module, scope, location⟩ := m
  have bears := h.bears
  obtain ⟨f, hf, hid⟩ := h
  change id.moduleKey = module at owned
  subst owned
  cases hs : b.siteIn? id scope with
  | none =>
    have absent := List.find?_eq_none.1 (Option.map_eq_none_iff.1 hs) _ (SortedMap.get?_eq_some_iff.1 hf)
    exact absurd (by simpa using hid) absent
  | some n =>
    obtain ⟨hm, hn, hc⟩ := siteIn?_eq_some hs
    obtain ⟨module', scope', location'⟩ := n
    change module' = _ at hm
    change scope' = scope at hn
    subst hm
    subst hn
    cases distinct.location_unique bears hc.bears
    exact denoted?_of_siteIn? hs (mem_visible_self _) (.inl rfl)

/-- A closed chain is a cycle or a detour. -/
theorem Closes.cycle_or_detour {id : Identity} (h : b.Closes id)
    (owned : ∀ m, b.Carries m id → id.moduleKey = m.module) : b.OnCycle id ∨ b.Detour id := by
  obtain ⟨n, ⟨m, carries, distinct, chain⟩, request⟩ := h
  by_cases refers : ReflTransGen b.Refers m n
  · by_cases hs : n.scope = m.scope
    · refine .inl ⟨m, carries, TransGen.tail' refers ⟨id, request, ?_⟩⟩
      rw [hs]
      exact carries.denoted distinct (owned m carries)
    · obtain ⟨main, test⟩ := main_of_mem_visible (scope_visible_of_drags chain) hs
      exact .inr ⟨m, n, carries, chain, request, .inr ⟨test, main⟩⟩
  · exact .inr ⟨m, n, carries, chain, request, .inl refers⟩

/-- **A reported cycle is a cycle or a detour** among the raw features that the source gave, if
modules own them: in every build, of scopes processed in turn and of a whole reactor. -/
theorem reported_cycle_or_detour (b : Build) (hb : b.merger = .byPrototype) (o : Outcome)
    (ho : (∃ targets, b.processEach (.start b.reactor) targets = some o) ∨
      b.processAll (.start b.reactor) = some o)
    (owned : ∀ n id, (b.asAnswered o.events).Carries n id → id.moduleKey = n.module) :
    ∀ d ∈ o.session.diagnostics, d.kind = .cycleDetected → ∃ id, d.subject = id.text ∧
      ((b.asAnswered o.events).OnCycle id ∨ (b.asAnswered o.events).Detour id) := by
  intro d hd hk
  have regular := regular_asAnswered hb o.events
  have start := steady_start (b.asAnswered o.events) b.reactor
  have valid : (b.asAnswered o.events).Valid o.session := by
    rcases ho with ⟨targets, ho⟩ | ho
    · exact (processEach_steady regular start (processEach_asAnswered hb .start ho)).1.1
    · exact processAll_valid regular start (processAll_asAnswered hb .start ho)
  obtain ⟨id, subject, closes⟩ := valid.cycles d hd hk
  exact ⟨id, subject, closes.cycle_or_detour fun m hm => owned m id hm⟩

/-! ## Siblings -/

/-- A rank of sites that drops along every reference. -/
def dropsAlongReferences (b : Build) (rank : Site → Nat) : Bool :=
  b.everyFeature fun n f =>
    f.assembled || (f.prototype.bind fun prototype => b.denoted? n.scope prototype.id).all fun n' =>
      rank n' < rank n

/-- Where a rank drops along every reference there is no cycle. -/
theorem not_cycle_of_dropsAlongReferences (rank : Site → Nat)
    (h : b.dropsAlongReferences rank = true) (n : Site) : ¬ TransGen b.Refers n n := by
  have drop : ∀ n n', b.Refers n n' → rank n' < rank n := by
    rintro n n' ⟨id, ⟨f, prototype, hf, unmarked, hp, rfl⟩, hd⟩
    have here := of_everyFeature h hf
    simp only [unmarked, hp, Option.bind_some, hd, Bool.false_or, Option.all_some,
      decide_eq_true_eq] at here
    exact here
  have drops : ∀ n', TransGen b.Refers n n' → rank n' < rank n := by
    intro n' hc
    induction hc with
    | single hr => exact drop _ _ hr
    | tail _ hr ih => exact Nat.lt_trans (drop _ _ hr) ih
  exact fun hc => Nat.lt_irrefl _ (drops n hc)

theorem owned_siblings (n : Site) (id : Identity) (h : siblings.Carries n id) :
    id.moduleKey = n.module := by
  obtain ⟨f, hf, rfl⟩ := h
  have check : siblings.everyFeature (fun n f => f.id.moduleKey = n.module) = true := by decide +kernel
  exact of_decide_eq_true (of_everyFeature check hf)

/-- `app` alone ends with a cycle that is none. -/
theorem processEach_siblings : ∃ o,
    siblings.processEach (.start siblings.reactor) [(⟨"g:app"⟩, .main)] = some o ∧
      ∃ d ∈ o.session.diagnostics, d.kind = .cycleDetected := by
  have run : (siblings.processEach (.start siblings.reactor) [(⟨"g:app"⟩, .main)]).map
      (·.session.diagnostics) =
        some [.cycle ⟨"g:lib"⟩ ((Identity.of "g" "app" "1").withType featureType)] := by decide +kernel
  obtain ⟨o, ho, hd⟩ := Option.map_eq_some_iff.1 run
  exact ⟨o, ho, _, by rw [hd]; exact List.mem_singleton_self _, rfl⟩

/-- What is reported in `siblings` is a cycle or a detour. -/
theorem siblings_cycle_or_detour : ∃ o,
    siblings.processEach (.start siblings.reactor) [(⟨"g:app"⟩, .main)] = some o ∧
      ∃ d ∈ o.session.diagnostics, d.kind = .cycleDetected ∧
        ∃ id, d.subject = id.text ∧ (siblings.OnCycle id ∨ siblings.Detour id) := by
  obtain ⟨o, ho, d, hd, hk⟩ := processEach_siblings
  have found := reported_cycle_or_detour siblings rfl o (.inl ⟨_, ho⟩)
  rw [asAnswered_eq (b := siblings) (ignoresDependencies_ofTable _ _)] at found
  exact ⟨o, ho, d, hd, hk, found owned_siblings d hd hk⟩

/-- **A cycle is reported where there is none**: `q` asks for `a` while `lib` is processed on
behalf of `a`. With `lib` processed first, everything is assembled. -/
theorem siblings_report_cycle :
    siblings.config.aggregates = .empty ∧
    (∀ n id, siblings.Carries n id → id.moduleKey = n.module) ∧
    (∀ n, ¬ TransGen siblings.Refers n n) ∧
    (∃ o, siblings.processEach (.start siblings.reactor) [(⟨"g:app"⟩, .main)] = some o ∧
      ∃ d ∈ o.session.diagnostics, d.kind = .cycleDetected) ∧
    ∃ o, siblings.processEach (.start siblings.reactor) [(⟨"g:lib"⟩, .main), (⟨"g:app"⟩, .main)] =
      some o ∧ o.result.isOk = true ∧ o.session.diagnostics = [] := by
  refine ⟨rfl, owned_siblings, not_cycle_of_dropsAlongReferences
    (fun n => ["p.json", "a.json", "q.json"].idxOf n.location) (by decide +kernel),
    processEach_siblings, ?_⟩
  have run : (siblings.processEach (.start siblings.reactor)
      [(⟨"g:lib"⟩, .main), (⟨"g:app"⟩, .main)]).map (fun o => (o.result.isOk, o.session.diagnostics)) =
        some (true, []) := by decide +kernel
  obtain ⟨o, ho, h⟩ := Option.map_eq_some_iff.1 run
  exact ⟨o, ho, congrArg Prod.fst h, congrArg Prod.snd h⟩

end FeatureAssembly.Build
