import FeatureAssembly.Proofs.Termination

/-!
# What is reported of an error

A build reports what it stumbles over deep inside, where a question finds no answer or a
check fails, and the error that it ends with is made further out and handed on through
everything that waits for it.

**The law** (`Build.diagnostics_match_result`): processing a scope that goes well reports
nothing, and one that fails reports exactly what belongs to its error
(`AssemblyError.Reports`). That holds from any session, so nothing is reported again on the
way out, and nothing that was reported is got over.

A question is the only piece that reports something and goes well: one that is answered with
nothing has reported one cycle, or one missing feature, under the identity that was asked
for (`Build.Replies`). What it does not establish: which of the two it was, and under which
module.
-/

set_option autoImplicit false

namespace FeatureAssembly

open Step

/-- A diagnostic says that a reference finds nothing. -/
def Diagnostic.Unresolved (d : Diagnostic) (reference : Identity) : Prop :=
  (d.kind = .cycleDetected ∨ d.kind = .featureNotFound) ∧ d.subject = reference.text

/-- **What is reported of an error.** -/
def AssemblyError.Reports : AssemblyError → List Diagnostic → Prop
  | .unresolvedReference _ reference, told => ∃ d, told = [d] ∧ d.Unresolved reference
  | .classifier e, told => told = [⟨.duplicateClassifier, e.module, displayLocations e.locations⟩]
  | .ambiguousPackagedUnit key locations, told =>
    told = [⟨.ambiguousPackagedUnit, key, Text.joinWith ", " locations⟩]
  | .externalResolution .., told => told = []
  | .source .., told => told = []
  | .unknownModule _, told => told = []
  | .unclassifiedAggregate _, told => told = []
  | .emptyAggregate .., told => told = []
  | .reactor _, told => told = []

theorem AssemblyError.Reports.length_le_one {e : AssemblyError} {told : List Diagnostic}
    (h : e.Reports told) : told.length ≤ 1 := by
  cases e with
  | unresolvedReference feature reference => obtain ⟨d, rfl, -⟩ := h; exact Nat.le_refl 1
  | classifier | ambiguousPackagedUnit => exact Nat.le_of_eq (congrArg List.length h)
  | externalResolution | source | unknownModule | unclassifiedAggregate | emptyAggregate | reactor =>
    rw [show told = [] from h]
    exact Nat.zero_le 1

namespace Build

variable {b : Build} {calls : Calls} {p p' p'' : Progress} {α : Type}

/-! ## What a piece reports -/

/-- Nothing was reported. -/
def Quiet (p p' : Progress) : Prop := p'.session.diagnostics = p.session.diagnostics

theorem Quiet.trans (h : Quiet p p') (h' : Quiet p' p'') : Quiet p p'' := Eq.trans h' h

/-- What belongs to an error was reported. -/
def Owns (p : Progress) (e : AssemblyError) (p' : Progress) : Prop :=
  ∃ told, p'.session.diagnostics = p.session.diagnostics ++ told ∧ e.Reports told

theorem Quiet.owns {e : AssemblyError} (h : Quiet p p') (ho : Owns p' e p'') : Owns p e p'' := by
  obtain ⟨told, ht, hr⟩ := ho
  exact ⟨told, by rw [ht, h], hr⟩

/-- An error of which nothing is reported. -/
theorem Quiet.silent {e : AssemblyError} (h : Quiet p p') (he : e.Reports []) : Owns p e p' :=
  ⟨[], by rw [List.append_nil]; exact h, he⟩

theorem Quiet.report {e : AssemblyError} {d : Diagnostic} (h : Quiet p p') (he : e.Reports [d]) :
    Owns p e (p'.onSession fun s => s.report d) :=
  ⟨[d], congrArg (· ++ [d]) h, he⟩

/-- A change that reports nothing. -/
theorem Quiet.onSession {f : Session → Session} (h : Quiet p p')
    (hf : ∀ s, (f s).diagnostics = s.diagnostics) : Quiet p (p'.onSession f) :=
  (hf p'.session).trans h

/-- **What a piece reports**: nothing if it goes well, and else what belongs to its error. -/
abbrev Reporting (p : Progress) : Except AssemblyError α → Progress → Prop :=
  either (fun _ => Quiet p) (Owns p)

theorem Reporting.after {r : Except AssemblyError α} (h : Reporting p' r p'') (hq : Quiet p p') :
    Reporting p r p'' := by
  cases r with
  | error e => exact hq.owns h
  | ok a => exact hq.trans h

/-- **What a question reports**: nothing if it is answered with a feature, and one diagnostic
if it is answered with nothing. -/
def Replies (id : Identity) (p : Progress) : Except AssemblyError (Option Feature) → Progress → Prop :=
  either
    (fun found p' =>
      match found with
      | some _ => Quiet p p'
      | none => ∃ d, p'.session.diagnostics = p.session.diagnostics ++ [d] ∧ d.Unresolved id)
    (Owns p)

end Build

/-- **Calls that report** what belongs to their errors, whatever they start from. -/
structure Calls.Report (calls : Calls) : Prop where
  process : ∀ {key scope p}, Ends False (calls.process key scope) p (Build.Reporting p)
  provide : ∀ {key scope id p}, Ends False (calls.provide key scope id) p (Build.Replies id p)

namespace Build

variable {b : Build} {calls : Calls} {p p' p'' : Progress}

/-! ## Assembling -/

/-- The error for a question that found nothing owns what the question reported. -/
theorem merge_reports (hb : b.merger = .byPrototype) (hc : calls.Report) (key : ModuleKey)
    (scope : Scope) (location : String) (base : Feature) :
    Ends False (b.merge calls key scope location base) p (Reporting p) := by
  refine ends_merge hb key scope location base (fun _ => rfl) (fun _ _ => rfl) ?_
  intro prototype _ _
  refine hc.provide.mono fun r p' h => ?_
  cases r with
  | error e => exact h
  | ok found =>
    cases found with
    | some parent => exact h
    | none =>
      obtain ⟨d, hd, hu⟩ := h
      exact ⟨[d], hd, d, rfl, hu⟩

theorem assembleAt_reports (hb : b.merger = .byPrototype) (hc : calls.Report) (key : ModuleKey)
    (scope : Scope) (e : String × Feature) :
    Ends False (b.assembleAt calls key scope e) p (Reporting p) := by
  refine ends_assembleAt key scope e (fun _ => rfl) (fun _ _ => ?held) fun _ _ => ?free
  case held =>
    refine (merge_reports hb hc key scope e.1 e.2).mono fun r p' h => ?_
    cases r with
    | error err => exact h
    | ok g => exact h
  case free =>
    refine (merge_reports (p := p.enter e.2.id) hb hc key scope e.1 e.2).mono fun r p' h => ?_
    cases r with
    | error err => exact h
    | ok g => exact h

/-- A loop of pieces that report what belongs to their errors does so, too. -/
theorem forM_reports {β : Type} {f : β → Step Unit} {l : List β}
    (h : ∀ x p, Ends False (f x) p (Reporting p)) : Ends False (l.forM f) p (Reporting p) := by
  refine ends_forM (fun _ => Quiet p) rfl (fun _ h => h) fun x rest q _ hq => ?_
  refine (h x q).mono fun r q' h' => ?_
  cases r with
  | error e => exact hq.owns h'
  | ok u => exact hq.trans h'

theorem buildAggregates_reports (m : Module) (scope : Scope) :
    Ends False (b.buildAggregates m scope) p (Reporting p) :=
  forM_reports fun d p => ends_buildAggregate m d (fun _ => rfl) (Quiet.silent (p := p) rfl rfl)
    fun _ _ => rfl

/-! ## Processing -/

theorem processMarked_reports (hb : b.merger = .byPrototype) (hc : calls.Report) (m : Module)
    (dependencies : List Dependency) (scope : Scope) :
    Ends False (b.processMarked calls (m.dependingOn dependencies) scope) p (Reporting p) := by
  -- The errors of declarations and of the source are told apart by where they come from.
  have undeclared : ∀ e, b.checkAggregates m.key = .error e → e.Reports [] := by
    intro e he
    unfold checkAggregates at he
    split at he
    · cases he
      rfl
    · cases he
  have unread : ∀ e, b.load (m.dependingOn dependencies) scope = .error e → e.Reports [] := by
    intro e he
    unfold load at he
    cases hs : b.source (m.dependingOn dependencies) scope with
    | ok features => rw [hs] at he; cases he
    | error err => rw [hs] at he; cases he; rfl
  refine ends_processMarked m dependencies scope (Quiet p) (Quiet p) (Quiet p) (Quiet p)
    (fun e he => Quiet.silent rfl (undeclared e he)) (fun e he => Quiet.silent rfl (unread e he))
    ?check ?attach (fun _ _ h => h) ?assemble ?aggregate ?augment
  case check =>
    intro features _ _
    exact ends_checkStore m.key (fun _ => rfl) fun e _ => Quiet.report rfl rfl
  case attach =>
    rintro q rfl hq
    exact ends_attachPackagedUnit m (fun s _ _ _ hd => Eq.trans hd hq) fun l => hq.report rfl
  case assemble =>
    intro q hq
    exact (forM_reports fun e p => assembleAt_reports hb hc m.key scope e).mono
      fun r q' h => h.after hq
  case aggregate =>
    intro q hq
    exact (buildAggregates_reports m scope).mono fun r q' h => h.after hq
  case augment => exact fun q hq => hq.onSession (diagnostics_augmented m.key scope)

theorem processWith_reports (hb : b.merger = .byPrototype) (hc : calls.Report) (key : ModuleKey)
    (scope : Scope) : Ends False (b.processWith calls key scope) p (Reporting p) := by
  refine ends_processWith key scope (fun _ => Quiet.silent rfl rfl) (fun _ _ _ => rfl) ?main ?test
  case main => exact fun m _ _ _ => processMarked_reports (p := opened key scope p) hb hc m _ scope
  case test =>
    intro m _ _ _
    refine (hc.process (p := opened key scope p)).mono fun r q hq => ?_
    cases r with
    | error e => exact hq
    | ok u => exact (processMarked_reports hb hc m _ scope).mono fun r q' h => h.after hq

/-! ## Providing -/

theorem processReleased_reports (hc : calls.Report) (id : Identity) (key : ModuleKey) (scope : Scope) :
    Ends False (processReleased calls id key scope) p (Reporting p) := by
  refine ends_processReleased id key scope ((hc.process (p := p.leave id)).mono fun r q h => ?_)
  cases r with
  | error e => exact h
  | ok u => exact h

/-- Looking reports nothing of its own, also if it finds nothing. -/
theorem lookIn_reports (hb : b.merger = .byPrototype) (hc : calls.Report) (key : ModuleKey)
    (wanted : Scope) (id : Identity) (scopes : List Scope) :
    Ends False (b.lookIn calls key wanted id scopes) p (Reporting p) := by
  induction scopes generalizing p with
  | nil => exact ends_lookIn_nil key wanted id rfl
  | cons scope rest ih =>
    refine ends_lookIn_cons key wanted id scope rest (Quiet p)
      (fun _ => processReleased_reports hc id key scope) (fun _ => rfl) (fun _ _ _ hq _ => hq)
      (fun q hq _ _ => ih.mono fun r q' h => h.after hq) fun q location f hq _ _ => ?_
    refine (merge_reports hb hc key scope location f).mono fun r q' h => ?_
    cases r with
    | error e => exact hq.owns h
    | ok g => exact hq.trans h

theorem find_reports (hb : b.merger = .byPrototype) (hc : calls.Report) (key : ModuleKey)
    (scope : Scope) (id : Identity) : Ends False (b.find calls key scope id) p (Reporting p) := by
  refine ends_find key scope id (fun _ => lookIn_reports hb hc key scope id _) (fun _ _ => ?other)
    (fun _ _ _ _ => rfl) (fun _ _ _ _ _ => rfl) fun _ _ _ _ _ => Quiet.silent rfl rfl
  case other =>
    refine (processReleased_reports hc id id.moduleKey scope).mono fun r q hq => ?_
    cases r with
    | error e => exact hq
    | ok u => exact (lookIn_reports hb hc id.moduleKey scope id _).mono fun r q' h => h.after hq

/-- **A question reports** a cycle, or what was not found, or nothing. -/
theorem provideWith_reports (hb : b.merger = .byPrototype) (hc : calls.Report) (key : ModuleKey)
    (scope : Scope) (id : Identity) :
    Ends False (b.provideWith calls key scope id) p (Replies id p) := by
  refine ends_provideWith key scope id (fun _ => ⟨.cycle key id, rfl, .inl rfl, rfl⟩) fun _ => ?_
  refine (find_reports (p := p.enter id) hb hc key scope id).mono fun r q h => ?_
  cases r with
  | error e => exact h
  | ok found =>
    cases found with
    | none => exact ⟨.notFound key id, congrArg (· ++ [_]) h, .inr rfl, rfl⟩
    | some f =>
      have left : Quiet p (q.leave id) := h
      exact left.onSession (diagnostics_withReference key id)

/-! ## Whole builds -/

/-- **Calls report what belongs to their errors**, at any depth. -/
theorem calls_report (hb : b.merger = .byPrototype) : ∀ depth, (b.calls depth).Report
  | 0 => ⟨id, id⟩
  | depth + 1 =>
    have hc := calls_report hb depth
    ⟨processWith_reports hb hc _ _, provideWith_reports hb hc _ _ _⟩

end Build

/-- The error that a build ended with. -/
def Outcome.error? (o : Outcome) : Option AssemblyError :=
  match o.result with
  | .ok () => none
  | .error e => some e

theorem Outcome.error?_eq_some {o : Outcome} {e : AssemblyError} (h : o.error? = some e) :
    o.result = .error e := by
  unfold error? at h
  split at h
  · cases h
  · next he => rw [he, Option.some.inj h]

/-- **A result with what is reported of it**, from what was reported before. -/
structure Outcome.Reports (o : Outcome) (s : Session) : Prop where
  quiet : o.result = .ok () → o.session.diagnostics = s.diagnostics
  owns : ∀ e, o.result = .error e →
    ∃ told, o.session.diagnostics = s.diagnostics ++ told ∧ e.Reports told

namespace Build

variable {b : Build} {s : Session}

theorem process_reports (hb : b.merger = .byPrototype) {key : ModuleKey} {scope : Scope} {o : Outcome}
    (ho : b.process s key scope = some o) : o.Reports s := by
  obtain ⟨depth, r, p, hx, rfl⟩ := exists_depth_of_process ho
  have ends := ((calls_report hb depth).process (p := ⟨s, .empty, []⟩)).of_eq_some hx
  cases r with
  | error e => exact ⟨nofun, fun _ he => Except.error.inj he ▸ ends⟩
  | ok u => exact ⟨fun _ => ends, nofun⟩

/-- Of scopes that are processed in turn the last one alone can report anything. -/
theorem processEach_reports (hb : b.merger = .byPrototype) {targets : List (ModuleKey × Scope)} :
    ∀ {s : Session} {o : Outcome}, b.processEach s targets = some o → o.Reports s := by
  induction targets with
  | nil =>
    intro s o ho
    cases ho
    exact ⟨fun _ => rfl, nofun⟩
  | cons t rest ih =>
    intro s o ho
    obtain ⟨first, hfirst, hrest⟩ := Option.bind_eq_some_iff.1 ho
    have reports := process_reports hb hfirst
    unfold andThen at hrest
    cases hr : first.result with
    | error e =>
      rw [hr] at hrest
      cases hrest
      exact reports
    | ok u =>
      rw [hr] at hrest
      obtain ⟨later, hlater, rfl⟩ := Option.map_eq_some_iff.1 hrest
      have later := ih hlater
      have kept := reports.quiet hr
      exact ⟨fun hok => (later.quiet hok).trans kept, fun e he => kept ▸ later.owns e he⟩

/-- **Diagnostics match results**: from any session, processing a scope has an outcome; if it
went well nothing was reported, and if it failed then what belongs to its error, which is one
diagnostic at most. -/
theorem diagnostics_match_result (b : Build) (hb : b.merger = .byPrototype) (s : Session)
    (key : ModuleKey) (scope : Scope) :
    ∃ o, b.process s key scope = some o ∧
      (o.result = .ok () → o.session.diagnostics = s.diagnostics) ∧
      ∀ e, o.result = .error e → ∃ told,
        o.session.diagnostics = s.diagnostics ++ told ∧ e.Reports told ∧ told.length ≤ 1 := by
  obtain ⟨o, ho⟩ := exists_process hb s key scope
  have reports := process_reports hb ho
  refine ⟨o, ho, reports.quiet, fun e he => ?_⟩
  obtain ⟨told, ht, hr⟩ := reports.owns e he
  exact ⟨told, ht, hr, hr.length_le_one⟩

/-- In `knot` the one error comes with one diagnostic. -/
theorem knot_diagnostics_match :
    let app := (Identity.of "g" "app" "1").withType featureType
    let lib := (Identity.of "g" "lib" "1").withType featureType
    ∃ o d, knot.process (.start knot.reactor) ⟨"g:app"⟩ .main = some o ∧
      o.result = .error (.unresolvedReference lib app) ∧
      o.session.diagnostics = [d] ∧ d.Unresolved app := by
  intro app lib
  obtain ⟨o, ho, -, failed⟩ := diagnostics_match_result knot rfl (.start knot.reactor) ⟨"g:app"⟩ .main
  have run : (knot.process (.start knot.reactor) ⟨"g:app"⟩ .main).bind Outcome.error? =
      some (.unresolvedReference lib app) := by decide +kernel
  rw [ho] at run
  have result := Outcome.error?_eq_some run
  obtain ⟨told, ht, ⟨d, rfl, hu⟩, -⟩ := failed _ result
  exact ⟨o, d, ho, result, ht, hu⟩

end Build

end FeatureAssembly
