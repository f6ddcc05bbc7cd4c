import FeatureAssembly.Proofs.Vetting

/-!
# Accepted raw features

What classifier checks leave behind, for any merger that keeps to its contract: errors of the
provider are propagated unchanged (`Inquiry.PassesOn`).

**The law** (`Build.processEach_clean`): while all goes well, a module of which anything is read has
accepted raw features. A scope is checked as soon as it is read, together with what is there of the
other one, and the packaged unit that main gets behind it has no part in the check.

What it does not establish: anything of a session after an error. What was refused stays in the
store, and a merger that keeps the refusal to itself would have the build go on with it.
-/

set_option autoImplicit false

namespace FeatureAssembly

open Step

/-- **An inquiry passes errors on**: an error in answer to a question is its outcome. -/
inductive Inquiry.PassesOn : Inquiry → Prop where
  | done (result : Except AssemblyError Feature) : PassesOn (.done result)
  | ask {id : Identity} {next : Answer → Inquiry} (fails : ∀ e, next (.error e) = .done (.error e))
      (goesOn : ∀ found, PassesOn (next (.ok found))) : PassesOn (.ask id next)
  | remark {text : String} {next : Inquiry} (goesOn : PassesOn next) : PassesOn (.remark text next)

/-- **A merger passes errors on**, whatever it assembles. -/
def Merger.PassesOn (merger : Merger) : Prop := ∀ base, (merger.assemble base).PassesOn

theorem Merger.byPrototype_passesOn : byPrototype.PassesOn := by
  intro base
  show (assembleByPrototype base).PassesOn
  unfold assembleByPrototype
  split
  · exact .done _
  · split
    · exact .done _
    · exact .ask (fun _ => rfl) fun _ => .done _

namespace Build

variable {b : Build} {calls : Calls} {s s' : Session} {p : Progress} {m : Module} {key : ModuleKey}
  {scope : Scope} {id : Identity}

/-- **The raw features of a module are accepted**, together with its declared aggregates. -/
structure Accepted (b : Build) (s : Session) (key : ModuleKey) : Prop where
  declared : b.checkAggregates key = .ok ()
  classifiers : b.checkClassifiers key (s.state key .main).raw (s.state key .test).raw = .ok ()

/-- **A session is clean**: where raw features of a module are there, they are accepted. -/
def Clean (b : Build) (s : Session) : Prop :=
  ∀ key, (∀ scope, (s.state key scope).raw = .empty) ∨ b.Accepted s key

theorem clean_start (b : Build) (r : Reactor) : b.Clean (.start r) := by
  intro key
  left
  intro scope
  rw [state_start]
  rfl

namespace Clean

/-- Only raw features matter. -/
theorem alike (h : b.Clean s) (raw : ∀ key scope, (s'.state key scope).raw = (s.state key scope).raw) :
    b.Clean s' := by
  intro key
  rcases h key with unread | accepted
  · exact .inl fun scope => (raw key scope).trans (unread scope)
  · refine .inr ⟨accepted.declared, ?_⟩
    rw [raw, raw]
    exact accepted.classifiers

theorem of_store_eq (h : b.Clean s) (stores : ∀ key, s'.store key = s.store key) : b.Clean s' :=
  h.alike fun key scope => congrArg ScopeState.raw (Session.state_eq_of_store_eq stores key scope)

theorem recordAssembled (h : b.Clean s) (key : ModuleKey) (scope : Scope) (location : String) (g : Feature) :
    b.Clean (s.modifyStore key fun t => t.recordAssembled scope location g) :=
  h.alike (s.view_modifyStore ScopeState.raw rfl)

theorem opened (h : b.Clean p.session) (key : ModuleKey) (scope : Scope) :
    b.Clean (Build.opened key scope p).session :=
  h.alike (p.session.view_modifyStore ScopeState.raw rfl)

/-- A scope is read, and its module is accepted. -/
theorem setRaw (h : b.Clean s) {features : FeatureMap}
    (accepted : b.Accepted (s.modifyStore key fun t => t.setRaw scope features) key) :
    b.Clean (s.modifyStore key fun t => t.setRaw scope features) := by
  intro key'
  by_cases hk : key' = key
  · rw [hk]
    exact .inr accepted
  · have same : ∀ scope', (s.modifyStore key fun t => t.setRaw scope features).state key' scope' =
        s.state key' scope' := by
      intro scope'
      exact s.state_modifyStore_of_ne _ fun here => hk here.1
    refine (h key').imp ?_ ?_
    · exact fun unread scope' => (congrArg ScopeState.raw (same scope')).trans (unread scope')
    · intro accepted
      refine ⟨accepted.declared, ?_⟩
      rw [same, same]
      exact accepted.classifiers

end Clean

/-- A step ends with a clean session, or with an error. -/
def Cleanly (b : Build) {α : Type} : Except AssemblyError α → Progress → Prop :=
  either (fun _ q => b.Clean q.session) fun _ _ => True

/-- The packaged unit has no part in a check. -/
theorem checkClassifiers_withUnit (m : Module) {main test : FeatureMap}
    (h : b.checkClassifiers key main test = .ok ()) :
    b.checkClassifiers key (b.withUnit m main) test = .ok () := by
  apply Classifiers.checkModule_mono h
  · rw [ofFeatures_withUnit]
  · exact .refl _

end Build

/-- **Calls that keep a session clean**, or fail. -/
structure Calls.KeepClean (calls : Calls) (b : Build) : Prop where
  process : ∀ {key scope p}, b.Clean p.session → Ends False (calls.process key scope) p b.Cleanly
  provide : ∀ {key scope id p}, b.Clean p.session → Ends False (calls.provide key scope id) p b.Cleanly

namespace Build

variable {b : Build} {calls : Calls} {s s' : Session} {p : Progress} {m : Module} {key : ModuleKey}
  {scope : Scope} {id : Identity}

/-! ## Merging -/

/-- An inquiry that comes to a feature has been answered with no error. -/
theorem run_clean (hc : calls.KeepClean b) {q : Inquiry} (passes : q.PassesOn) (h : b.Clean p.session) :
    Ends False (q.run (fun id => attempt (calls.provide key scope id)) fun text => record (.remarked text)) p
      (either (fun r p' => ∀ g, r = .ok g → b.Clean p'.session) fun _ _ => True) := by
  induction passes generalizing p with
  | done r => exact fun _ _ => h
  | @ask id next fails _ ih =>
    simp only [Inquiry.run, ends_bind, ends_attempt]
    apply (hc.provide h).mono
    intro r p' hr
    cases r with
    | error e =>
      rw [either_ok, fails]
      intro g hg
      cases hg
    | ok found => exact ih found hr
  | remark _ ih => exact ih h

theorem merge_clean (passes : b.merger.PassesOn) (hc : calls.KeepClean b) (h : b.Clean p.session)
    (location : String) (base : Feature) :
    Ends False (b.merge calls key scope location base) p b.Cleanly := by
  unfold merge
  simp only [ends_bind, ends_record, either_ok, ends_conclude]
  apply (run_clean hc (passes base) (p := p.note (.merging key scope location base.id)) h).mono
  intro r p' hr
  cases r with
  | error e => exact trivial
  | ok r =>
    cases r with
    | error e => exact trivial
    | ok g => exact hr g rfl

theorem assembleAt_clean (passes : b.merger.PassesOn) (hc : calls.KeepClean b) (h : b.Clean p.session)
    (e : String × Feature) : Ends False (b.assembleAt calls key scope e) p b.Cleanly := by
  apply ends_assembleAt key scope e
  case done => exact fun _ => h
  case held =>
    intro _ _
    apply (merge_clean passes hc h e.1 e.2).mono
    intro r q hq
    cases r with
    | error err => exact trivial
    | ok g => exact Clean.recordAssembled hq key scope e.1 g
  case free =>
    intro _ _
    apply (merge_clean passes hc (p := p.enter e.2.id) h e.1 e.2).mono
    intro r q hq
    cases r with
    | error err => exact trivial
    | ok g => exact Clean.recordAssembled hq key scope e.1 g

theorem forM_clean {β : Type} {x : β → Step Unit} {l : List β} (h : b.Clean p.session)
    (hx : ∀ a q, b.Clean q.session → Ends False (x a) q b.Cleanly) : Ends False (l.forM x) p b.Cleanly := by
  apply ends_forM (fun _ q => b.Clean q.session) h fun _ hq => hq
  intro a rest q _ hq
  apply (hx a q hq).mono
  intro r q' hq'
  cases r <;> exact hq'

theorem buildAggregate_clean (h : b.Clean p.session) (m : Module) (d : AggregateDecl) :
    Ends False (b.buildAggregate m d) p b.Cleanly := by
  apply ends_buildAggregate m d
  case done => exact fun _ => h
  case empty => exact trivial
  case built => exact fun _ _ => h.recordAssembled m.key d.scope _ _

/-! ## Processing -/

/-- The unit is attached to what is accepted. -/
theorem attachPackagedUnit_clean (h : b.Clean p.session) (accepted : b.Accepted p.session m.key) :
    Ends False (b.attachPackagedUnit m) p b.Cleanly := by
  apply ends_attachPackagedUnit m
  case several => exact fun _ => trivial
  case attached =>
    intro s stores _ _ _
    apply Clean.of_store_eq _ stores
    have test : (p.session.modifyStore m.key fun t =>
        t.setRaw .main (b.withUnit m ((p.session.store m.key).raw .main))).state m.key .test =
          p.session.state m.key .test :=
      p.session.state_modifyStore_of_ne _ (by simp)
    refine h.setRaw ⟨accepted.declared, ?_⟩
    rw [p.session.raw_setRaw, test]
    exact checkClassifiers_withUnit m accepted.classifiers

/-- **A scope is read cleanly**: it is checked before anything else is done with it. -/
theorem processMarked_clean (passes : b.merger.PassesOn) (hc : calls.KeepClean b) (h : b.Clean p.session)
    (dependencies : List Dependency) :
    Ends False (b.processMarked calls (m.dependingOn dependencies) scope) p b.Cleanly := by
  let clean : Progress → Prop := fun q => b.Clean q.session
  apply ends_processMarked m dependencies scope (fun q => clean q ∧ b.Accepted q.session m.key) clean clean clean
  case undeclared => exact fun _ _ => trivial
  case unread => exact fun _ _ => trivial
  case check =>
    intro features declared _
    apply ends_checkStore m.key
    case clean => exact fun accepted => ⟨h.setRaw ⟨declared, accepted⟩, declared, accepted⟩
    case clash => exact fun _ _ => trivial
  case attach =>
    rintro q - ⟨hq, accepted⟩
    apply (attachPackagedUnit_clean hq accepted).mono
    intro r q' hq'
    cases r <;> exact hq'
  case pass => exact fun q _ hq => hq.1
  case assemble =>
    intro q hq
    apply (forM_clean hq fun e q' hq' => assembleAt_clean passes hc hq' e).mono
    intro r q' hq'
    cases r <;> exact hq'
  case aggregate =>
    intro q hq
    apply (forM_clean hq fun d q' hq' => buildAggregate_clean hq' m d).mono
    intro r q' hq'
    cases r <;> exact hq'
  case augment => exact fun q hq => hq.of_store_eq (b.store_augmented m.key scope q.session)

theorem processWith_clean (passes : b.merger.PassesOn) (hc : calls.KeepClean b) (h : b.Clean p.session) :
    Ends False (b.processWith calls key scope) p b.Cleanly := by
  apply ends_processWith key scope
  case unknown => exact fun _ => trivial
  case done => exact fun _ _ _ => h
  case main => exact fun m _ _ _ => processMarked_clean passes hc (h.opened key scope) _
  case test =>
    intro m _ _ _
    apply (hc.process (h.opened key scope)).mono
    intro r q hq
    cases r with
    | error e => exact trivial
    | ok u => exact processMarked_clean passes hc hq _

/-! ## Providing -/

theorem processReleased_clean (hc : calls.KeepClean b) (h : b.Clean p.session) :
    Ends False (processReleased calls id key scope) p b.Cleanly := by
  apply ends_processReleased id key scope
  apply (hc.process (p := p.leave id) h).mono
  intro r q hq
  cases r <;> exact hq

theorem lookIn_clean (passes : b.merger.PassesOn) (hc : calls.KeepClean b) {wanted : Scope}
    {scopes : List Scope} (h : b.Clean p.session) :
    Ends False (b.lookIn calls key wanted id scopes) p b.Cleanly := by
  induction scopes generalizing p with
  | nil => exact ends_lookIn_nil key wanted id h
  | cons scope rest ih =>
    apply ends_lookIn_cons key wanted id scope rest fun q => b.Clean q.session
    case open_ =>
      intro _
      apply (processReleased_clean hc h).mono
      intro r q hq
      cases r <;> exact hq
    case pass => exact fun _ => h
    case found => exact fun _ _ _ hq _ => hq
    case absent => exact fun _ hq _ _ => ih hq
    case raw =>
      intro q location f hq _ _
      apply (merge_clean passes hc hq location f).mono
      intro r q' hq'
      cases r with
      | error e => exact trivial
      | ok g => exact Clean.recordAssembled hq' key scope location g

theorem find_clean (passes : b.merger.PassesOn) (hc : calls.KeepClean b) (h : b.Clean p.session) :
    Ends False (b.find calls key scope id) p b.Cleanly := by
  apply ends_find key scope id
  case own => exact fun _ => lookIn_clean passes hc h
  case other =>
    intro _ _
    apply (processReleased_clean hc h).mono
    intro r q hq
    cases r with
    | error e => exact trivial
    | ok u => exact lookIn_clean passes hc hq
  case outside => exact fun _ _ _ _ => h
  case nowhere => exact fun _ _ _ _ _ => h
  case broken => exact fun _ _ _ _ _ => trivial

theorem provideWith_clean (passes : b.merger.PassesOn) (hc : calls.KeepClean b) (h : b.Clean p.session) :
    Ends False (b.provideWith calls key scope id) p b.Cleanly := by
  apply ends_provideWith key scope id
  case cycle => exact fun _ => h.of_store_eq (p.session.store_report (.cycle key id))
  case ask =>
    intro _
    apply (find_clean passes hc (p := p.enter id) h).mono
    intro r q hq
    cases r with
    | error e => exact trivial
    | ok found =>
      cases found with
      | none => exact Clean.of_store_eq hq (q.session.store_report (.notFound key id))
      | some f => exact Clean.of_store_eq hq (store_withReference key id q.session)

/-- **Calls keep a session clean**, at any depth. -/
theorem calls_keepClean (passes : b.merger.PassesOn) : ∀ depth, (b.calls depth).KeepClean b
  | 0 => ⟨fun _ => id, fun _ => id⟩
  | depth + 1 =>
    have hc := calls_keepClean passes depth
    ⟨processWith_clean passes hc, provideWith_clean passes hc⟩

/-! ## Whole builds -/

theorem process_clean (passes : b.merger.PassesOn) (h : b.Clean s) {o : Outcome}
    (ho : b.process s key scope = some o) (hok : o.result = .ok ()) : b.Clean o.session := by
  obtain ⟨depth, r, q, hx, rfl⟩ := exists_depth_of_process ho
  have ends := ((calls_keepClean passes depth).process (p := ⟨s, .empty, []⟩) h).of_eq_some hx
  obtain rfl : r = .ok () := hok
  exact ends

/-- **A build that goes well leaves a clean session.** -/
theorem processEach_clean (passes : b.merger.PassesOn) {targets : List (ModuleKey × Scope)} (h : b.Clean s)
    {o : Outcome} (ho : b.processEach s targets = some o) (hok : o.result = .ok ()) : b.Clean o.session := by
  induction targets generalizing s o with
  | nil =>
    cases ho
    exact h
  | cons t rest ih =>
    obtain ⟨first, hfirst, hrest⟩ := Option.bind_eq_some_iff.1 ho
    unfold andThen at hrest
    cases hr : first.result with
    | error e =>
      rw [hr] at hrest
      cases hrest
      cases hr.symm.trans hok
    | ok u =>
      rw [hr] at hrest
      obtain ⟨later, hlater, rfl⟩ := Option.map_eq_some_iff.1 hrest
      have clean : b.Clean later.session := ih (process_clean passes h hfirst hr) hlater hok
      exact clean

end Build

end FeatureAssembly
