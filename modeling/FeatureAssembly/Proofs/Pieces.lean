import FeatureAssembly.Assembly.Run
import FeatureAssembly.Merge.ByPrototype
import FeatureAssembly.Proofs.Step

/-!
# How the pieces of a build end

One rule for each piece of a build: what has to be shown at each of its exits, and of each
call in between, for the piece to end in a certain way. Every statement on one run of a build
is proved from these rules; only a comparison of two runs opens the pieces itself.

The rules name the cases. Where a piece does several things in turn, the rule takes a
condition for each place in between (`ends_processMarked`, `ends_lookIn_cons`).

**The merger** is the one by prototype: it asks for one feature at most, and hands on what
the answer makes of the feature (`ends_merge`).
-/

set_option autoImplicit false

namespace FeatureAssembly

open Step

/-- Calls that end like others wherever those end, up to some events. -/
structure Calls.Track (parts : Event → Prop) (calls calls' : Calls) : Prop where
  process : ∀ key scope, Tracks parts (calls.process key scope) (calls'.process key scope)
  provide : ∀ key scope id,
    Tracks parts (calls.provide key scope id) (calls'.provide key scope id)

/-- Calls that end like others wherever those end. -/
structure Calls.Refine (calls calls' : Calls) : Prop where
  process : ∀ key scope, Refines (calls.process key scope) (calls'.process key scope)
  provide : ∀ key scope id, Refines (calls.provide key scope id) (calls'.provide key scope id)

namespace Build

variable {b : Build} {calls : Calls} {total : Prop} {p : Progress}

/-! ## Checks and the packaged unit -/

section Checks

variable {post : Except AssemblyError Unit → Progress → Prop}

theorem ends_checkStore (key : ModuleKey)
    (clean : b.checkClassifiers key ((p.session.store key).raw .main)
      ((p.session.store key).raw .test) = .ok () → post (.ok ()) p)
    (clash : ∀ e, b.checkClassifiers key ((p.session.store key).raw .main)
      ((p.session.store key).raw .test) = .error e →
      post (.error (.classifier e)) (p.onSession fun s => s.report (.classifiers e))) :
    Ends total (b.checkStore key) p post := by
  unfold checkStore
  simp only [ends_bind, ends_store, either_ok]
  split
  · next h => exact clean h
  · next h => exact clash _ h

/-- The raw features of a module scope with the packaged unit attached, where it is. -/
def withUnit (b : Build) (m : Module) (features : FeatureMap) : FeatureMap :=
  if b.config.attachPackagedUnit && m.hasPackagedUnit then
    match features.entries with
    | [(location, f)] =>
      features.insert location { f with bundles := f.bundles.insert (b.packagedUnit m) }
    | _ => features
  else features

/-- With or without the packaged unit, the features are at the same locations, and agree in
identity, prototype and mark. -/
theorem withUnit_entries (m : Module) (features : FeatureMap) :
    ∃ g : Feature → Feature,
      (∀ f, (g f).id = f.id ∧ (g f).prototype = f.prototype ∧ (g f).assembled = f.assembled) ∧
      (b.withUnit m features).entries = features.entries.map fun e => (e.1, g e.2) := by
  have same : ∃ g : Feature → Feature,
      (∀ f, (g f).id = f.id ∧ (g f).prototype = f.prototype ∧ (g f).assembled = f.assembled) ∧
      features.entries = features.entries.map fun e => (e.1, g e.2) :=
    ⟨id, fun _ => ⟨rfl, rfl, rfl⟩, (List.map_id _).symm⟩
  unfold withUnit
  split
  · split
    · next location f h =>
      refine ⟨fun f => { f with bundles := f.bundles.insert (b.packagedUnit m) },
        fun _ => ⟨rfl, rfl, rfl⟩, ?_⟩
      show SortedMap.insertEntry location _ features.entries = _
      rw [h]
      simp only [SortedMap.insertEntry, Std.ReflOrd.compare_self, List.map_cons, List.map_nil]
    · exact same
  · exact same

/-- Of several features none gets the packaged unit. -/
theorem withUnit_of_several (m : Module) {features : FeatureMap} (h : 1 < features.size) :
    b.withUnit m features = features := by
  unfold withUnit
  split
  · split
    · next location f he =>
      unfold SortedMap.size at h
      rw [he] at h
      exact absurd h (Nat.lt_irrefl 1)
    · rfl
  · rfl

/-- The packaged unit is attached in place, or there are several features to choose from, which are
reported in order. -/
theorem ends_attachPackagedUnit_keys (m : Module)
    (attached : ∀ s, (∀ key, s.store key = (p.session.modifyStore m.key fun t =>
        t.setRaw .main (b.withUnit m ((p.session.store m.key).raw .main))).store key) →
      s.references = p.session.references → s.dependencies = p.session.dependencies →
      s.diagnostics = p.session.diagnostics →
      (b.config.attachPackagedUnit && m.hasPackagedUnit) = false ∨
        ((p.session.store m.key).raw .main).size ≤ 1 → post (.ok ()) (p.onSession fun _ => s))
    (several : (b.config.attachPackagedUnit && m.hasPackagedUnit) = true →
      1 < ((p.session.store m.key).raw .main).size →
      post (.error (.ambiguousPackagedUnit m.key ((p.session.store m.key).raw .main).keys))
        (p.onSession fun s => s.report (.ambiguousUnit m.key ((p.session.store m.key).raw .main).keys))) :
    Ends total (b.attachPackagedUnit m) p post := by
  unfold SortedMap.size SortedMap.keys at *
  have kept : b.withUnit m ((p.session.store m.key).raw .main) = (p.session.store m.key).raw .main →
      (b.config.attachPackagedUnit && m.hasPackagedUnit) = false ∨
        ((p.session.store m.key).raw .main).entries.length ≤ 1 → post (.ok ()) p := fun h => by
    refine attached p.session (fun key => ?_) rfl rfl rfl
    rw [Session.store_modifyStore]
    split
    · next hk => subst hk; rw [h]; rfl
    · rfl
  unfold attachPackagedUnit
  simp only [ends_bind, ends_store, either_ok, ends_ite]
  split
  · next ha =>
    split
    · next h => exact kept (by simp only [withUnit, h, ite_self]) (.inr (by rw [h]; exact Nat.zero_le 1))
    · next location f h =>
      refine attached _ (fun key => ?_) rfl rfl rfl (.inr (by rw [h]; exact Nat.le_refl 1))
      simp only [Session.store_modifyStore, withUnit, ha, if_true, h]
      rfl
    · next none one =>
      refine several ha ?_
      rcases hl : ((p.session.store m.key).raw .main).entries with _ | ⟨e, _ | ⟨e', rest⟩⟩
      · exact absurd hl none
      · exact absurd hl (one e.1 e.2)
      · exact Nat.succ_lt_succ (Nat.zero_lt_succ _)
  · next ha => exact kept (by rw [withUnit, if_neg ha]) (.inl (Bool.eq_false_iff.2 ha))

/-- The packaged unit is attached in place, or there are several features to choose from. -/
theorem ends_attachPackagedUnit (m : Module)
    (attached : ∀ s, (∀ key, s.store key = (p.session.modifyStore m.key fun t =>
        t.setRaw .main (b.withUnit m ((p.session.store m.key).raw .main))).store key) →
      s.references = p.session.references → s.dependencies = p.session.dependencies →
      s.diagnostics = p.session.diagnostics → post (.ok ()) (p.onSession fun _ => s))
    (several : ∀ locations, post (.error (.ambiguousPackagedUnit m.key locations))
      (p.onSession fun s => s.report (.ambiguousUnit m.key locations))) :
    Ends total (b.attachPackagedUnit m) p post :=
  ends_attachPackagedUnit_keys m (fun s stores references dependencies diagnostics _ =>
    attached s stores references dependencies diagnostics) fun _ _ => several _

end Checks

/-! ## Assembling -/

/-- A merge is done with what the feature is, or with what the answer to its one question
makes of it. -/
theorem ends_merge (hb : b.merger = .byPrototype) (key : ModuleKey) (scope : Scope)
    (location : String) (base : Feature) {post : Except AssemblyError Feature → Progress → Prop}
    (final : base.assembled = true → post (.ok base)
      ((p.note (.merging key scope location base.id)).note (.merged key scope location)))
    (alone : base.assembled = false → base.prototype = none →
      post (.ok ((Feature.of base.id).overlay base).finished)
        ((p.note (.merging key scope location base.id)).note (.merged key scope location)))
    (inheriting : ∀ prototype, base.assembled = false → base.prototype = some prototype →
      Ends total (calls.provide key scope prototype.id)
        (p.note (.merging key scope location base.id)) fun answer p' =>
          post (Merger.onPrototype base prototype answer) (p'.note (.merged key scope location))) :
    Ends total (b.merge calls key scope location base) p post := by
  unfold merge
  rw [hb]
  simp only [ends_bind, ends_record, either_ok, ends_conclude, Merger.byPrototype,
    Merger.assembleByPrototype]
  split
  · next h => exact final h
  · next h =>
    have raw : base.assembled = false := Bool.eq_false_iff.2 h
    split
    · next hp => exact alone raw hp
    · next prototype hp =>
      simp only [Inquiry.run, ends_bind, ends_attempt, ends_pure]
      exact inheriting prototype raw hp

/-- Nothing is done at a location where that is done. Elsewhere the feature is merged with
its identity in flight, which is taken out of flight behind it if it was put there. -/
theorem ends_assembleAt (key : ModuleKey) (scope : Scope) (e : String × Feature)
    {post : Except AssemblyError Unit → Progress → Prop}
    (done : (p.session.store key).isAssembled scope e.1 = true → post (.ok ()) p)
    (held : (p.session.store key).isAssembled scope e.1 = false →
      p.inFlight.contains e.2.id = true →
      Ends total (b.merge calls key scope e.1 e.2) p
        (either (fun g p' => post (.ok ()) (p'.onSession fun s =>
          s.modifyStore key fun t => t.recordAssembled scope e.1 g)) fun err => post (.error err)))
    (free : (p.session.store key).isAssembled scope e.1 = false →
      p.inFlight.contains e.2.id = false →
      Ends total (b.merge calls key scope e.1 e.2) (p.enter e.2.id)
        (either (fun g p' => post (.ok ()) ((p'.leave e.2.id).onSession fun s =>
            s.modifyStore key fun t => t.recordAssembled scope e.1 g))
          fun err p' => post (.error err) (p'.leave e.2.id))) :
    Ends total (b.assembleAt calls key scope e) p post := by
  unfold assembleAt
  simp only [ends_bind, ends_store, ends_isInFlight, either_ok, ends_ite, ends_pure, ends_enter,
    ends_attempt, ends_leave, ends_conclude, ends_insertAssembled]
  cases ha : (p.session.store key).isAssembled scope e.1 with
  | true => exact done ha
  | false =>
    cases hf : p.inFlight.contains e.2.id with
    | true => exact (held ha hf).mono fun r p' h => by cases r <;> exact h
    | false => exact (free ha hf).mono fun r p' h => by cases r <;> exact h

/-! ## Aggregates -/

theorem ends_buildAggregate (m : Module) (d : AggregateDecl)
    {post : Except AssemblyError Unit → Progress → Prop}
    (done : (p.session.store m.key).isAssembled d.scope (aggregateKey d.classifier) = true →
      post (.ok ()) p)
    (empty : post (.error (.emptyAggregate m.key d.classifier)) p)
    (built : (p.session.store m.key).isAssembled d.scope (aggregateKey d.classifier) = false →
      aggregateParts (p.session.store m.key) d ≠ [] →
      post (.ok ()) ((p.note (.aggregated (aggregateIdentity m d)
          ((aggregateParts (p.session.store m.key) d).map Feature.id))).onSession fun s =>
        s.modifyStore m.key fun t => t.recordAssembled d.scope (aggregateKey d.classifier)
          (b.merger.aggregate (aggregateIdentity m d)
            (aggregateParts (p.session.store m.key) d)))) :
    Ends total (b.buildAggregate m d) p post := by
  unfold buildAggregate
  simp only [ends_bind, ends_store, either_ok, ends_ite, ends_pure]
  split
  · next h =>
    split
    · exact empty
    · next selected => exact built (by simpa using h) fun none => selected (List.isEmpty_iff.2 none)
  · next h => exact done (by simpa using h)

/-! ## Processing -/

/-- The session with the missing dependencies of a module scope, where they are wanted. -/
def augmented (b : Build) (key : ModuleKey) (scope : Scope) (s : Session) : Session :=
  if b.config.skipDependencyAugmentation then s else b.augment key scope s

/-- **A marked scope** is read with the dependencies that its module has, checked, given its unit,
assembled, aggregated and augmented, with a condition for each place in between. -/
theorem ends_processMarked (m : Module) (dependencies : List Dependency) (scope : Scope)
    {post : Except AssemblyError Unit → Progress → Prop}
    (checked attached assembled aggregated : Progress → Prop)
    (undeclared : ∀ e, b.checkAggregates m.key = .error e → post (.error e) p)
    (unread : ∀ e, b.load (m.dependingOn dependencies) scope = .error e →
      post (.error e) (p.note (.loaded m.key dependencies scope)))
    (check : ∀ features, b.checkAggregates m.key = .ok () →
      b.load (m.dependingOn dependencies) scope = .ok features →
      Ends total (b.checkStore m.key)
        ((p.note (.loaded m.key dependencies scope)).onSession fun s =>
          s.modifyStore m.key fun t => t.setRaw scope features)
        (either (fun _ => checked) fun e => post (.error e)))
    (attach : ∀ p, scope = .main → checked p →
      Ends total (b.attachPackagedUnit m) p (either (fun _ => attached) fun e => post (.error e)))
    (pass : ∀ p, scope = .test → checked p → attached p)
    (assemble : ∀ p, attached p →
      Ends total (((p.session.store m.key).raw scope).entries.forM (b.assembleAt calls m.key scope))
        p (either (fun _ => assembled) fun e => post (.error e)))
    (aggregate : ∀ p, assembled p →
      Ends total (b.buildAggregates m scope) p
        (either (fun _ => aggregated) fun e => post (.error e)))
    (augment : ∀ p, aggregated p → post (.ok ()) (p.onSession (b.augmented m.key scope))) :
    Ends total (b.processMarked calls (m.dependingOn dependencies) scope) p post := by
  have finish : ∀ p, attached p → Ends total
      (do ((← store m.key).raw scope).entries.forM (b.assembleAt calls m.key scope)
          b.buildAggregates m scope
          if !b.config.skipDependencyAugmentation then update (b.augment m.key scope))
      p post := fun p hp => by
    simp only [ends_bind, ends_store, either_ok, ends_ite, ends_update, ends_pure]
    refine (assemble p hp).mono fun r p h => ?_
    cases r with
    | error e => exact h
    | ok u =>
      refine (aggregate p h).mono fun r p h => ?_
      cases r with
      | error e => exact h
      | ok u =>
        have h := augment p h
        unfold augmented at h
        cases hs : b.config.skipDependencyAugmentation with
        | true => rw [hs] at h; exact h
        | false => rw [hs] at h; exact h
  unfold processMarked
  simp only [ends_bind, ends_conclude, Module.key_dependingOn]
  cases hd : b.checkAggregates m.key with
  | error e => exact undeclared e hd
  | ok u =>
    simp only [either_ok, ends_record]
    cases hl : b.load (m.dependingOn dependencies) scope with
    | error e => exact unread e hl
    | ok features =>
      simp only [either_ok, ends_updateStore]
      refine (check features hd hl).mono fun r p h => ?_
      cases r with
      | error e => exact h
      | ok u =>
        cases scope with
        | main =>
          refine (ends_bind _ _).2 ((attach p rfl h).mono fun r p h => ?_)
          cases r with
          | error e => exact h
          | ok u => exact finish p h
        | test => exact finish p (pass p rfl h)

/-- The progress with a scope marked and opened. -/
def opened (key : ModuleKey) (scope : Scope) (p : Progress) : Progress :=
  (p.onSession fun s => s.modifyStore key fun t => t.markProcessed scope).note (.opened key scope)

/-- **A scope is processed once**, test behind main, with the dependencies that the module had
before. -/
theorem ends_processWith (key : ModuleKey) (scope : Scope)
    {post : Except AssemblyError Unit → Progress → Prop}
    (unknown : b.reactor.get? key = none → post (.error (.unknownModule key)) p)
    (done : ∀ m, b.reactor.get? key = some m →
      (p.session.store key).isProcessed scope = true → post (.ok ()) p)
    (main : ∀ m, b.reactor.get? key = some m →
      (p.session.store key).isProcessed scope = false → scope = .main →
      Ends total (b.processMarked calls (p.session.current m) scope) (opened key scope p) post)
    (test : ∀ m, b.reactor.get? key = some m →
      (p.session.store key).isProcessed scope = false → scope = .test →
      Ends total (calls.process key .main) (opened key scope p)
        (either (fun _ p' => Ends total (b.processMarked calls (p.session.current m) scope) p' post)
          fun e => post (.error e))) :
    Ends total (b.processWith calls key scope) p post := by
  unfold processWith
  split
  · next h => exact unknown h
  · next m h =>
    simp only [ends_bind, ends_session, ends_store, either_ok, ends_ite, ends_pure]
    cases hp : (p.session.store key).isProcessed scope with
    | true => exact done m h hp
    | false =>
      simp only [ends_updateStore, ends_record, either_ok, Bool.not_false, if_true]
      cases scope with
      | main => exact main m h hp rfl
      | test => exact test m h hp rfl

/-- **A scope that is marked** is left alone. -/
theorem ends_processWith_marked {key : ModuleKey} {scope : Scope} (known : b.reactor.contains key = true)
    (marked : (p.session.store key).isProcessed scope = true) :
    Ends total (b.processWith calls key scope) p fun r p' => r = .ok () ∧ p' = p := by
  refine ends_processWith key scope (fun unknown => ?_) (fun _ _ _ => ⟨rfl, rfl⟩) (fun _ _ hn => ?_)
    fun _ _ hn => ?_
  · unfold Reactor.contains at known
    rw [unknown] at known
    cases known
  · cases hn.symm.trans marked
  · cases hn.symm.trans marked

/-! ## Providing -/

/-- The identity is out of flight while the scope is processed. -/
theorem ends_processReleased (id : Identity) (key : ModuleKey) (scope : Scope)
    {post : Except AssemblyError Unit → Progress → Prop}
    (h : Ends total (calls.process key scope) (p.leave id) fun r p' => post r (p'.enter id)) :
    Ends total (processReleased calls id key scope) p post := by
  unfold processReleased
  simp only [ends_bind, ends_leave, either_ok, ends_attempt, ends_enter, ends_conclude]
  exact h

section Providing

variable {post : Except AssemblyError (Option Feature) → Progress → Prop}

theorem ends_lookIn_nil (key : ModuleKey) (wanted : Scope) (id : Identity)
    (h : post (.ok none) p) : Ends total (b.lookIn calls key wanted id []) p post := h

/-- **A scope is looked in** when it is ready: for an assembled feature, else for a raw one,
which is then merged, else in the scopes behind it. -/
theorem ends_lookIn_cons (key : ModuleKey) (wanted : Scope) (id : Identity) (scope : Scope)
    (rest : List Scope) (ready : Progress → Prop)
    (open_ : scope ≠ wanted → Ends total (processReleased calls id key scope) p
      (either (fun _ => ready) fun e => post (.error e)))
    (pass : scope = wanted → ready p)
    (found : ∀ p location f, ready p →
      (p.session.store key).findAssembled? scope id = some (location, f) → post (.ok (some f)) p)
    (absent : ∀ p, ready p → (p.session.store key).findAssembled? scope id = none →
      (p.session.store key).findRaw? scope id = none →
      Ends total (b.lookIn calls key wanted id rest) p post)
    (raw : ∀ p location f, ready p → (p.session.store key).findAssembled? scope id = none →
      (p.session.store key).findRaw? scope id = some (location, f) →
      Ends total (b.merge calls key scope location f) p
        (either (fun g p' =>
            post (.ok (some ((((p'.session.store key).assembled scope).get? location).getD g)))
              (p'.onSession fun s => s.modifyStore key fun t => t.recordAssembled scope location g))
          fun e => post (.error e))) :
    Ends total (b.lookIn calls key wanted id (scope :: rest)) p post := by
  have behind : ∀ look : Step (Option Feature), (∀ p, ready p → Ends total look p post) →
      Ends total (if scope ≠ wanted then processReleased calls id key scope >>= fun _ => look else look)
        p post := by
    intro look h
    by_cases hs : scope = wanted
    · rw [if_neg fun hne => hne hs]
      exact h p (pass hs)
    · rw [if_pos hs, ends_bind]
      refine (open_ hs).mono fun r p' hr => ?_
      cases r with
      | error e => exact hr
      | ok u => exact h p' hr
  rw [lookIn]
  refine behind _ fun p hp => ?_
  simp only [ends_bind, ends_store, either_ok]
  split
  · next location f h => exact found p location f hp h
  · next h =>
    split
    · next hr => exact absent p hp h hr
    · next location f hr =>
      simp only [ends_bind, ends_insertAssembled, either_ok, ends_pure]
      exact raw p location f hp h hr

/-- **A feature is found** in its own module, in another one, processed first, or outside. -/
theorem ends_find (key : ModuleKey) (scope : Scope) (id : Identity)
    (own : id.moduleKey = key →
      Ends total (b.lookIn calls key scope id scope.visible) p post)
    (other : id.moduleKey ≠ key → b.reactor.contains id.moduleKey = true →
      Ends total (processReleased calls id id.moduleKey scope) p
        (either (fun _ p' => Ends total (b.lookIn calls id.moduleKey scope id scope.visible) p' post)
          fun e => post (.error e)))
    (outside : ∀ f, id.moduleKey ≠ key → b.reactor.contains id.moduleKey = false →
      b.loader id = .ok f → post (.ok (some f)) (p.note (.fetched id)))
    (nowhere : ∀ e, id.moduleKey ≠ key → b.reactor.contains id.moduleKey = false →
      b.loader id = .error e → e.isNotFound = true → post (.ok none) (p.note (.fetched id)))
    (broken : ∀ e, id.moduleKey ≠ key → b.reactor.contains id.moduleKey = false →
      b.loader id = .error e → e.isNotFound = false →
      post (.error (.externalResolution id e)) (p.note (.fetched id))) :
    Ends total (b.find calls key scope id) p post := by
  unfold find
  split
  · next h => exact own h
  · next h =>
    split
    · next hc =>
      simp only [ends_bind]
      exact other h hc
    · next hc =>
      have hc : b.reactor.contains id.moduleKey = false := Bool.eq_false_iff.2 hc
      unfold fetch
      simp only [ends_bind, ends_record, either_ok]
      split
      · next f hl => exact outside f h hc hl
      · next e hl =>
        cases hn : e.isNotFound with
        | true => exact nowhere e h hc hl hn
        | false => exact broken e h hc hl hn

/-- The session once an answer to a question of a module is known. -/
def withReference (key : ModuleKey) (id : Identity) (s : Session) : Session :=
  if id.isOwnedBy key then s else s.recordReference key id

/-- **A feature is provided**: not for an identity in flight, and otherwise with the
identity in flight while the feature is looked for. -/
theorem ends_provideWith (key : ModuleKey) (scope : Scope) (id : Identity)
    (cycle : p.inFlight.contains id = true → post (.ok none)
      ((p.onSession fun s => s.report (.cycle key id)).note (.answered key scope id (.ok none))))
    (ask : p.inFlight.contains id = false →
      Ends total (b.find calls key scope id) (p.enter id) (either
        (fun found p' =>
          match found with
          | some f => post (.ok (some f)) (((p'.leave id).onSession (withReference key id)).note
              (.answered key scope id (.ok (some f))))
          | none => post (.ok none) ((((p'.onSession fun s => s.report (.notFound key id)).note
              (.missing key scope id)).leave id).note (.answered key scope id (.ok none))))
        fun e p' => post (.error e) ((p'.leave id).note (.answered key scope id (.error e))))) :
    Ends total (b.provideWith calls key scope id) p post := by
  unfold provideWith
  simp only [ends_bind, ends_isInFlight, either_ok, ends_ite]
  split
  · next h => exact cycle h
  · next h =>
    simp only [ends_enter, either_ok, ends_bind, ends_attempt]
    refine (ask (Bool.eq_false_iff.2 h)).mono fun r p' h => ?_
    cases r with
    | error e => exact h
    | ok found =>
      cases found with
      | none => exact h
      | some f =>
        simp only [either_ok] at h ⊢
        simp only [reportMissing, Option.isNone_some, Bool.false_eq_true, if_false, ends_pure,
          ends_leave, either_ok, recordReference, ends_ite, ends_update, ends_record,
          ends_conclude]
        cases ho : id.isOwnedBy key with
        | false =>
          have : withReference key id = fun s => s.recordReference key id := by
            funext s
            rw [withReference, ho]
            rfl
          rwa [this] at h
        | true =>
          have : withReference key id = fun s => s := by
            funext s
            rw [withReference, ho]
            rfl
          rwa [this] at h

end Providing

/-! ## Two builds -/

/-- **An event at which builds part** that have different sources: both ask, and are answered
differently. -/
def Unlike (b : Build) (source : FeatureSource) : Event → Prop
  | .loaded key dependencies scope => ∃ m, b.reactor.get? key = some m ∧
      source (m.dependingOn dependencies) scope ≠ b.source (m.dependingOn dependencies) scope
  | _ => False

section Tracking

variable {source : FeatureSource} {calls' : Calls} (h : calls'.Track (b.Unlike source) calls)
include h

theorem merge_tracks (key : ModuleKey) (scope : Scope) (location : String) (base : Feature) :
    Tracks (b.Unlike source) ((b.withSource source).merge calls' key scope location base)
      (b.merge calls key scope location base) := by
  have run : ∀ q : Inquiry, Tracks (b.Unlike source)
      (q.run (fun id => attempt (calls'.provide key scope id)) fun text => record (.remarked text))
      (q.run (fun id => attempt (calls.provide key scope id)) fun text => record (.remarked text)) := by
    intro q
    induction q with
    | done r => exact .pure r
    | ask id next ih => exact .bind (.attempt (h.provide key scope id)) ih
    | remark text next ih => exact .bind (.record _) fun _ => ih
  exact .bind (.record _) fun _ => .bind (run _) fun r => .bind (.record _) fun _ => .conclude r

theorem assembleAt_tracks (key : ModuleKey) (scope : Scope) (e : String × Feature) :
    Tracks (b.Unlike source) ((b.withSource source).assembleAt calls' key scope e)
      (b.assembleAt calls key scope e) := by
  have merged := merge_tracks h key scope e.1 e.2
  unfold assembleAt
  refine .bind (.store key) fun _ => .ite (.bind (.isInFlight _) fun _ => ?_) (.pure ())
  have record : ∀ r, Tracks (b.Unlike source)
      (conclude r >>= fun f => insertAssembled key scope e.1 f >>= fun _ => pure ())
      (conclude r >>= fun f => insertAssembled key scope e.1 f >>= fun _ => pure ()) := fun r =>
    .bind (.conclude r) fun f => .bind (.insertAssembled key scope e.1 f) fun _ => .pure ()
  refine .ite (.bind (.enter _) fun _ => ?_) ?_
  · exact .bind (.attempt merged) fun r => .ite (.bind (.leave _) fun _ => record r) (record r)
  · exact .bind (.attempt merged) fun r => .ite (.bind (.leave _) fun _ => record r) (record r)

/-! What does no processing and provides nothing is the same in both builds. -/

omit h in
theorem checkStore_tracks (key : ModuleKey) :
    Tracks (b.Unlike source) (b.checkStore key) (b.checkStore key) := by
  unfold checkStore
  refine .bind (.store key) fun s => ?_
  split
  · exact .pure ()
  · exact .bind (.update _) fun _ => .conclude _

omit h in
theorem attachPackagedUnit_tracks (m : Module) :
    Tracks (b.Unlike source) (b.attachPackagedUnit m) (b.attachPackagedUnit m) := by
  unfold attachPackagedUnit
  refine .ite (.bind (.store m.key) fun s => ?_) (.pure ())
  split
  · exact .pure ()
  · exact .update _
  · exact .bind (.update _) fun _ => .conclude _

omit h in
theorem buildAggregates_tracks (m : Module) (scope : Scope) :
    Tracks (b.Unlike source) (b.buildAggregates m scope) (b.buildAggregates m scope) := by
  refine .forM (fun d => ?_) _
  unfold buildAggregate
  refine .bind (.store m.key) fun s => .ite ?_ (.pure ())
  have built : Tracks (b.Unlike source)
      (record (.aggregated (aggregateIdentity m d) ((aggregateParts s d).map Feature.id)) >>= fun _ =>
        insertAssembled m.key d.scope (aggregateKey d.classifier)
          (b.merger.aggregate (aggregateIdentity m d) (aggregateParts s d)) >>= fun _ => pure ())
      (record (.aggregated (aggregateIdentity m d) ((aggregateParts s d).map Feature.id)) >>= fun _ =>
        insertAssembled m.key d.scope (aggregateKey d.classifier)
          (b.merger.aggregate (aggregateIdentity m d) (aggregateParts s d)) >>= fun _ => pure ()) :=
    .bind (.record _) fun _ => .bind (.insertAssembled ..) fun _ => .pure ()
  exact .ite (.bind (.conclude _) fun _ => built) built

/-- Builds part where a source is asked that answers the other one differently. -/
theorem processMarked_tracks {m : Module} (hm : b.reactor.get? m.key = some m)
    (dependencies : List Dependency) (scope : Scope) :
    Tracks (b.Unlike source)
      ((b.withSource source).processMarked calls' (m.dependingOn dependencies) scope)
      (b.processMarked calls (m.dependingOn dependencies) scope) := by
  have asked : (b.withSource source).load (m.dependingOn dependencies) scope ≠
      b.load (m.dependingOn dependencies) scope →
      b.Unlike source (.loaded m.key dependencies scope) := fun differ =>
    ⟨m, hm, fun same => differ (congrArg (Except.mapError _) same)⟩
  have assembled := fun s : FeatureStore =>
    Tracks.forM (assembleAt_tracks h m.key scope) (s.raw scope).entries
  have finish : Tracks (b.Unlike source)
      (b.buildAggregates m scope >>= fun _ =>
        if !b.config.skipDependencyAugmentation then update (b.augment m.key scope) else pure ())
      (b.buildAggregates m scope >>= fun _ =>
        if !b.config.skipDependencyAugmentation then update (b.augment m.key scope) else pure ()) :=
    .bind (buildAggregates_tracks m scope) fun _ => .ite (.update _) (.pure ())
  refine .bind (.conclude _) fun _ => .answered asked fun features => .bind (.update _) fun _ =>
    .bind (checkStore_tracks m.key) fun _ => .ite (.bind (attachPackagedUnit_tracks m) fun _ => ?_) ?_
  · exact .bind (.store m.key) fun s => .bind (assembled s) fun _ => finish
  · exact .bind (.store m.key) fun s => .bind (assembled s) fun _ => finish

theorem processWith_tracks (key : ModuleKey) (scope : Scope) :
    Tracks (b.Unlike source) ((b.withSource source).processWith calls' key scope)
      (b.processWith calls key scope) := by
  unfold processWith
  rw [show (b.withSource source).reactor = b.reactor from rfl]
  split
  · exact .conclude _
  · next m hm =>
    obtain rfl : m.key = key := by simpa using List.find?_some hm
    have marked := fun s : Session => processMarked_tracks h hm (s.dependenciesOf m.key) scope
    refine .bind .session fun s => .bind (.store _) fun _ => .ite ?_ (.pure ())
    refine .bind (.update _) fun _ => .bind (.record _) fun _ => ?_
    exact .ite (.bind (h.process m.key .main) fun _ => marked s) (marked s)

theorem processReleased_tracks (id : Identity) (key : ModuleKey) (scope : Scope) :
    Tracks (b.Unlike source) (processReleased calls' id key scope)
      (processReleased calls id key scope) :=
  .bind (.leave id) fun _ => .bind (.attempt (h.process key scope)) fun r =>
    .bind (.enter id) fun _ => .conclude r

theorem lookIn_tracks (key : ModuleKey) (wanted : Scope) (id : Identity) (scopes : List Scope) :
    Tracks (b.Unlike source) ((b.withSource source).lookIn calls' key wanted id scopes)
      (b.lookIn calls key wanted id scopes) := by
  induction scopes with
  | nil => exact .pure none
  | cons scope rest ih =>
    have behind : ∀ look look' : Step (Option Feature), Tracks (b.Unlike source) look' look →
        Tracks (b.Unlike source)
          (if scope ≠ wanted then processReleased calls' id key scope >>= fun _ => look' else look')
          (if scope ≠ wanted then processReleased calls id key scope >>= fun _ => look else look) :=
      fun look look' hl => .ite (.bind (processReleased_tracks h id key scope) fun _ => hl) hl
    rw [lookIn, lookIn]
    refine behind _ _ (.bind (.store key) fun store => ?_)
    split
    · exact .pure _
    · split
      · exact ih
      · exact .bind (merge_tracks h key scope _ _) fun _ =>
          .bind (.insertAssembled ..) fun _ => .pure _

theorem provideWith_tracks (key : ModuleKey) (scope : Scope) (id : Identity) :
    Tracks (b.Unlike source) ((b.withSource source).provideWith calls' key scope id)
      (b.provideWith calls key scope id) := by
  have fetched : Tracks (b.Unlike source) (b.fetch id) (b.fetch id) := by
    refine .bind (.record _) fun _ => ?_
    split
    · exact .pure _
    · exact .ite (.pure none) (.conclude _)
  have found : Tracks (b.Unlike source) ((b.withSource source).find calls' key scope id)
      (b.find calls key scope id) := by
    refine .ite (lookIn_tracks h key scope id _) (.ite ?_ fetched)
    exact .bind (processReleased_tracks h id _ scope) fun _ => lookIn_tracks h _ scope id _
  have reported : ∀ f, Tracks (b.Unlike source) (reportMissing key scope id f)
      (reportMissing key scope id f) := fun f =>
    .ite (.bind (.update _) fun _ => .bind (.record _) fun _ => .pure f) (.pure f)
  have referred : ∀ answer, Tracks (b.Unlike source) (recordReference key id answer)
      (recordReference key id answer) := fun answer => by
    unfold recordReference
    split
    · exact .ite (.update _) (.pure ())
    · exact .pure ()
  refine .bind (.isInFlight id) fun _ => .ite
    (.bind (.update _) fun _ => .bind (.record _) fun _ => .pure none) (.bind (.enter id) fun _ => ?_)
  exact .bind (.attempt (.bind found reported)) fun answer => .bind (.leave id) fun _ =>
    .bind (referred answer) fun _ => .bind (.record _) fun _ => .conclude answer

end Tracking

/-- **Builds that differ in their sources track each other**, at any depth, and one with more depth
tracks one with less. -/
theorem calls_track (b : Build) (source : FeatureSource) {depth depth' : Nat} (h : depth ≤ depth') :
    ((b.withSource source).calls depth').Track (b.Unlike source) (b.calls depth) := by
  have alone : ∀ (b : Build) depth, (b.calls depth).Track (b.Unlike b.source) (b.calls depth) := by
    intro b depth
    induction depth with
    | zero => exact ⟨fun _ _ => .exhausted .exhausted, fun _ _ _ => .exhausted .exhausted⟩
    | succ depth ih => exact ⟨processWith_tracks ih, provideWith_tracks ih⟩
  induction depth generalizing depth' with
  | zero =>
    have grown := alone (b.withSource source) depth'
    exact ⟨fun key scope => .exhausted (grown.process key scope).left,
      fun key scope id => .exhausted (grown.provide key scope id).left⟩
  | succ depth ih =>
    obtain ⟨deeper, rfl⟩ : ∃ deeper, depth' = deeper + 1 := ⟨depth' - 1, by omega⟩
    have ih := ih (Nat.le_of_succ_le_succ h)
    exact ⟨processWith_tracks ih, provideWith_tracks ih⟩

/-- **More depth changes nothing** where less is enough. -/
theorem calls_refine_of_le (b : Build) {depth depth' : Nat} (h : depth ≤ depth') :
    (b.calls depth').Refine (b.calls depth) := by
  have never : ∀ e, ¬ b.Unlike b.source e := by
    intro e he
    cases e with
    | loaded key dependencies scope =>
      obtain ⟨m, -, differ⟩ := he
      exact differ rfl
    | _ => exact he
  have tracks := b.calls_track b.source h
  exact ⟨fun key scope => (tracks.process key scope).refines never,
    fun key scope id => (tracks.provide key scope id).refines never⟩

end Build

end FeatureAssembly
