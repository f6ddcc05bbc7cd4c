import FeatureAssembly.Proofs.Vetting

/-!
# Main does not depend on test

Two builds that differ only in their test features, in sessions that differ only in what is known
of test: whatever one does on behalf of main, the other one does, too.

**The law** (`Build.main_isolated_from_test`): processing main of a module has the same result in
both, comes to sessions that still differ in test only, leaves test as it was in each, and never asks
the source for test.

Main would see test in one place, the check of classifiers, which compares the main features of a
module with whatever test features of it there are. There are none: the check is made when main is
marked, and test is read behind main (`Session.TestBehindMain`).

Two runs of one build are compared step by step (`Step.Alike`), so this module opens the pieces of a
build. What is alike in two progresses, `Progress.Twins`, is kept by every step. That leaves the other
build in one of the sessions: it does the same because its source is asked for main only, with the
declared dependencies (`Build.process_alike`).
-/

set_option autoImplicit false

namespace FeatureAssembly

/-- **Sessions that differ in test only.** -/
structure Session.AlikeButForTest (s s' : Session) : Prop where
  main : ∀ key, s'.state key .main = s.state key .main
  references : s'.references = s.references
  dependencies : s'.dependencies = s.dependencies
  diagnostics : s'.diagnostics = s.diagnostics

/-- Whether sessions differ in test only is decided by the modules that they know. -/
theorem Session.alikeButForTest_iff {s s' : Session} : s.AlikeButForTest s' ↔
    (∀ key ∈ s.stores.keys ++ s'.stores.keys, s'.state key .main = s.state key .main) ∧
      s'.references = s.references ∧ s'.dependencies = s.dependencies ∧ s'.diagnostics = s.diagnostics := by
  constructor
  · exact fun h => ⟨fun key _ => h.main key, h.references, h.dependencies, h.diagnostics⟩
  · rintro ⟨main, references, dependencies, diagnostics⟩
    refine ⟨fun key => ?_, references, dependencies, diagnostics⟩
    by_cases hk : key ∈ s.stores.keys ++ s'.stores.keys
    · exact main key hk
    · have unknown : ∀ s : Session, key ∉ s.stores.keys → s.state key .main = .empty := fun s hk => by
        have absent : s.stores.get? key = none := Option.eq_none_iff_forall_not_mem.2 fun store hs =>
          hk (List.mem_map_of_mem (f := Prod.fst) (SortedMap.get?_eq_some_iff.1 hs))
        unfold Session.state Session.store
        rw [absent]
        rfl
      rw [List.mem_append, not_or] at hk
      rw [unknown s hk.1, unknown s' hk.2]

instance (s s' : Session) : Decidable (s.AlikeButForTest s') :=
  decidable_of_iff _ Session.alikeButForTest_iff.symm

/-- **Progress that differs in test only**, with test behind main, and test never asked for. -/
structure Progress.Twins (p q : Progress) : Prop where
  session : p.session.AlikeButForTest q.session
  inFlight : q.inFlight = p.inFlight
  trace : q.trace = p.trace
  unasked : ∀ key dependencies, Event.loaded key dependencies .test ∉ p.trace
  behind : p.session.TestBehindMain
  behind' : q.session.TestBehindMain

namespace Progress.Twins

variable {p q : Progress}

/-! ## What is the same -/

theorem raw (h : p.Twins q) (key : ModuleKey) :
    (q.session.store key).raw .main = (p.session.store key).raw .main :=
  congrArg ScopeState.raw (h.session.main key)

theorem assembled (h : p.Twins q) (key : ModuleKey) :
    (q.session.store key).assembled .main = (p.session.store key).assembled .main :=
  congrArg ScopeState.assembled (h.session.main key)

theorem isProcessed (h : p.Twins q) (key : ModuleKey) :
    (q.session.store key).isProcessed .main = (p.session.store key).isProcessed .main :=
  congrArg ScopeState.processed (h.session.main key)

theorem isAssembled (h : p.Twins q) (key : ModuleKey) (location : String) :
    (q.session.store key).isAssembled .main location = (p.session.store key).isAssembled .main location :=
  congrArg (fun t => SortedMap.contains t location) (h.assembled key)

theorem referenced (h : p.Twins q) (key : ModuleKey) :
    Build.referenced q.session key .main = Build.referenced p.session key .main := by
  unfold Build.referenced Session.referencesOf
  rw [h.assembled, h.session.references]

theorem current (h : p.Twins q) (m : Module) : q.session.current m = p.session.current m := by
  unfold Session.current Session.dependenciesOf
  rw [h.session.dependencies]

/-! ## What keeps it the same -/

theorem note (h : p.Twins q) {e : Event} (he : ∀ key dependencies, e ≠ .loaded key dependencies .test) :
    (p.note e).Twins (q.note e) where
  session := h.session
  inFlight := h.inFlight
  trace := congrArg (e :: ·) h.trace
  unasked key dependencies hm :=
    (List.mem_cons.1 hm).elim (fun heq => he key dependencies heq.symm) (h.unasked key dependencies)
  behind := h.behind
  behind' := h.behind'

theorem enter (h : p.Twins q) (id : Identity) : (p.enter id).Twins (q.enter id) :=
  ⟨h.session, congrArg (·.add id) h.inFlight, h.trace, h.unasked, h.behind, h.behind'⟩

theorem leave (h : p.Twins q) (id : Identity) : (p.leave id).Twins (q.leave id) :=
  ⟨h.session, congrArg (·.erase id) h.inFlight, h.trace, h.unasked, h.behind, h.behind'⟩

/-- Changes that leave the features alone. -/
theorem onSession (h : p.Twins q) {f g : Session → Session} (hf : ∀ s key, (f s).store key = s.store key)
    (hg : ∀ s key, (g s).store key = s.store key)
    (references : (g q.session).references = (f p.session).references)
    (dependencies : (g q.session).dependencies = (f p.session).dependencies)
    (diagnostics : (g q.session).diagnostics = (f p.session).diagnostics) :
    (p.onSession f).Twins (q.onSession g) := by
  have left := Session.state_eq_of_store_eq (hf p.session)
  have right := Session.state_eq_of_store_eq (hg q.session)
  refine ⟨⟨fun key => ?_, references, dependencies, diagnostics⟩, h.inFlight, h.trace, h.unasked,
    fun key hn => ?_, fun key hn => ?_⟩
  · show (g q.session).state key .main = (f p.session).state key .main
    rw [left, right, h.session.main]
  · have hn : ((f p.session).state key .main).processed = false := hn
    show ((f p.session).state key .test).raw = .empty
    rw [left] at hn ⊢
    exact h.behind key hn
  · have hn : ((g q.session).state key .main).processed = false := hn
    show ((g q.session).state key .test).raw = .empty
    rw [right] at hn ⊢
    exact h.behind' key hn

theorem report (h : p.Twins q) (d : Diagnostic) :
    (p.onSession fun s => s.report d).Twins (q.onSession fun s => s.report d) :=
  h.onSession (fun s => s.store_report d) (fun s => s.store_report d) h.session.references
    h.session.dependencies (congrArg (· ++ [d]) h.session.diagnostics)

theorem recordReference (h : p.Twins q) (key : ModuleKey) (id : Identity) :
    (p.onSession fun s => s.recordReference key id).Twins (q.onSession fun s => s.recordReference key id) := by
  refine h.onSession (fun _ _ => rfl) (fun _ _ => rfl) ?_ h.session.dependencies h.session.diagnostics
  unfold Session.recordReference Session.referencesOf
  rw [h.session.references]

/-- A change of main that takes no mark away. -/
theorem modify (h : p.Twins q) (key : ModuleKey) {f : ScopeState → ScopeState}
    (hf : ∀ t, t.processed = true → (f t).processed = true) :
    (p.onSession fun s => s.modifyStore key fun t => t.modify .main f).Twins
      (q.onSession fun s => s.modifyStore key fun t => t.modify .main f) := by
  have behind : ∀ s : Session, s.TestBehindMain →
      (s.modifyStore key fun t => t.modify .main f).TestBehindMain := fun s hs key' hn => by
    rw [s.state_modifyStore_of_ne f (by simp : ¬ (key' = key ∧ Scope.test = .main))]
    refine hs key' ?_
    rw [s.state_modifyStore] at hn
    split at hn
    · next hk =>
      rw [hk.1]
      exact Bool.eq_false_iff.2 fun hp => absurd (hf _ hp) (Bool.eq_false_iff.1 hn)
    · exact hn
  refine ⟨⟨fun key' => ?_, h.session.references, h.session.dependencies, h.session.diagnostics⟩,
    h.inFlight, h.trace, h.unasked, behind _ h.behind, behind _ h.behind'⟩
  show (q.session.modifyStore key fun t => t.modify .main f).state key' .main =
    (p.session.modifyStore key fun t => t.modify .main f).state key' .main
  rw [Session.state_modifyStore, Session.state_modifyStore, h.session.main, h.session.main]

end Progress.Twins

namespace Step

/-! ## Steps that are alike -/

variable {α β γ : Type} {p q : Progress}

/-- **Steps that end alike**: where one ends the other one does, with the same outcome and progress
that differs in test only. -/
def Alike (x y : Step α) (p q : Progress) : Prop :=
  ∀ r p', x p = some (r, p') → ∃ q', y q = some (r, q') ∧ p'.Twins q'

namespace Alike

/-- Steps that are done. -/
theorem done {x y : Step α} {p' q' : Progress} {r : Except AssemblyError α} (hx : x p = some (r, p'))
    (hy : y q = some (r, q')) (h : p'.Twins q') : Alike x y p q := by
  intro r' p'' hx'
  cases hx.symm.trans hx'
  exact ⟨q', hy, h⟩

/-- Steps whose first parts are done. -/
theorem step {x : Step β} {y : Step γ} {f : β → Step α} {g : γ → Step α} {b : β} {c : γ} {p' q' : Progress}
    (hx : x p = some (.ok b, p')) (hy : y q = some (.ok c, q')) (h : Alike (f b) (g c) p' q') :
    Alike (x >>= f) (y >>= g) p q := by
  intro r p'' hr
  rw [bind_apply, hx] at hr
  obtain ⟨q'', hq, twins⟩ := h r p'' hr
  exact ⟨q'', by rw [bind_apply, hy]; exact hq, twins⟩

theorem bind {x y : Step β} {f g : β → Step α} (h : Alike x y p q)
    (hf : ∀ b p' q', p'.Twins q' → Alike (f b) (g b) p' q') : Alike (x >>= f) (y >>= g) p q := by
  intro r p'' hr
  rw [bind_apply] at hr
  obtain ⟨⟨r', p'⟩, hx, hr⟩ := Option.bind_eq_some_iff.1 hr
  obtain ⟨q', hy, twins⟩ := h r' p' hx
  cases r' with
  | error e =>
    cases hr
    exact ⟨q', by rw [bind_apply, hy]; rfl, twins⟩
  | ok b =>
    obtain ⟨q'', hq, twins'⟩ := hf b p' q' twins r p'' hr
    exact ⟨q'', by rw [bind_apply, hy]; exact hq, twins'⟩

theorem record_bind {e : Event} {f g : Unit → Step α} (h : Alike (f ()) (g ()) (p.note e) (q.note e)) :
    Alike (record e >>= f) (record e >>= g) p q :=
  .step rfl rfl h

theorem updateStore_bind {key : ModuleKey} {u : FeatureStore → FeatureStore} {f g : Unit → Step α}
    (h : Alike (f ()) (g ()) (p.onSession fun s => s.modifyStore key u)
      (q.onSession fun s => s.modifyStore key u)) :
    Alike (updateStore key u >>= f) (updateStore key u >>= g) p q :=
  .step rfl rfl h

/-- A result to go on with. -/
theorem conclude_bind {r : Except AssemblyError β} {f g : β → Step α} (h : p.Twins q)
    (hf : ∀ b, r = .ok b → Alike (f b) (g b) p q) : Alike (conclude r >>= f) (conclude r >>= g) p q := by
  cases r with
  | error e => exact .done rfl rfl h
  | ok b => exact .step rfl rfl (hf b rfl)

theorem attempt {x y : Step α} (h : Alike x y p q) : Alike (attempt x) (attempt y) p q := by
  intro r p' hr
  obtain ⟨⟨r', p''⟩, hx, he⟩ := Option.map_eq_some_iff.1 hr
  cases he
  obtain ⟨q', hy, twins⟩ := h r' p'' hx
  exact ⟨q', Option.map_eq_some_iff.2 ⟨_, hy, rfl⟩, twins⟩

theorem forM {f g : β → Step Unit} {l : List β} (h : ∀ b ∈ l, ∀ p q, p.Twins q → Alike (f b) (g b) p q)
    (twins : p.Twins q) : Alike (l.forM f) (l.forM g) p q := by
  induction l generalizing p q with
  | nil => exact .done rfl rfl twins
  | cons b rest ih =>
    exact .bind (h b List.mem_cons_self p q twins) fun _ _ _ twins' =>
      ih (fun c hc => h c (List.mem_cons_of_mem _ hc)) twins'

end Alike

end Step

open Step

/-- **Calls that are alike** on behalf of main. -/
structure Calls.Alike (calls : Calls) : Prop where
  process : ∀ {key p q}, p.Twins q → Step.Alike (calls.process key .main) (calls.process key .main) p q
  provide : ∀ {key id p q}, p.Twins q →
    Step.Alike (calls.provide key .main id) (calls.provide key .main id) p q

namespace Build

variable {b : Build} {calls : Calls} {p q : Progress}

/-! ## Assembling -/

theorem merge_alike (hc : calls.Alike) (h : p.Twins q) (key : ModuleKey) (location : String)
    (base : Feature) :
    Alike (b.merge calls key .main location base) (b.merge calls key .main location base)
      p q := by
  have run : ∀ (i : Inquiry) (p q : Progress), p.Twins q → Alike
      (i.run (fun id => attempt (calls.provide key .main id)) fun text => record (.remarked text))
      (i.run (fun id => attempt (calls.provide key .main id)) fun text => record (.remarked text)) p q := by
    intro i
    induction i with
    | done r => exact fun p q h => .done rfl rfl h
    | ask id next ih => exact fun p q h => .bind (.attempt (hc.provide h)) fun answer p' q' h' => ih answer p' q' h'
    | remark text next ih => exact fun p q h => .step rfl rfl (ih _ _ (h.note nofun))
  unfold merge
  exact .step rfl rfl (.bind (run _ _ _ (h.note nofun)) fun r p' q' h' =>
    .step rfl rfl (.done rfl rfl (h'.note nofun)))

theorem insertAssembled_alike (h : p.Twins q) (key : ModuleKey) (location : String) (f : Feature) :
    Alike (insertAssembled key .main location f) (insertAssembled key .main location f) p q := by
  refine .done (r := .ok ((((p.session.store key).assembled .main).get? location).getD f)) rfl ?_
    (h.modify key fun _ hp => hp)
  rw [← h.assembled]
  rfl

theorem assembleAt_alike (hc : calls.Alike) (h : p.Twins q) (key : ModuleKey)
    (e : String × Feature) :
    Alike (b.assembleAt calls key .main e) (b.assembleAt calls key .main e) p q := by
  unfold assembleAt
  refine .step rfl rfl ?_
  rw [h.isAssembled]
  cases (p.session.store key).isAssembled .main e.1 with
  | true => exact .done rfl rfl h
  | false =>
    refine .step rfl rfl ?_
    rw [h.inFlight]
    have insert : ∀ (r : Except AssemblyError Feature) (p q : Progress), p.Twins q →
        Alike (do let _ ← insertAssembled key .main e.1 (← conclude r))
          (do let _ ← insertAssembled key .main e.1 (← conclude r)) p q := fun r p q h =>
      .conclude_bind h fun g _ => .bind (insertAssembled_alike h key e.1 g) fun _ p' q' h' => .done rfl rfl h'
    cases p.inFlight.contains e.2.id with
    | true => exact .bind (.attempt (merge_alike hc h key e.1 e.2)) insert
    | false =>
      exact .step rfl rfl (.bind (.attempt (merge_alike hc (h.enter e.2.id) key e.1 e.2))
        fun r p' q' h' => .step rfl rfl (insert r _ _ (h'.leave e.2.id)))

/-! ## Aggregates -/

theorem aggregateParts_alike (h : p.Twins q) (key : ModuleKey) {d : AggregateDecl} (hd : d.scope = .main) :
    aggregateParts (q.session.store key) d = aggregateParts (p.session.store key) d := by
  unfold aggregateParts
  rw [hd, h.assembled]

theorem buildAggregate_alike (h : p.Twins q) (m : Module) {d : AggregateDecl} (hd : d.scope = .main) :
    Alike (b.buildAggregate m d) (b.buildAggregate m d) p q := by
  have parts := aggregateParts_alike h m.key hd
  unfold buildAggregate
  refine .step rfl rfl ?_
  rw [parts, hd, h.isAssembled]
  generalize aggregateParts (p.session.store m.key) d = parts
  cases (p.session.store m.key).isAssembled .main (aggregateKey d.classifier) with
  | true => exact .done rfl rfl h
  | false =>
    cases parts with
    | nil => exact .done rfl rfl h
    | cons part rest =>
      refine .step rfl rfl (.bind (insertAssembled_alike (h.note ?_) m.key _ _)
        fun _ p' q' h' => .done rfl rfl h')
      nofun

theorem buildAggregates_alike (h : p.Twins q) (m : Module) :
    Alike (b.buildAggregates m .main) (b.buildAggregates m .main) p q := by
  unfold buildAggregates
  exact .forM (fun d hd p q h => buildAggregate_alike h m (by simpa using (List.mem_filter.1 hd).2)) h

/-! ## Processing -/

/-- No test features of a module are read. -/
def Untested (p : Progress) (key : ModuleKey) : Prop := (p.session.state key .test).raw = .empty

theorem checkStore_alike (h : p.Twins q) {key : ModuleKey} (hp : Untested p key) (hq : Untested q key) :
    Alike (b.checkStore key) (b.checkStore key) p q := by
  have left : (p.session.store key).raw .test = .empty := hp
  have right : (q.session.store key).raw .test = .empty := hq
  unfold checkStore
  refine .step rfl rfl ?_
  rw [h.raw, left, right]
  split
  · exact .done rfl rfl h
  · next e _ => exact .step rfl rfl (.done rfl rfl (h.report (.classifiers e)))

theorem attachPackagedUnit_alike (h : p.Twins q) (m : Module) :
    Alike (b.attachPackagedUnit m) (b.attachPackagedUnit m) p q := by
  unfold attachPackagedUnit
  split
  · refine .step rfl rfl ?_
    rw [h.raw]
    split
    · exact .done rfl rfl h
    · exact .done rfl rfl (h.modify m.key fun _ hp => hp)
    · exact .step rfl rfl (.done rfl rfl (h.report _))
  · exact .done rfl rfl h

theorem dependencies_foldl_ensureDependency (owner : ModuleKey) (word : String) (ids : List Identity)
    {s s' : Session} (h : s'.dependencies = s.dependencies) :
    (ids.foldl (fun s id => s.ensureDependency owner id word) s').dependencies =
      (ids.foldl (fun s id => s.ensureDependency owner id word) s).dependencies := by
  induction ids generalizing s s' with
  | nil => exact h
  | cons id rest ih =>
    refine ih ?_
    show (s'.ensureDependency owner id word).dependencies = (s.ensureDependency owner id word).dependencies
    unfold Session.ensureDependency
    rw [h]
    split
    · exact h
    · rfl

theorem augmented_alike (h : p.Twins q) (key : ModuleKey) :
    (p.onSession (b.augmented key .main)).Twins (q.onSession (b.augmented key .main)) := by
  refine h.onSession (b.store_augmented key .main) (b.store_augmented key .main) ?_ ?_ ?_
  · rw [references_augmented, references_augmented, h.session.references]
  · unfold augmented augment
    split
    · exact h.session.dependencies
    · rw [h.referenced]
      exact dependencies_foldl_ensureDependency _ _ _ h.session.dependencies
  · rw [diagnostics_augmented, diagnostics_augmented, h.session.diagnostics]

theorem processMarked_alike (hc : calls.Alike) (m : Module) (h : p.Twins q) (hp : Untested p m.key)
    (hq : Untested q m.key) :
    Alike (b.processMarked calls m .main) (b.processMarked calls m .main) p q := by
  have asked : (p.note (.loaded m.key m.dependencies .main)).Twins
      (q.note (.loaded m.key m.dependencies .main)) := h.note (by simp)
  have unread : ∀ (features : FeatureMap) (s : Session), (s.state m.key .test).raw = .empty →
      ((s.modifyStore m.key fun t => t.setRaw .main features).state m.key .test).raw = .empty :=
    fun features s hs => (congrArg ScopeState.raw (s.state_modifyStore_of_ne _ (by simp))).trans hs
  unfold processMarked
  refine .conclude_bind h fun _ _ => .record_bind (.conclude_bind asked fun features _ => .updateStore_bind ?_)
  have set : ((p.note (.loaded m.key m.dependencies .main)).onSession fun s =>
        s.modifyStore m.key fun t => t.setRaw .main features).Twins
      ((q.note (.loaded m.key m.dependencies .main)).onSession fun s =>
        s.modifyStore m.key fun t => t.setRaw .main features) := asked.modify m.key fun _ hp => hp
  have left := unread features p.session hp
  have right := unread features q.session hq
  refine .bind (checkStore_alike set left right) fun _ p' q' h => ?_
  refine .bind (attachPackagedUnit_alike h m) fun _ p' q' h => .step rfl rfl ?_
  rw [h.raw]
  refine .bind (.forM (fun e _ p q h => assembleAt_alike hc h m.key e) h) fun _ p' q' h => ?_
  refine .bind (buildAggregates_alike h m) fun _ p' q' h => ?_
  have augmented := augmented_alike (b := b) h m.key
  unfold Build.augmented at augmented
  cases hs : b.config.skipDependencyAugmentation with
  | true => exact .done rfl rfl h
  | false =>
    rw [hs] at augmented
    exact .done rfl rfl augmented

theorem processWith_alike (hc : calls.Alike) (h : p.Twins q) (key : ModuleKey) :
    Alike (b.processWith calls key .main) (b.processWith calls key .main) p q := by
  unfold processWith
  split
  · exact .done rfl rfl h
  · next m hm =>
    obtain ⟨-, rfl⟩ := mem_modules_of_get? hm
    refine .step rfl rfl ?_
    rw [h.current]
    refine .step rfl rfl ?_
    rw [h.isProcessed]
    cases hn : (p.session.store m.key).isProcessed .main with
    | true => exact .done rfl rfl h
    | false =>
      have marked : (p.onSession fun s => s.modifyStore m.key fun t => t.markProcessed .main).Twins
          (q.onSession fun s => s.modifyStore m.key fun t => t.markProcessed .main) :=
        h.modify m.key fun _ _ => rfl
      have unread : ∀ s : Session, s.TestBehindMain → (s.state m.key .main).processed = false →
          ((s.modifyStore m.key fun t => t.markProcessed .main).state m.key .test).raw = .empty :=
        fun s hs hn => (congrArg ScopeState.raw (s.state_modifyStore_of_ne _ (by simp))).trans (hs m.key hn)
      have left := unread p.session h.behind hn
      have right := unread q.session h.behind' ((h.isProcessed m.key).trans hn)
      exact .updateStore_bind (.record_bind (processMarked_alike hc _ (marked.note (by simp)) left right))

/-! ## Providing -/

theorem processReleased_alike (hc : calls.Alike) (h : p.Twins q) (id : Identity) (key : ModuleKey) :
    Alike (processReleased calls id key .main) (processReleased calls id key .main) p q := by
  unfold processReleased
  exact .step rfl rfl (.bind (.attempt (hc.process (h.leave id))) fun r p' q' h' =>
    .step rfl rfl (.done rfl rfl (h'.enter id)))

theorem lookIn_alike (hc : calls.Alike) (h : p.Twins q) (key : ModuleKey) (id : Identity) :
    Alike (b.lookIn calls key .main id [.main]) (b.lookIn calls key .main id [.main]) p q := by
  have assembled : (q.session.store key).findAssembled? .main id = (p.session.store key).findAssembled? .main id :=
    congrArg (FeatureMap.findById? · id) (h.assembled key)
  have raw : (q.session.store key).findRaw? .main id = (p.session.store key).findRaw? .main id :=
    congrArg (FeatureMap.findById? · id) (h.raw key)
  simp only [lookIn, ne_eq, not_true_eq_false, if_false]
  refine .step rfl rfl ?_
  rw [assembled, raw]
  split
  · exact .done rfl rfl h
  · split
    · exact .done rfl rfl h
    · next location f _ =>
      exact .bind (merge_alike hc h key location f) fun g p' q' h' =>
        .bind (insertAssembled_alike h' key location g) fun _ p'' q'' h'' => .done rfl rfl h''

theorem fetch_alike (h : p.Twins q) (id : Identity) :
    Alike (b.fetch id) (b.fetch id) p q := by
  have asked : (p.note (.fetched id)).Twins (q.note (.fetched id)) := h.note nofun
  unfold fetch
  refine .record_bind ?_
  split
  · exact .done rfl rfl asked
  · split
    · exact .done rfl rfl asked
    · exact .done rfl rfl asked

theorem find_alike (hc : calls.Alike) (h : p.Twins q) (key : ModuleKey) (id : Identity) :
    Alike (b.find calls key .main id) (b.find calls key .main id) p q := by
  unfold find
  split
  · exact lookIn_alike hc h key id
  · split
    · exact .bind (processReleased_alike hc h id id.moduleKey) fun _ p' q' h' =>
        lookIn_alike hc h' id.moduleKey id
    · exact fetch_alike h id

theorem reportMissing_alike (h : p.Twins q) (key : ModuleKey) (id : Identity) (found : Option Feature) :
    Alike (reportMissing key .main id found) (reportMissing key .main id found) p q := by
  cases found with
  | some f => exact .done rfl rfl h
  | none => exact .done rfl rfl ((h.report (.notFound key id)).note (e := .missing key .main id) nofun)

theorem recordReference_alike (h : p.Twins q) (key : ModuleKey) (id : Identity) (answer : Answer) :
    Alike (recordReference key id answer) (recordReference key id answer) p q := by
  unfold recordReference
  split
  · cases id.isOwnedBy key with
    | true => exact .done rfl rfl h
    | false => exact .done rfl rfl (h.recordReference key id)
  · exact .done rfl rfl h

theorem provideWith_alike (hc : calls.Alike) (h : p.Twins q) (key : ModuleKey) (id : Identity) :
    Alike (b.provideWith calls key .main id) (b.provideWith calls key .main id) p q := by
  unfold provideWith
  refine .step rfl rfl ?_
  rw [h.inFlight]
  cases p.inFlight.contains id with
  | true =>
    have told := (h.report (.cycle key id)).note (e := .answered key .main id (.ok none)) nofun
    exact .step rfl rfl (.step rfl rfl (.done rfl rfl told))
  | false =>
    refine .step rfl rfl (.bind (.attempt (.bind (find_alike hc (h.enter id) key id) fun found p' q' h' =>
      reportMissing_alike h' key id found)) fun answer p' q' h' => .step rfl rfl ?_)
    refine .bind (recordReference_alike (h'.leave id) key id answer) fun _ p'' q'' h'' => ?_
    exact .record_bind (.done rfl rfl (h''.note (e := .answered key .main id answer) nofun))

/-! ## Whole builds -/

/-- **Calls are alike** on behalf of main, at any depth. -/
theorem calls_alike (b : Build) : ∀ depth, (b.calls depth).Alike
  | 0 => ⟨fun _ _ _ h => (nomatch h), fun _ _ _ h => (nomatch h)⟩
  | depth + 1 =>
    have hc := calls_alike b depth
    ⟨fun h => processWith_alike hc h _, fun h => provideWith_alike hc h _ _⟩

/-- Processing main leaves test as it was. -/
theorem process_main_test (hb : b.merger = .byPrototype) {s : Session} {key : ModuleKey} {o : Outcome}
    (ho : b.process s key .main = some o) (key' : ModuleKey) :
    o.session.state key' .test = s.state key' .test := by
  obtain ⟨depth, r, p, hx, rfl⟩ := exists_depth_of_process ho
  have keep : (b.calls depth).Keep b False [] depth := calls_keep hb False nofun depth
  exact ((keep.process nofun nofun).of_eq_some hx).1.grows.test rfl key'

/-- In every session that builds come to, a module has the declared dependencies until main is marked. -/
theorem dependenciesOf_of_reached {s : Session} {builds : Build → Prop}
    (hb : ∀ b, builds b → b.merger = .byPrototype) (h : s.Reached b.reactor builds) {m : Module}
    (hm : m ∈ b.reactor.modules) (unmarked : (s.state m.key .main).processed = false) :
    s.dependenciesOf m.key = m.dependencies := by
  induction h with
  | start => exact Session.dependenciesOf_start hm
  | process _ admitted ends ih =>
    have asks := asks_of_process (hb _ admitted) ends
    rw [asks.dependencies m.key unmarked]
    exact ih (asks.marks.unmarked unmarked)

/-- **Sources with the same main features** are alike to what asks for no test. -/
theorem process_main_alike (hb : b.merger = .byPrototype) {source : FeatureSource}
    (hsource : ∀ m ∈ b.reactor.modules, source m .main = b.source m .main) {s : Session}
    (hs : s.Reached b.reactor fun b => b.merger = .byPrototype) {key : ModuleKey} {o : Outcome}
    (ho : b.process s key .main = some o)
    (unasked : ∀ key dependencies, Event.loaded key dependencies .test ∉ o.events) :
    (b.withSource source).process s key .main = some o := by
  refine process_alike hb ho fun e he => ?_
  cases e with
  | loaded key dependencies scope =>
    cases scope with
    | test => exact absurd he (unasked key dependencies)
    | main =>
      rintro ⟨m, known, differ⟩
      obtain ⟨mem, rfl⟩ := mem_modules_of_get? known
      obtain ⟨-, unmarked, -, same⟩ := (asks_of_process hb ho).asked m.key dependencies .main (by simpa using he)
      rw [dependenciesOf_of_reached (fun _ h => h) hs mem unmarked] at same
      rw [same rfl] at differ
      exact differ (hsource m mem)
  | _ => exact id

/-- **Main is isolated from test**: two builds that have the same main features, in sessions that
differ in test only, process main of a module with the same result and the same events, none of which
asks for test. The sessions that they come to differ in test only, and have of test what they had. -/
theorem main_isolated_from_test (b : Build) (hb : b.merger = .byPrototype) (source : FeatureSource)
    (hsource : ∀ m ∈ b.reactor.modules, source m .main = b.source m .main) {s s' : Session}
    (hs : s.Reached b.reactor fun b => b.merger = .byPrototype)
    (hs' : s'.Reached b.reactor fun b => b.merger = .byPrototype) (alike : s.AlikeButForTest s')
    (key : ModuleKey) :
    ∃ o o', b.process s key .main = some o ∧ (b.withSource source).process s' key .main = some o' ∧
      o'.result = o.result ∧ o.session.AlikeButForTest o'.session ∧
      (∀ key, o.session.state key .test = s.state key .test) ∧
      (∀ key, o'.session.state key .test = s'.state key .test) ∧
      o'.events = o.events ∧ ∀ key dependencies, Event.loaded key dependencies .test ∉ o.events := by
  obtain ⟨o, ho⟩ := exists_process hb s key .main
  have twins : Progress.Twins ⟨s, .empty, []⟩ ⟨s', .empty, []⟩ :=
    ⟨alike, rfl, rfl, fun _ _ => nofun, testBehindMain_of_reached (fun _ h => h) hs,
      testBehindMain_of_reached (fun _ h => h) hs'⟩
  obtain ⟨depth, r, p, hx, rfl⟩ := exists_depth_of_process ho
  obtain ⟨q, hy, ends⟩ := (calls_alike b depth).process twins r p hx
  have ho' := process_of_depth hb hy
  have unasked : ∀ key dependencies, Event.loaded key dependencies .test ∉ p.trace.reverse :=
    fun key dependencies hm => ends.unasked key dependencies (List.mem_reverse.1 hm)
  have same : q.trace.reverse = p.trace.reverse := congrArg List.reverse ends.trace
  exact ⟨_, _, ho, process_main_alike hb hsource hs' ho' (same ▸ unasked), rfl, ends.session,
    process_main_test hb ho, process_main_test hb ho', same, unasked⟩

/-- A build of two modules, in which `p` refers to `a`, with a test feature beside `a`. -/
def annex : Build :=
  let app : Identity := (Identity.of "g" "app" "1").withType featureType
  let lib : Identity := (Identity.of "g" "lib" "1").withType featureType
  ofTable appAndLib
    [(⟨"g:app"⟩, .main, "a.json", .of app),
      (⟨"g:app"⟩, .test, "t.json", .of (app.withClassifier "t")),
      (⟨"g:lib"⟩, .main, "p.json", .after lib app)]

/-- In `annex`, with its test features read or not, and with others to come, `p` is assembled alike. -/
theorem annex_main_isolated :
    ∃ (s s' : Session) (o o' : Outcome), s.state ⟨"g:app"⟩ .test ≠ s'.state ⟨"g:app"⟩ .test ∧
      annex.process s ⟨"g:lib"⟩ .main = some o ∧
      (annex.withSource fun m scope => if scope = .main then annex.source m .main else .ok .empty).process s'
        ⟨"g:lib"⟩ .main = some o' ∧ o'.result = o.result ∧ o.session.AlikeButForTest o'.session := by
  obtain ⟨o, ho⟩ := exists_process (rfl : annex.merger = _) (.start annex.reactor) ⟨"g:app"⟩ .main
  obtain ⟨o', ho'⟩ := exists_process (rfl : annex.merger = _) (.start annex.reactor) ⟨"g:app"⟩ .test
  have run : (annex.process (.start annex.reactor) ⟨"g:app"⟩ .main).bind (fun o =>
      (annex.process (.start annex.reactor) ⟨"g:app"⟩ .test).map fun o' =>
        (decide (o.session.AlikeButForTest o'.session),
          decide (o.session.state ⟨"g:app"⟩ .test = o'.session.state ⟨"g:app"⟩ .test))) =
      some (true, false) := by decide +kernel
  rw [ho, ho', Option.bind_some, Option.map_some] at run
  simp only [Option.some.injEq, Prod.mk.injEq, decide_eq_true_eq, decide_eq_false_iff_not] at run
  obtain ⟨o₁, o₂, h₁, h₂, same, alike, -⟩ := main_isolated_from_test annex rfl
    (fun m scope => if scope = .main then annex.source m .main else .ok .empty) (fun _ _ => rfl)
    (.process .start rfl ho) (.process .start rfl ho') run.1 ⟨"g:lib"⟩
  exact ⟨o.session, o'.session, o₁, o₂, run.2, h₁, h₂, same, alike⟩

end Build

end FeatureAssembly
