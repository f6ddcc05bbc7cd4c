import FeatureAssembly.Proofs.Parentage
import FeatureAssembly.Proofs.WorkDone

/-!
# The raw features of a session

What a session has of the source, in whatever order scopes are processed, and also where a build
goes on after a failure: nothing before a scope is read, and from then on what the source has, in
main with the packaged unit attached if the classifiers are accepted (`Build.filed`).

**The law** (`Build.process_reads`): a call sets the raw features of exactly the scopes that it
reads, and to that. No feature is assembled in between, for from reading a scope to attaching the
unit nothing is provided. So an assembled feature is always made of the raw feature as it is filed
(`Build.OnFile.made`).

What it does not establish: that a scope is read once. That is a matter of marks.
-/

set_option autoImplicit false

namespace FeatureAssembly

open Step

namespace Build

variable {b : Build} {calls : Calls} {s s₀ : Session} {p p' : Progress} {m : Module} {key : ModuleKey}
  {dependencies : List Dependency} {scope : Scope} {n : Site} {f g : Feature} {id : Identity}

/-! ## What is filed -/

/-- **What is filed of a scope** that is read: what the source has, in main with the packaged unit
attached if the classifiers of main alone are accepted. -/
def filed (b : Build) (key : ModuleKey) : Scope → FeatureMap
  | .main =>
    if (b.checkClassifiers key (b.sourced key .main) .empty).isOk then b.prepared key .main
    else b.sourced key .main
  | .test => b.sourced key .test

theorem filed_main_of_accepted (h : b.checkClassifiers key (b.sourced key .main) .empty = .ok ()) :
    b.filed key .main = b.prepared key .main := by
  unfold filed
  rw [h]
  rfl

theorem filed_main_of_refused {e : ClassifierError}
    (h : b.checkClassifiers key (b.sourced key .main) .empty = .error e) :
    b.filed key .main = b.sourced key .main := by
  unfold filed
  rw [h]
  rfl

/-- Nothing is filed of a scope that the source does not have. -/
theorem filed_of_unread {e : AssemblyError} (hm : b.reactor.get? m.key = some m)
    (h : b.load m scope = .error e) : b.filed m.key scope = .empty := by
  have absent : b.sourced m.key scope = .empty := by
    unfold load at h
    unfold sourced
    rw [hm]
    cases hs : b.source m scope with
    | error e' => simp only [hs]
    | ok features =>
      rw [hs] at h
      cases h
  cases scope with
  | test => exact absent
  | main =>
    have unit : b.withUnit m .empty = .empty := by
      unfold withUnit
      split <;> rfl
    unfold filed
    rw [prepared_main hm, absent, unit, ite_self]

/-! ## Sessions on file -/

/-- **A session is on file**: the raw features of a scope are those that are filed, or there are none
yet, test is read behind main, and what is assembled in the place of a raw feature is made of it. -/
structure OnFile (b : Build) (s : Session) : Prop where
  raw : ∀ key scope, (s.state key scope).raw = .empty ∨ (s.state key scope).raw = b.filed key scope
  unread : ∀ key scope, (s.state key scope).processed = false → (s.state key scope).raw = .empty
  behind : s.TestBehindMain
  made : ∀ {n : Site} {f g : Feature}, (b.filed n.module n.scope).get? n.location = some f →
    (s.state n.module n.scope).assembled.get? n.location = some g → f.Assembles (fun _ _ => True) g

/-- **What was read so far**, since some session: a progress is on file, and scopes that were read
have what is filed of them, while the others have the raw features that they had. -/
structure Reads (b : Build) (s₀ : Session) (p : Progress) : Prop where
  onFile : b.OnFile p.session
  raw : ∀ key scope, (p.session.state key scope).raw =
    if (key, scope) ∈ loads p.trace then b.filed key scope else (s₀.state key scope).raw

theorem onFile_start (b : Build) (r : Reactor) : b.OnFile (.start r) := by
  refine ⟨fun key scope => .inl ?_, fun key scope _ => ?_, fun key _ => ?_, fun _ hg => ?_⟩
  · rw [state_start]; rfl
  · rw [state_start]; rfl
  · rw [state_start]; rfl
  · rw [state_start] at hg
    cases hg

theorem OnFile.reads (h : b.OnFile s) : b.Reads s ⟨s, .empty, []⟩ :=
  ⟨h, fun _ _ => rfl⟩

/-- A raw feature is what is filed at its location. -/
theorem OnFile.filed (h : b.OnFile s) {location : String}
    (hf : (s.state key scope).raw.get? location = some f) : (b.filed key scope).get? location = some f := by
  rcases h.raw key scope with none | kept
  · rw [none] at hf
    cases hf
  · rwa [← kept]

namespace Reads

/-- A change that leaves the features alone, and reads nothing. -/
theorem alike (h : b.Reads s₀ p) (hs : ∀ key, p'.session.store key = p.session.store key)
    (ht : loads p'.trace = loads p.trace) : b.Reads s₀ p' := by
  have states := Session.state_eq_of_store_eq hs
  refine ⟨⟨?_, ?_, ?_, ?_⟩, ?_⟩
  · intro key scope
    rw [states]
    exact h.onFile.raw key scope
  · intro key scope hn
    rw [states] at hn ⊢
    exact h.onFile.unread key scope hn
  · intro key hn
    rw [states] at hn ⊢
    exact h.onFile.behind key hn
  · intro n f g hf hg
    rw [states] at hg
    exact h.onFile.made hf hg
  · intro key scope
    rw [states, ht]
    exact h.raw key scope

theorem onSession (h : b.Reads s₀ p) {f : Session → Session}
    (hs : ∀ key, (f p.session).store key = p.session.store key) : b.Reads s₀ (p.onSession f) :=
  h.alike hs rfl

theorem enter (h : b.Reads s₀ p) (id : Identity) : b.Reads s₀ (p.enter id) :=
  h.alike (fun _ => rfl) rfl

theorem leave (h : b.Reads s₀ p) (id : Identity) : b.Reads s₀ (p.leave id) :=
  h.alike (fun _ => rfl) rfl

theorem note (h : b.Reads s₀ p) {e : Event} (he : loads [e] = []) : b.Reads s₀ (p.note e) := by
  refine h.alike (fun _ => rfl) ?read
  show loads ([e] ++ p.trace) = _
  unfold loads at he ⊢
  rw [List.filterMap_append, he, List.nil_append]

/-- What is made of the raw feature at a site is recorded there. -/
theorem recordAssembled (h : b.Reads s₀ p)
    (hg : ∀ f, (b.filed n.module n.scope).get? n.location = some f → f.Assembles (fun _ _ => True) g) :
    b.Reads s₀ (p.onSession fun s =>
      s.modifyStore n.module fun t => t.recordAssembled n.scope n.location g) := by
  have raw : ∀ key scope, ((p.session.modifyStore n.module fun t =>
      t.recordAssembled n.scope n.location g).state key scope).raw = (p.session.state key scope).raw :=
    p.session.view_modifyStore ScopeState.raw rfl
  have marks := fun key scope =>
    p.session.processed_recordAssembled n.module key n.scope scope n.location g
  refine ⟨⟨?_, ?_, ?_, ?_⟩, ?_⟩
  · intro key scope
    exact (h.onFile.raw key scope).imp (raw key scope).trans (raw key scope).trans
  · intro key scope hn
    exact (raw key scope).trans (h.onFile.unread key scope ((marks key scope).symm.trans hn))
  · intro key hn
    exact (raw key .test).trans (h.onFile.behind key ((marks key .main).symm.trans hn))
  · intro n' f g' hf hg'
    rcases p.session.assembled_recordAssembled n.module n'.module n.scope n'.scope hg' with
      old | ⟨hk, hs, hl, rfl⟩
    · exact h.onFile.made hf old
    · obtain ⟨module, scope, location⟩ := n'
      subst hk hs hl
      exact hg f hf
  · intro key scope
    exact (raw key scope).trans (h.raw key scope)

/-- A scope is marked and opened. -/
theorem opened (h : b.Reads s₀ p) (key : ModuleKey) (scope : Scope) :
    b.Reads s₀ (Build.opened key scope p) := by
  have raw : ∀ key' scope', ((Build.opened key scope p).session.state key' scope').raw =
      (p.session.state key' scope').raw := p.session.view_modifyStore ScopeState.raw rfl
  have assembled : ∀ key' scope', ((Build.opened key scope p).session.state key' scope').assembled =
      (p.session.state key' scope').assembled := p.session.view_modifyStore ScopeState.assembled rfl
  have unmarked : ∀ key' scope', ((Build.opened key scope p).session.state key' scope').processed = false →
      (p.session.state key' scope').processed = false := by
    intro key' scope' hn
    apply Bool.eq_false_iff.2
    intro hp
    have := (p.session.processed_markProcessed key key' scope scope').2 (.inr hp)
    exact absurd this (Bool.eq_false_iff.1 hn)
  refine ⟨⟨?_, ?_, ?_, ?_⟩, ?_⟩
  · intro key' scope'
    exact (h.onFile.raw key' scope').imp (raw key' scope').trans (raw key' scope').trans
  · intro key' scope' hn
    exact (raw key' scope').trans (h.onFile.unread key' scope' (unmarked key' scope' hn))
  · intro key' hn
    exact (raw key' .test).trans (h.onFile.behind key' (unmarked key' .main hn))
  · intro n f g hf hg
    exact h.onFile.made hf ((congrArg (SortedMap.get? · n.location) (assembled n.module n.scope)).symm.trans hg)
  · intro key' scope'
    rw [raw]
    exact h.raw key' scope'

/-- **A scope is read**: it is marked, with main behind it, and gets what is filed of it. -/
theorem read (h : b.Reads s₀ p) (hv : ∀ scope' ∈ scope.visible, (p.session.state key scope').processed = true)
    (hs : ∀ key', p'.session.store key' =
      (p.session.modifyStore key fun t => t.setRaw scope (b.filed key scope)).store key')
    (ht : loads p'.trace = (key, scope) :: loads p.trace) :
    b.Reads s₀ p' := by
  have states := Session.state_eq_of_store_eq hs
  have marks : ∀ key' scope', (p'.session.state key' scope').processed = (p.session.state key' scope').processed := by
    intro key' scope'
    rw [states]
    exact p.session.processed_setRaw key key' scope scope' _
  have raw : ∀ key' scope', (p'.session.state key' scope').raw =
      if key' = key ∧ scope' = scope then b.filed key scope else (p.session.state key' scope').raw := by
    intro key' scope'
    rw [states]
    unfold FeatureStore.setRaw
    rw [Session.state_modifyStore]
    split <;> rfl
  refine ⟨⟨?_, ?_, ?_, ?_⟩, ?_⟩
  · intro key' scope'
    rw [raw]
    split
    · next hk => rw [hk.1, hk.2]; exact .inr rfl
    · exact h.onFile.raw key' scope'
  · intro key' scope' hn
    rw [marks] at hn
    rw [raw, if_neg]
    · exact h.onFile.unread key' scope' hn
    · rintro ⟨rfl, rfl⟩
      cases (hv scope' (mem_visible_self scope')).symm.trans hn
  · intro key' hn
    rw [marks] at hn
    rw [raw, if_neg]
    · exact h.onFile.behind key' hn
    -- If test is what is read then main is marked.
    · rintro ⟨rfl, rfl⟩
      cases (hv .main (main_mem_visible .test)).symm.trans hn
  · intro n f g hf hg
    rw [states] at hg
    have same := p.session.assembled_setRaw key n.module scope n.scope (b.filed key scope)
    exact h.onFile.made hf ((congrArg (SortedMap.get? · n.location) same).symm.trans hg)
  · intro key' scope'
    rw [raw, ht, h.raw]
    by_cases hk : key' = key ∧ scope' = scope
    · simp [hk.1, hk.2]
    · simp [hk]

end Reads

end Build

/-- **Calls that read** scopes as they are filed, from wherever they start and however they end. -/
structure Calls.Read (calls : Calls) (b : Build) (s₀ : Session) : Prop where
  process : ∀ {key scope p}, b.Reads s₀ p → Ends False (calls.process key scope) p fun _ => b.Reads s₀
  provide : ∀ {key scope id p}, b.Reads s₀ p → Ends False (calls.provide key scope id) p fun _ => b.Reads s₀

namespace Build

variable {b : Build} {calls : Calls} {s s₀ : Session} {p p' : Progress} {m : Module} {key : ModuleKey}
  {dependencies : List Dependency} {scope : Scope} {n : Site} {f g : Feature} {id : Identity}

/-! ## Assembling -/

theorem merge_reads (hb : b.Regular) (hc : calls.Read b s₀) (h : b.Reads s₀ p) (n : Site)
    (f : Feature) :
    Ends False (b.merge calls n.module n.scope n.location f) p fun r q =>
      b.Reads s₀ q ∧ ∀ g, r = .ok g → f.Assembles (fun _ _ => True) g := by
  have begun := h.note (e := .merging n.module n.scope n.location f.id) rfl
  apply ends_merge hb.merger n.module n.scope n.location f
  case final =>
    intro marked
    refine ⟨begun.note rfl, ?_⟩
    rintro g ⟨⟩
    exact .final marked
  case alone =>
    intro unmarked original
    refine ⟨begun.note rfl, ?_⟩
    rintro g ⟨⟩
    exact .alone unmarked original
  case inheriting =>
    intro prototype unmarked derived
    apply (hc.provide begun).mono
    intro r q hq
    refine ⟨hq.note rfl, ?_⟩
    intro g he
    cases r with
    | error e => cases he
    | ok found =>
      cases found with
      | none => cases he
      | some parent =>
        cases he
        exact .inheriting unmarked derived trivial

theorem assembleAt_reads (hb : b.Regular) (hc : calls.Read b s₀) (h : b.Reads s₀ p)
    {e : String × Feature} (he : (b.filed key scope).get? e.1 = some e.2) :
    Ends False (b.assembleAt calls key scope e) p fun _ => b.Reads s₀ := by
  let n : Site := ⟨key, scope, e.1⟩
  have record : ∀ {q : Progress} {g : Feature}, b.Reads s₀ q → e.2.Assembles (fun _ _ => True) g →
      b.Reads s₀ (q.onSession fun s => s.modifyStore key fun t => t.recordAssembled scope e.1 g) := by
    intro q g hq hg
    apply hq.recordAssembled (n := n)
    intro f hf
    cases he.symm.trans hf
    exact hg
  apply ends_assembleAt key scope e
  case done => exact fun _ => h
  case held =>
    intro _ _
    apply (merge_reads hb hc h n e.2).mono
    intro r q hq
    cases r with
    | error err => exact hq.1
    | ok g => exact record hq.1 (hq.2 g rfl)
  case free =>
    intro _ _
    apply (merge_reads hb hc (h.enter e.2.id) n e.2).mono
    intro r q hq
    cases r with
    | error err => exact hq.1.leave e.2.id
    | ok g => exact record (hq.1.leave e.2.id) (hq.2 g rfl)

/-- All that is filed of a scope is assembled. -/
def FiledDone (b : Build) (s : Session) (key : ModuleKey) (scope : Scope) : Prop :=
  ∀ location f, (b.filed key scope).get? location = some f →
    ∃ g, (s.state key scope).assembled.get? location = some g

theorem assembleAll_reads (hb : b.Regular) (hc : calls.Read b s₀) (hg : calls.GoOn b False)
    (module : b.reactor.contains key = true) (h : b.Reads s₀ p)
    (raw : (p.session.state key scope).raw = b.filed key scope) :
    Ends False (((p.session.store key).raw scope).entries.forM (b.assembleAt calls key scope)) p
      (either (fun _ q => b.Reads s₀ q ∧ b.FiledDone q.session key scope) fun _ => b.Reads s₀) := by
  have reads : Ends False (((p.session.store key).raw scope).entries.forM (b.assembleAt calls key scope)) p
      fun _ => b.Reads s₀ := by
    apply ends_forM (fun _ => b.Reads s₀) h (fun _ hq => hq)
    intro e rest q he hq
    have found : (b.filed key scope).get? e.1 = some e.2 := by
      rw [← raw]
      exact SortedMap.get?_of_mem he
    apply (assembleAt_reads hb hc hq found).mono
    intro r q' hq'
    cases r <;> exact hq'
  apply (reads.and (assembleAll_goesOn hb hg module False.elim)).mono
  rintro r q ⟨hq, done⟩
  cases r with
  | error e => exact hq
  | ok u =>
    refine ⟨hq, ?_⟩
    intro location f hf
    rw [← raw] at hf
    exact done.2 _ (SortedMap.get?_eq_some_iff.1 hf)

theorem buildAggregates_reads (m : Module) (h : b.Reads s₀ p) (done : b.FiledDone p.session m.key scope) :
    Ends False (b.buildAggregates m scope) p fun _ => b.Reads s₀ := by
  have all : Ends False (b.buildAggregates m scope) p
      fun _ q => b.Reads s₀ q ∧ b.FiledDone q.session m.key scope := by
    apply ends_forM (fun _ q => b.Reads s₀ q ∧ b.FiledDone q.session m.key scope) ⟨h, done⟩ fun _ hq => hq
    rintro d rest q hd ⟨hq, done⟩
    obtain rfl : d.scope = scope := by simpa using (List.mem_filter.1 hd).2
    let n : Site := ⟨m.key, d.scope, aggregateKey d.classifier⟩
    apply ends_buildAggregate m d
    case done => exact fun _ => ⟨hq, done⟩
    case empty => exact ⟨hq, done⟩
    case built =>
      intro fresh _
      refine ⟨(hq.note rfl).recordAssembled (n := n) ?_, ?_⟩
      · -- A raw feature in the place of the aggregate would be assembled already.
        intro f hf
        obtain ⟨g, hg⟩ := done _ f hf
        have absent : ((q.session.state m.key d.scope).assembled.get?
          (aggregateKey d.classifier)).isSome = false := fresh
        rw [hg] at absent
        cases absent
      · intro location f hf
        obtain ⟨g, hg⟩ := done location f hf
        exact ⟨g, (((Session.Extends.refl d.scope q.session).recordAssembled m.key _ _).state
          m.key d.scope).assembled hg⟩
  exact all.mono fun _ _ hq => hq.1

/-! ## Processing -/

/-- **A scope that is being read**: it is marked, with main behind it, and has no raw features, nor
has test if it is main. -/
structure ToRead (b : Build) (m : Module) (scope : Scope) (s₀ : Session) (p : Progress) : Prop where
  known : b.reactor.get? m.key = some m
  reads : b.Reads s₀ p
  marked : ∀ scope' ∈ scope.visible, (p.session.state m.key scope').processed = true
  unread : (p.session.state m.key scope).raw = .empty
  behind : scope = .main → (p.session.state m.key .test).raw = .empty

/-- **The progress once the features of a scope are set**, before they are checked. -/
def withRaw (m : Module) (dependencies : List Dependency) (scope : Scope) (features : FeatureMap)
    (p : Progress) : Progress :=
  (p.note (.loaded m.key dependencies scope)).onSession fun s =>
    s.modifyStore m.key fun t => t.setRaw scope features

/-- What is set is read, if it is what is filed. -/
theorem ToRead.set (h : b.ToRead m scope s₀ p) (hs : ∀ key, p'.session.store key =
    (p.session.modifyStore m.key fun t => t.setRaw scope (b.filed m.key scope)).store key)
    (ht : p'.trace = .loaded m.key dependencies scope :: p.trace) :
    b.Reads s₀ p' ∧ (p'.session.state m.key scope).raw = b.filed m.key scope := by
  refine ⟨h.reads.read h.marked hs (congrArg loads ht), ?_⟩
  rw [Session.state_eq_of_store_eq hs]
  exact p.session.raw_setRaw m.key scope _

/-- The check that is made of a scope that is read comes out as the one of main alone. -/
theorem ToRead.checkStore (h : b.ToRead m scope s₀ p) {features : FeatureMap}
    (loads : b.load m scope = .ok features) :
    Ends False (b.checkStore m.key) (withRaw m dependencies scope features p)
      (either (fun _ q => q = withRaw m dependencies scope features p ∧
          (scope = .main → b.checkClassifiers m.key features .empty = .ok ()))
        fun _ => b.Reads s₀) := by
  have source : b.sourced m.key scope = features := sourced_of_load h.known loads
  have raw : ((withRaw m dependencies scope features p).session.state m.key scope).raw = features :=
    p.session.raw_setRaw m.key scope features
  have alone : scope = .main → b.checkClassifiers m.key
      (((withRaw m dependencies scope features p).session.store m.key).raw .main)
      (((withRaw m dependencies scope features p).session.store m.key).raw .test) =
        b.checkClassifiers m.key features .empty := by
    rintro rfl
    have test : ((withRaw m dependencies .main features p).session.state m.key .test).raw = .empty := by
      rw [← h.behind rfl]
      exact congrArg ScopeState.raw (p.session.state_modifyStore_of_ne _ nofun)
    rw [show ((withRaw m dependencies .main features p).session.store m.key).raw .main = features from raw,
      show ((withRaw m dependencies .main features p).session.store m.key).raw .test = .empty from test]
  apply ends_checkStore m.key
  case clean =>
    intro passes
    exact ⟨rfl, fun main => (alone main).symm.trans passes⟩
  case clash =>
    intro e clashes
    have filed : b.filed m.key scope = features := by
      cases scope with
      | test => exact source
      | main =>
        rw [← source]
        apply filed_main_of_refused (e := e)
        rw [source, ← alone rfl]
        exact clashes
    rw [← filed]
    exact (h.set (fun _ => rfl) rfl).1

/-- **Attaching the packaged unit** comes to what is filed of main. -/
theorem ToRead.attachPackagedUnit (h : b.ToRead m .main s₀ p) {features : FeatureMap}
    (loads : b.load m .main = .ok features) (accepted : b.checkClassifiers m.key features .empty = .ok ()) :
    Ends False (b.attachPackagedUnit m) (withRaw m dependencies .main features p)
      (either (fun _ q => b.Reads s₀ q ∧ (q.session.state m.key .main).raw = b.filed m.key .main)
        fun _ => b.Reads s₀) := by
  have source : b.sourced m.key .main = features := sourced_of_load h.known loads
  have filed : b.filed m.key .main = b.withUnit m features := by
    rw [filed_main_of_accepted (by rw [source]; exact accepted), prepared_main h.known, source]
  have raw : ((withRaw m dependencies .main features p).session.store m.key).raw .main = features :=
    p.session.raw_setRaw m.key .main features
  apply ends_attachPackagedUnit_keys m
  case attached =>
    intro s stores _ _ _ _
    refine h.set (fun key => ?stores) rfl
    refine (stores key).trans ?_
    rw [raw, ← filed, Session.store_modifyStore, Session.store_modifyStore]
    split
    · next hk =>
      show (((p.session.modifyStore m.key fun t => t.setRaw .main features).store m.key).setRaw .main _) = _
      rw [Session.store_modifyStore, if_pos rfl]
      rfl
    · next hk =>
      show (p.session.modifyStore m.key fun t => t.setRaw .main features).store key = _
      rw [Session.store_modifyStore, if_neg hk]
  case several =>
    intro _ several
    rw [raw] at several
    rw [raw, ← withUnit_of_several m several, ← filed]
    exact And.left (h.set (fun _ => rfl) rfl)

/-- **A marked scope is read** as it is filed, however processing it ends. -/
theorem processMarked_reads (hb : b.Regular) (hc : calls.Read b s₀) (hg : calls.GoOn b False)
    (h : b.ToRead m scope s₀ p) :
    Ends False (b.processMarked calls (m.dependingOn dependencies) scope) p fun _ => b.Reads s₀ := by
  have module : b.reactor.contains m.key = true := Option.isSome_iff_exists.2 ⟨m, h.known⟩
  let checked : Progress → Prop := fun q => ∃ features, b.load m scope = .ok features ∧
    q = withRaw m dependencies scope features p ∧ (scope = .main → b.checkClassifiers m.key features .empty = .ok ())
  let attached : Progress → Prop := fun q => b.Reads s₀ q ∧
    (q.session.state m.key scope).raw = b.filed m.key scope
  let assembled : Progress → Prop := fun q => b.Reads s₀ q ∧ b.FiledDone q.session m.key scope
  apply ends_processMarked m dependencies scope checked attached assembled (b.Reads s₀)
  case undeclared => exact fun _ _ => h.reads
  case unread =>
    intro e fails
    rw [load_dependingOn hb.ignores] at fails
    -- Nothing is set, and nothing is filed.
    apply h.reads.read h.marked (fun key => ?_) rfl
    rw [filed_of_unread h.known fails, ← h.unread, Session.store_modifyStore]
    split
    · next hk =>
      subst hk
      show p.session.store m.key = _
      cases scope <;> rfl
    · rfl
  case check =>
    intro features _ loads
    rw [load_dependingOn hb.ignores] at loads
    apply (h.checkStore loads).mono
    intro r q hq
    cases r with
    | error e => exact hq
    | ok u => exact ⟨features, loads, hq⟩
  case attach =>
    rintro q rfl ⟨features, loads, rfl, accepted⟩
    exact h.attachPackagedUnit loads (accepted rfl)
  case pass =>
    rintro q rfl ⟨features, loads, rfl, -⟩
    have filed : features = b.filed m.key .test := (sourced_of_load h.known loads).symm
    subst filed
    exact h.set (fun _ => rfl) rfl
  case assemble =>
    rintro q ⟨hq, raw⟩
    exact assembleAll_reads hb hc hg module hq raw
  case aggregate =>
    rintro q ⟨hq, done⟩
    apply (buildAggregates_reads m hq done).mono
    intro r q' hq'
    cases r <;> exact hq'
  case augment =>
    intro q hq
    exact hq.onSession (b.store_augmented m.key scope q.session)

theorem processWith_reads (hb : b.Regular) (hc : calls.Read b s₀) (hg : calls.GoOn b False)
    (hv : calls.Vet b) (h : b.Reads s₀ p) :
    Ends False (b.processWith calls key scope) p fun _ => b.Reads s₀ := by
  have raw : ∀ key' scope', ((opened key scope p).session.state key' scope').raw =
      (p.session.state key' scope').raw := p.session.view_modifyStore ScopeState.raw rfl
  have marked : ((opened key scope p).session.state key scope).processed = true :=
    (p.session.processed_markProcessed key key scope scope).2 (.inl rfl)
  apply ends_processWith key scope
  case unknown => exact fun _ => h
  case done => exact fun _ _ _ => h
  case main =>
    rintro m hm unmarked rfl
    obtain ⟨-, rfl⟩ := mem_modules_of_get? hm
    apply processMarked_reads hb hc hg
    refine ⟨hm, h.opened m.key .main, ?_, ?_, ?_⟩
    · intro scope' hs
      obtain rfl : scope' = .main := by simpa [Scope.visible] using hs
      exact marked
    · exact (raw m.key .main).trans (h.onFile.unread m.key .main unmarked)
    · exact fun _ => (raw m.key .test).trans (h.onFile.behind m.key unmarked)
  case test =>
    rintro m hm unmarked rfl
    obtain ⟨-, rfl⟩ := mem_modules_of_get? hm
    apply ((hc.process (h.opened m.key .test)).and hv.process).mono
    rintro r q ⟨hq, vetted⟩
    cases r with
    | error e => exact hq
    | ok u =>
      -- Processing main leaves test as it is, marked and not read.
      have same := vetted.1.grows.test rfl m.key
      apply processMarked_reads hb hc hg
      refine ⟨hm, hq, ?_, ?_, ?_⟩
      · intro scope' hs
        cases scope' with
        | main => exact vetted.2
        | test =>
          rw [same]
          exact marked
      · rw [same]
        exact (raw m.key .test).trans (h.onFile.unread m.key .test unmarked)
      · intro main
        cases main

/-! ## Providing -/

theorem processReleased_reads (hc : calls.Read b s₀) (h : b.Reads s₀ p) :
    Ends False (processReleased calls id key scope) p fun _ => b.Reads s₀ := by
  apply ends_processReleased id key scope
  exact (hc.process (h.leave id)).mono fun _ _ hq => hq.enter id

theorem lookIn_reads (hb : b.Regular) (hc : calls.Read b s₀) {wanted : Scope}
    {scopes : List Scope} (h : b.Reads s₀ p) :
    Ends False (b.lookIn calls key wanted id scopes) p fun _ => b.Reads s₀ := by
  induction scopes generalizing p with
  | nil => exact ends_lookIn_nil key wanted id h
  | cons scope rest ih =>
    apply ends_lookIn_cons key wanted id scope rest (b.Reads s₀)
    case open_ =>
      intro _
      apply (processReleased_reads hc h).mono
      intro r q hq
      cases r <;> exact hq
    case pass => exact fun _ => h
    case found => exact fun _ _ _ hq _ => hq
    case absent => exact fun q hq _ _ => ih hq
    case raw =>
      intro q location f hq _ found
      let n : Site := ⟨key, scope, location⟩
      have there := hq.onFile.filed (SortedMap.get?_of_mem (List.mem_of_find?_eq_some found))
      apply (merge_reads hb hc hq n f).mono
      intro r q' hq'
      cases r with
      | error e => exact hq'.1
      | ok g =>
        apply hq'.1.recordAssembled (n := n)
        intro f' hf'
        cases there.symm.trans hf'
        exact hq'.2 g rfl

theorem find_reads (hb : b.Regular) (hc : calls.Read b s₀) (h : b.Reads s₀ p) :
    Ends False (b.find calls key scope id) p fun _ => b.Reads s₀ := by
  have asked := h.note (e := .fetched id) rfl
  apply ends_find key scope id
  case own => exact fun _ => lookIn_reads hb hc h
  case other =>
    intro _ _
    apply (processReleased_reads hc h).mono
    intro r q hq
    cases r with
    | error e => exact hq
    | ok u => exact lookIn_reads hb hc hq
  case outside => exact fun _ _ _ _ => asked
  case nowhere => exact fun _ _ _ _ _ => asked
  case broken => exact fun _ _ _ _ _ => asked

theorem provideWith_reads (hb : b.Regular) (hc : calls.Read b s₀) (h : b.Reads s₀ p) :
    Ends False (b.provideWith calls key scope id) p fun _ => b.Reads s₀ := by
  apply ends_provideWith key scope id
  case cycle =>
    intro _
    exact (h.onSession (f := fun s => s.report (.cycle key id)) fun _ => rfl).note rfl
  case ask =>
    intro _
    apply (find_reads hb hc (h.enter id)).mono
    intro r q hq
    cases r with
    | error e => exact (hq.leave id).note rfl
    | ok found =>
      cases found with
      | none =>
        have reported := hq.onSession (f := fun s => s.report (.notFound key id)) fun _ => rfl
        exact ((reported.note (e := .missing key scope id) rfl).leave id).note rfl
      | some f =>
        have referred := (hq.leave id).onSession (f := withReference key id)
          (store_withReference key id (q.leave id).session)
        exact referred.note rfl

/-! ## Whole builds -/

/-- **Calls read scopes as they are filed**, at any depth. -/
theorem calls_read (hb : b.Regular) (s₀ : Session) : ∀ depth, (b.calls depth).Read b s₀
  | 0 => ⟨fun _ => id, fun _ => id⟩
  | depth + 1 =>
    have hc := calls_read hb s₀ depth
    ⟨processWith_reads hb hc (calls_goOn hb False depth) (calls_vet hb depth), provideWith_reads hb hc⟩

/-- **A call reads scopes as they are filed**: afterwards the raw features of the scopes that it read
are what is filed of them, and those of the others are as they were. -/
theorem process_reads (hb : b.Regular) (hs : b.OnFile s) {o : Outcome}
    (ho : b.process s key scope = some o) :
    b.OnFile o.session ∧ ∀ key scope, (o.session.state key scope).raw =
      if (key, scope) ∈ loads o.events then b.filed key scope else (s.state key scope).raw := by
  obtain ⟨depth, r, q, hx, rfl⟩ := exists_depth_of_process ho
  have reads := ((calls_read hb s depth).process hs.reads).of_eq_some hx
  refine ⟨reads.onFile, ?_⟩
  intro key scope
  have same : loads q.trace.reverse = (loads q.trace).reverse := List.filterMap_reverse
  show (q.session.state key scope).raw = if _ ∈ loads q.trace.reverse then _ else _
  simp only [same, List.mem_reverse]
  exact reads.raw key scope

/-- Every session that a build comes to is on file. -/
theorem onFile_of_reached (hb : b.Regular) (h : s.Reached b.reactor (· = b)) :
    b.OnFile s := by
  induction h with
  | start => exact b.onFile_start _
  | @process b' s key scope o _ admitted ends ih =>
    subst admitted
    exact (process_reads hb ih ends).1

end Build

end FeatureAssembly
