import FeatureAssembly.Proofs.Answers
import FeatureAssembly.Proofs.BuildOrder
import FeatureAssembly.Proofs.Diagnostics
import FeatureAssembly.Proofs.Invariant

/-!
# Validating and assembling

Validation reads both scopes of a module and checks them once. An assembly checks main while
test is not read, attaches the packaged unit, assembles, and checks main together with test
later, perhaps on behalf of another module. Both come to the same.

**The law** (`Build.validation_agrees`): after a build that went well every module is valid; and
where every module is valid, no build is ever refused, that is, ends with an error that validation
could have ended with.

It rests on what a check depends on, the classifiers of the features. The raw features that a session
has of a scope have, at any time, some of the classifiers that the source has (`Build.Listed`), and
fewer features pass whenever more do. And once a scope is marked without a failure, they have all of
them (`Build.Admitted`), so that the check of main with test is the one that validation makes.

What it does not establish: that a build of valid modules goes well. References may be dangling,
aggregates empty, and packaged units ambiguous.
-/

set_option autoImplicit false

namespace FeatureAssembly

open Step

/-- **A refusal**: an error that checking a module without assembling it could end with. -/
def AssemblyError.IsRefusal : AssemblyError → Prop
  | .classifier _ | .source .. | .unclassifiedAggregate _ => True
  | .unresolvedReference .. | .externalResolution .. | .ambiguousPackagedUnit ..
  | .unknownModule _ | .emptyAggregate .. | .reactor _ => False

/-- Test features are read behind main. -/
def Session.TestBehindMain (s : Session) : Prop :=
  ∀ key, (s.state key .main).processed = false → (s.state key .test).raw = .empty

namespace Build

variable {b : Build} {s s' s'' : Session} {m : Module} {scope : Scope}

/-! ## Valid modules -/

/-- Every module is valid. -/
def Passes (b : Build) : Prop := ∀ m ∈ b.reactor.modules, b.validate m = .ok ()

theorem validate_eq_ok_iff : b.validate m = .ok () ↔
    b.checkAggregates m.key = .ok () ∧ ∃ main test, b.load m .main = .ok main ∧
      b.load m .test = .ok test ∧ b.checkClassifiers m.key main test = .ok () := by
  unfold validate
  cases b.checkAggregates m.key with
  | error e => simp [bind, Except.bind]
  | ok u =>
    cases b.load m .main with
    | error e => simp [bind, Except.bind]
    | ok main =>
      cases b.load m .test with
      | error e => simp [bind, Except.bind]
      | ok test => cases h : b.checkClassifiers m.key main test <;> simp [bind, Except.bind, Except.mapError, h]

/-- What is loaded of a valid module. -/
theorem exists_load_of_validate (h : b.validate m = .ok ()) (scope : Scope) :
    ∃ features, b.load m scope = .ok features := by
  obtain ⟨-, main, test, hm, ht, -⟩ := validate_eq_ok_iff.1 h
  cases scope
  · exact ⟨main, hm⟩
  · exact ⟨test, ht⟩

/-- A check depends on classifiers only, and fewer of them pass whenever more do. -/
theorem checkClassifiers_mono {key : ModuleKey} {main main' test test' : FeatureMap}
    (h : b.checkClassifiers key main test = .ok ())
    (hm : (Classifiers.ofFeatures main').Sublist (Classifiers.ofFeatures main))
    (ht : (Classifiers.ofFeatures test').Sublist (Classifiers.ofFeatures test)) :
    b.checkClassifiers key main' test' = .ok () :=
  Classifiers.checkModule_mono h hm ht

/-- The packaged unit leaves classifiers alone. -/
theorem ofFeatures_withUnit (m : Module) (features : FeatureMap) :
    Classifiers.ofFeatures (b.withUnit m features) = Classifiers.ofFeatures features := by
  obtain ⟨g, hg, he⟩ := b.withUnit_entries m features
  unfold Classifiers.ofFeatures SortedMap.values
  rw [he, List.map_map, List.map_map, List.map_map]
  refine List.map_congr_left fun e _ => ?_
  show (g e.2).id.classifier = e.2.id.classifier
  rw [(hg e.2).1]

/-! ## What a session has of the source -/

/-- The raw features have some of the classifiers that the source has. -/
def Listed (b : Build) (s : Session) : Prop := ∀ key scope,
  (Classifiers.ofFeatures (s.state key scope).raw).Sublist (Classifiers.ofFeatures (b.sourced key scope))

/-- **A scope of a module is admitted**: its declarations are in order, it is read, and with test
the module is valid. -/
structure Admitted (b : Build) (s : Session) (m : Module) (scope : Scope) : Prop where
  declared : b.checkAggregates m.key = .ok ()
  loaded : ∃ features, b.load m scope = .ok features ∧
    Classifiers.ofFeatures (s.state m.key scope).raw = Classifiers.ofFeatures features
  valid : scope = .test → b.validate m = .ok ()

/-- Whatever was marked in between is admitted, but for a scope that is being opened. -/
def Admits (b : Build) (scope : Scope) (pending : Option ModuleKey) (s s' : Session) : Prop :=
  ∀ m ∈ b.reactor.modules, ∀ scope', ¬ (pending = some m.key ∧ scope' = scope) →
    (s.state m.key scope').processed = false → (s'.state m.key scope').processed = true →
    b.Admitted s' m scope'

/-- Every main scope that is marked is admitted. -/
def MainsAdmitted (b : Build) (s : Session) : Prop :=
  ∀ m ∈ b.reactor.modules, (s.state m.key .main).processed = true → b.Admitted s m .main

theorem Admitted.of_classifiers_eq (h : b.Admitted s m scope)
    (hs : Classifiers.ofFeatures (s'.state m.key scope).raw = Classifiers.ofFeatures (s.state m.key scope).raw) :
    b.Admitted s' m scope := by
  obtain ⟨features, hl, hf⟩ := h.loaded
  exact ⟨h.declared, ⟨features, hl, hs.trans hf⟩, h.valid⟩

/-- What is admitted and marked stays admitted. -/
theorem Admitted.mono {scope' : Scope} (h : b.Admitted s m scope) (hp : (s.state m.key scope).processed = true)
    (hs : s.Extends scope' s') : b.Admitted s' m scope :=
  h.of_classifiers_eq (by rw [(hs.state m.key scope).raw hp])

/-! ## What pieces do -/

/-- **A piece that goes well**, on behalf of a scope, with one that is being opened perhaps. -/
structure Accepts (b : Build) (scope : Scope) (pending : Option ModuleKey) (s s' : Session) : Prop where
  grows : s.Extends scope s'
  listed : b.Listed s → b.Listed s'
  behind : s.TestBehindMain → s'.TestBehindMain
  admits : (scope = .test → b.MainsAdmitted s) → b.Admits scope pending s s'

/-- **A piece that fails**: where all modules are valid, not with a refusal. -/
structure Rejects (b : Build) (s : Session) (e : AssemblyError) (s' : Session) : Prop where
  listed : b.Listed s → b.Listed s'
  behind : s.TestBehindMain → s'.TestBehindMain
  excused : b.Passes → b.Listed s → ¬ e.IsRefusal

/-- What a piece does, by its outcome. -/
abbrev Vetted (b : Build) (scope : Scope) (p : Progress) {α : Type} :
    Except AssemblyError α → Progress → Prop :=
  either (fun _ p' => b.Accepts scope none p.session p'.session)
    fun e p' => b.Rejects p.session e p'.session

/-- Whatever main scope is marked is admitted still. -/
theorem MainsAdmitted.mono {pending : Option ModuleKey} (h : b.MainsAdmitted s) (hs : s.Extends .test s')
    (ha : b.Admits .test pending s s') : b.MainsAdmitted s' := by
  intro m hm hp
  cases hn : (s.state m.key .main).processed with
  | true => exact (h m hm hn).mono hn hs
  | false => exact ha m hm .main (fun h => nomatch h.2) hn hp

namespace Accepts

variable {pending : Option ModuleKey}

theorem refl (b : Build) (scope : Scope) (s : Session) : b.Accepts scope none s s :=
  ⟨.refl _ _, id, id, fun _ _ _ _ _ hn hp => absurd (hn.symm.trans hp) nofun⟩

theorem trans (h : b.Accepts scope pending s s') (h' : b.Accepts scope none s' s'') :
    b.Accepts scope pending s s'' where
  grows := h.grows.trans h'.grows
  listed := h'.listed ∘ h.listed
  behind := h'.behind ∘ h.behind
  admits mains m hm scope' hne hn hp := by
    have mains' : scope = .test → b.MainsAdmitted s' := by
      rintro rfl
      exact (mains rfl).mono h.grows (h.admits mains)
    cases hp' : (s'.state m.key scope').processed with
    | true => exact (h.admits mains m hm scope' hne hn hp').mono hp' h'.grows
    | false => exact h'.admits mains' m hm scope' nofun hp' hp

/-- What is done on behalf of main may be done on behalf of test. -/
theorem weaken {scope' : Scope} (h : b.Accepts scope none s s') (hs : scope' = .main → scope = .main) :
    b.Accepts scope' none s s' := by
  refine ⟨h.grows.weaken hs, h.listed, h.behind, fun mains m hm scope'' _ => ?_⟩
  refine h.admits (fun ht => mains ?_) m hm scope'' nofun
  cases scope' with
  | main => exact absurd (ht.symm.trans (hs rfl)) nofun
  | test => rfl

/-- A change that leaves marks and classifiers alone. -/
theorem alike (h : b.Accepts scope pending s s') (grows : s.Extends scope s'')
    (marks : ∀ key scope, (s''.state key scope).processed = (s'.state key scope).processed)
    (classifiers : ∀ key scope, Classifiers.ofFeatures (s''.state key scope).raw =
      Classifiers.ofFeatures (s'.state key scope).raw)
    (test : ∀ key, (s''.state key .test).raw = (s'.state key .test).raw) :
    b.Accepts scope pending s s'' where
  grows := grows
  listed hl key scope' := by
    rw [classifiers]
    exact h.listed hl key scope'
  behind hb key hn := by
    rw [test]
    exact h.behind hb key (marks key .main ▸ hn)
  admits mains m hm scope' hne hn hp :=
    (h.admits mains m hm scope' hne hn (marks m.key scope' ▸ hp)).of_classifiers_eq (classifiers _ _)

/-- A change that leaves the features alone. -/
theorem onSession (h : b.Accepts scope pending s s') (hs : ∀ key, s''.store key = s'.store key) :
    b.Accepts scope pending s s'' := by
  have states := Session.state_eq_of_store_eq hs
  exact h.alike (h.grows.trans (.of_store_eq hs)) (fun key scope => by rw [states])
    (fun key scope => by rw [states]) fun key => by rw [states]

theorem recordAssembled (h : b.Accepts scope pending s s') (key : ModuleKey) (location : String)
    (f : Feature) : b.Accepts scope pending s
      (s'.modifyStore key fun t => t.recordAssembled scope location f) := by
  have raw : ∀ key' scope', ((s'.modifyStore key fun t => t.recordAssembled scope location f).state
      key' scope').raw = (s'.state key' scope').raw := s'.view_modifyStore ScopeState.raw rfl
  exact h.alike (h.grows.recordAssembled key location f)
    (fun key' scope' => s'.processed_recordAssembled key key' scope scope' location f)
    (fun key' scope' => by rw [raw]) fun key' => raw key' .test

/-- A failure that is no refusal. -/
theorem fails (h : b.Accepts scope pending s s') {e : AssemblyError} (he : ¬ e.IsRefusal) :
    b.Rejects s e s' :=
  ⟨h.listed, h.behind, fun _ _ => he⟩

theorem rejects (h : b.Accepts scope pending s s') {e : AssemblyError} (h' : b.Rejects s' e s'') :
    b.Rejects s e s'' :=
  ⟨h'.listed ∘ h.listed, h'.behind ∘ h.behind, fun hp hl => h'.excused hp (h.listed hl)⟩

/-- What a later piece does. -/
theorem before {p p' p'' : Progress} {α : Type} {r : Except AssemblyError α}
    (h : b.Accepts scope none p.session p'.session) (h' : b.Vetted scope p' r p'') :
    b.Vetted scope p r p'' := by
  cases r with
  | error e => exact h.rejects h'
  | ok a => exact h.trans h'

end Accepts

end Build

/-- **Calls that are vetted**, whatever they start from. -/
structure Calls.Vet (calls : Calls) (b : Build) : Prop where
  process : ∀ {key scope p}, Ends False (calls.process key scope) p (either
    (fun _ p' => b.Accepts scope none p.session p'.session ∧ (p'.session.state key scope).processed = true)
    fun e p' => b.Rejects p.session e p'.session)
  provide : ∀ {key scope id p}, Ends False (calls.provide key scope id) p (b.Vetted scope p)

namespace Build

variable {b : Build} {calls : Calls} {p p' : Progress}

/-! ## Assembling -/

theorem merge_vets (hb : b.Regular) (hc : calls.Vet b) (key : ModuleKey) (scope : Scope)
    (location : String) (base : Feature) :
    Ends False (b.merge calls key scope location base) p (b.Vetted scope p) := by
  refine ends_merge hb.merger key scope location base (fun _ => .refl _ _ _) (fun _ _ => .refl _ _ _) ?_
  intro prototype _ _
  refine hc.provide.mono fun r p' h => ?_
  cases r with
  | error e => exact h
  | ok found =>
    cases found with
    | none => exact h.fails id
    | some parent => exact h

theorem assembleAt_vets (hb : b.Regular) (hc : calls.Vet b) (key : ModuleKey)
    (scope : Scope) (e : String × Feature) :
    Ends False (b.assembleAt calls key scope e) p (b.Vetted scope p) := by
  refine ends_assembleAt key scope e (fun _ => .refl _ _ _) (fun _ _ => ?held) fun _ _ => ?free
  case held =>
    refine (merge_vets hb hc key scope e.1 e.2).mono fun r p' h => ?_
    cases r with
    | error err => exact h
    | ok g => exact h.recordAssembled key e.1 g
  case free =>
    refine (merge_vets (p := p.enter e.2.id) hb hc key scope e.1 e.2).mono fun r p' h => ?_
    cases r with
    | error err => exact h
    | ok g => exact h.recordAssembled key e.1 g

theorem forM_vets {β : Type} {f : β → Step Unit} {l : List β} {scope : Scope}
    (h : ∀ x ∈ l, ∀ p, Ends False (f x) p (b.Vetted scope p)) :
    Ends False (l.forM f) p (b.Vetted scope p) := by
  refine ends_forM (fun _ q => b.Accepts scope none p.session q.session) (.refl _ _ _) (fun _ h => h)
    fun x rest q hx hq => ?_
  refine (h x hx q).mono fun r q' h' => ?_
  cases r with
  | error e => exact hq.rejects h'
  | ok u => exact hq.trans h'

theorem buildAggregates_vets (m : Module) (scope : Scope) :
    Ends False (b.buildAggregates m scope) p (b.Vetted scope p) := by
  refine forM_vets fun d hd q => ?_
  obtain rfl : d.scope = scope := by simpa using (List.mem_filter.1 hd).2
  exact ends_buildAggregate m d (fun _ => .refl _ _ _) ((Accepts.refl b d.scope q.session).fails id)
    fun _ _ => (Accepts.refl b d.scope q.session).recordAssembled m.key _ _

/-! ## Processing -/

section Processing

variable {m : Module} {scope : Scope} {p₀ : Progress}

/-- A scope that is being opened: it was not marked before, it is marked now, and main is, too. -/
structure BeingOpened (b : Build) (m : Module) (scope : Scope) (p₀ p : Progress) : Prop where
  known : b.reactor.get? m.key = some m
  fresh : (p₀.session.state m.key scope).processed = false
  marked : ∀ scope' ∈ scope.visible, (p.session.state m.key scope').processed = true
  accepts : b.Accepts scope (some m.key) p₀.session p.session

theorem BeingOpened.mem (h : b.BeingOpened m scope p₀ p) : m ∈ b.reactor.modules := (mem_modules_of_get? h.known).1

/-- The scope that is being opened gets raw features that the source has. -/
theorem BeingOpened.read {s : Session} (h : b.BeingOpened m scope p₀ p) (grows : p₀.session.Extends scope s)
    (marks : ∀ key scope', (s.state key scope').processed = (p.session.state key scope').processed)
    (raws : ∀ key scope', ¬ (key = m.key ∧ scope' = scope) →
      (s.state key scope').raw = (p.session.state key scope').raw)
    (listed : Classifiers.ofFeatures (s.state m.key scope).raw = Classifiers.ofFeatures (b.sourced m.key scope)) :
    b.Accepts scope (some m.key) p₀.session s where
  grows := grows
  listed hl key scope' := by
    by_cases hk : key = m.key ∧ scope' = scope
    · rw [hk.1, hk.2, listed]
    · rw [raws key scope' hk]
      exact h.accepts.listed hl key scope'
  behind hb key hn := by
    rw [marks] at hn
    rw [raws key .test fun hk => ?_]
    · exact h.accepts.behind hb key hn
    -- If test is what is read then main is marked.
    · have := h.marked .main (main_mem_visible scope)
      rw [← hk.1, hn] at this
      cases this
  admits mains m' hm' scope' hne hn hp := by
    rw [marks] at hp
    refine (h.accepts.admits mains m' hm' scope' hne hn hp).of_classifiers_eq ?_
    rw [raws m'.key scope' fun hk => hne ⟨congrArg some hk.1.symm, hk.2⟩]

/-- Once the scope that is being opened is admitted, nothing is pending. -/
theorem Accepts.settle {s s' : Session} (h : b.Accepts scope (some m.key) s s') (hm : m ∈ b.reactor.modules)
    (admitted : (scope = .test → b.MainsAdmitted s) → b.Admitted s' m scope) :
    b.Accepts scope none s s' := by
  refine ⟨h.grows, h.listed, h.behind, fun mains m' hm' scope' _ hn hp => ?_⟩
  by_cases hk : m'.key = m.key ∧ scope' = scope
  · obtain rfl := List.inj_on_of_nodup_map b.reactor.distinct hm' hm hk.1
    exact hk.2 ▸ admitted mains
  · exact h.admits mains m' hm' scope' (fun he => hk ⟨(Option.some.inj he.1).symm, he.2⟩) hn hp

/-- A valid module passes with what is known of its features. -/
theorem checkClassifiers_of_listed {s : Session} (hm : b.reactor.get? m.key = some m)
    (valid : b.validate m = .ok ()) (hl : b.Listed s) :
    b.checkClassifiers m.key (s.state m.key .main).raw (s.state m.key .test).raw = .ok () := by
  obtain ⟨-, main, test, hmain, htest, passes⟩ := validate_eq_ok_iff.1 valid
  refine checkClassifiers_mono passes ?_ ?_
  · rw [← sourced_of_load hm hmain]
    exact hl m.key .main
  · rw [← sourced_of_load hm htest]
    exact hl m.key .test

/-- **Reading and checking** a scope admits it, or the module is not valid. -/
theorem checkStore_vets (h : b.BeingOpened m scope p₀ p) {dependencies : List Dependency}
    {features : FeatureMap} (declared : b.checkAggregates m.key = .ok ())
    (hl : b.load m scope = .ok features) :
    Ends False (b.checkStore m.key)
      ((p.note (.loaded m.key dependencies scope)).onSession fun s =>
        s.modifyStore m.key fun t => t.setRaw scope features)
      (either (fun _ q => b.Accepts scope none p₀.session q.session ∧
          (q.session.state m.key scope).processed = true)
        fun e q => b.Rejects p₀.session e q.session) := by
  let s : Session := p.session.modifyStore m.key fun t => t.setRaw scope features
  have raw : (s.state m.key scope).raw = features := p.session.raw_setRaw m.key scope features
  have marks : ∀ key scope', (s.state key scope').processed = (p.session.state key scope').processed :=
    fun key scope' => p.session.processed_setRaw m.key key scope scope' features
  have raws : ∀ key scope', ¬ (key = m.key ∧ scope' = scope) →
      (s.state key scope').raw = (p.session.state key scope').raw := fun key scope' hk =>
    congrArg ScopeState.raw (p.session.state_modifyStore_of_ne _ hk)
  have read : b.Accepts scope (some m.key) p₀.session s :=
    h.read (h.accepts.grows.setRaw h.fresh features) marks raws (by rw [raw, sourced_of_load h.known hl])
  have marked : ∀ scope' ∈ scope.visible, (s.state m.key scope').processed = true := fun scope' hv =>
    (marks m.key scope').trans (h.marked scope' hv)
  refine ends_checkStore m.key (fun passes => ⟨read.settle h.mem fun mains => ?clean, ?marked⟩)
    fun e clashes => ?clash
  case marked => exact marked scope (mem_visible_self scope)
  case clean =>
    refine ⟨declared, ⟨features, hl, by rw [raw]⟩, ?_⟩
    rintro rfl
    -- Main was admitted before, so the check was made with all of its classifiers.
    have main : b.Admitted s m .main :=
      (mains rfl).mono read.grows (read.admits mains) m h.mem (marked .main (main_mem_visible _))
    obtain ⟨features', hmain, same⟩ := main.loaded
    have passes : b.checkClassifiers m.key (s.state m.key .main).raw (s.state m.key .test).raw = .ok () :=
      passes
    refine validate_eq_ok_iff.2 ⟨declared, features', features, hmain, hl, checkClassifiers_mono passes ?_ ?_⟩
    · rw [same]
    · rw [raw]
  case clash =>
    refine read.rejects ⟨id, id, fun valid listed _ => ?_⟩
    have passes := checkClassifiers_of_listed h.known (valid m h.mem) listed
    cases passes.symm.trans clashes

/-- Attaching the packaged unit leaves classifiers alone. -/
theorem attachPackagedUnit_vets (hn : (p₀.session.state m.key .main).processed = false)
    (h : b.Accepts .main none p₀.session p.session)
    (hp : (p.session.state m.key .main).processed = true) :
    Ends False (b.attachPackagedUnit m) p
      (either (fun _ q => b.Accepts .main none p₀.session q.session ∧
          (q.session.state m.key .main).processed = true)
        fun e q => b.Rejects p₀.session e q.session) := by
  let unit := b.withUnit m ((p.session.store m.key).raw .main)
  refine ends_attachPackagedUnit m (fun s hst _ _ _ => ?_) fun l =>
    (h.onSession fun key => p.session.store_report (.ambiguousUnit m.key l) key).fails id
  have states := Session.state_eq_of_store_eq hst
  have marks : ∀ key scope, (s.state key scope).processed = (p.session.state key scope).processed :=
    fun key scope => by
      rw [states]
      exact p.session.processed_setRaw m.key key .main scope unit
  refine ⟨h.alike ?grows marks (fun key scope => ?classifiers) fun key => ?test, (marks _ _).trans hp⟩
  case grows => exact (h.grows.setRaw hn unit).trans (.of_state_eq states)
  case classifiers =>
    show Classifiers.ofFeatures (s.state key scope).raw = _
    rw [states]
    by_cases hk : key = m.key ∧ scope = .main
    · rw [hk.1, hk.2, p.session.raw_setRaw]
      exact ofFeatures_withUnit m _
    · exact congrArg (fun t => Classifiers.ofFeatures t.raw) (p.session.state_modifyStore_of_ne _ hk)
  case test =>
    show (s.state key .test).raw = _
    rw [states]
    exact congrArg ScopeState.raw (p.session.state_modifyStore_of_ne _ nofun)

/-- **Processing a marked scope** admits it, or ends with an error that validation finds, too. -/
theorem processMarked_vets (hb : b.Regular) (hc : calls.Vet b) (h : b.BeingOpened m scope p₀ p)
    (dependencies : List Dependency) :
    Ends False (b.processMarked calls (m.dependingOn dependencies) scope) p
      (either (fun _ q => b.Accepts scope none p₀.session q.session ∧
          (q.session.state m.key scope).processed = true)
        fun e q => b.Rejects p₀.session e q.session) := by
  let inv : Progress → Prop := fun q =>
    b.Accepts scope none p₀.session q.session ∧ (q.session.state m.key scope).processed = true
  have later : ∀ {α : Type} {r : Except AssemblyError α} {q q'}, inv q → b.Vetted scope q r q' →
      either (fun _ => inv) (fun e q => b.Rejects p₀.session e q.session) r q' := by
    intro α r q q' hq h'
    cases r with
    | error e => exact hq.1.rejects h'
    | ok a => exact ⟨hq.1.trans h', (h'.grows.state m.key scope).processed hq.2⟩
  refine ends_processMarked m dependencies scope inv inv inv inv (fun e he => ?undeclared)
    (fun e he => ?unread) (fun features hd hl => ?check) ?attach (fun _ _ h => h) ?assemble ?aggregate
    ?augment
  case undeclared =>
    refine h.accepts.rejects ⟨id, id, fun valid _ _ => ?_⟩
    cases (validate_eq_ok_iff.1 (valid m h.mem)).1.symm.trans he
  case unread =>
    refine h.accepts.rejects ⟨id, id, fun valid _ _ => ?_⟩
    obtain ⟨features, hl⟩ := exists_load_of_validate (valid m h.mem) scope
    cases hl.symm.trans ((load_dependingOn hb.ignores m dependencies scope).symm.trans he)
  case check =>
    rw [load_dependingOn hb.ignores] at hl
    exact checkStore_vets h hd hl
  case attach =>
    rintro q rfl hq
    exact attachPackagedUnit_vets h.fresh hq.1 hq.2
  case assemble =>
    intro q hq
    exact (forM_vets fun e _ p => assembleAt_vets hb hc m.key scope e).mono fun r q' h' => later hq h'
  case aggregate =>
    intro q hq
    exact (buildAggregates_vets m scope).mono fun r q' h' => later hq h'
  case augment =>
    intro q hq
    have stores := b.store_augmented m.key scope q.session
    refine ⟨hq.1.onSession stores, ?_⟩
    show ((b.augmented m.key scope q.session).state m.key scope).processed = true
    rw [Session.state_eq_of_store_eq stores]
    exact hq.2

/-- A scope is marked, and is pending. -/
theorem opened_accepts (key : ModuleKey) (scope : Scope) (p : Progress) :
    b.Accepts scope (some key) p.session (opened key scope p).session := by
  have raw : ∀ key' scope', ((opened key scope p).session.state key' scope').raw =
      (p.session.state key' scope').raw := p.session.view_modifyStore ScopeState.raw rfl
  have marks : ∀ key' scope', ((opened key scope p).session.state key' scope').processed = true ↔
      (key', scope') = (key, scope) ∨ (p.session.state key' scope').processed = true :=
    fun key' scope' => p.session.processed_markProcessed key key' scope scope'
  refine ⟨(Session.Extends.refl _ _).markProcessed key, fun hl key' scope' => ?listed,
    fun hb key' hn => ?behind, fun _ m _ scope' hne hn hp => ?admits⟩
  case listed =>
    rw [raw]
    exact hl key' scope'
  case behind =>
    rw [raw]
    refine hb key' (Bool.eq_false_iff.2 fun hp => ?_)
    exact absurd ((marks key' .main).2 (.inr hp)) (Bool.eq_false_iff.1 hn)
  case admits =>
    rcases (marks m.key scope').1 hp with he | hp
    · cases he
      exact absurd ⟨rfl, rfl⟩ hne
    · exact absurd (hn.symm.trans hp) nofun

theorem processWith_vets (hb : b.Regular) (hc : calls.Vet b) (key : ModuleKey)
    (scope : Scope) :
    Ends False (b.processWith calls key scope) p (either
      (fun _ p' => b.Accepts scope none p.session p'.session ∧ (p'.session.state key scope).processed = true)
      fun e p' => b.Rejects p.session e p'.session) := by
  have marked : ((opened key scope p).session.state key scope).processed = true :=
    (p.session.processed_markProcessed key key scope scope).2 (.inl rfl)
  refine ends_processWith key scope (fun _ => (Accepts.refl b scope p.session).fails id)
    (fun _ _ hp => ⟨.refl _ _ _, hp⟩) ?main ?test
  case main =>
    rintro m hm hn rfl
    obtain ⟨-, rfl⟩ := mem_modules_of_get? hm
    refine processMarked_vets hb hc ⟨hm, hn, fun scope' hv => ?_, opened_accepts m.key .main p⟩ _
    rw [show scope' = .main by simpa [Scope.visible] using hv]
    exact marked
  case test =>
    rintro m hm hn rfl
    obtain ⟨-, rfl⟩ := mem_modules_of_get? hm
    have pending := opened_accepts (b := b) m.key .test p
    refine hc.process.mono fun r q h => ?_
    cases r with
    | error e => exact pending.rejects h
    | ok u =>
      have accepts : b.Accepts .test none (opened m.key .test p).session q.session :=
        h.1.weaken fun _ => rfl
      refine processMarked_vets hb hc ⟨hm, hn, fun scope' hv => ?_, pending.trans accepts⟩ _
      cases scope' with
      | main => exact h.2
      | test => exact (accepts.grows.state m.key .test).processed marked

end Processing

/-! ## Providing -/

theorem processReleased_vets (hc : calls.Vet b) (id : Identity) (key : ModuleKey) (scope : Scope) :
    Ends False (processReleased calls id key scope) p (b.Vetted scope p) := by
  refine ends_processReleased id key scope ((hc.process (p := p.leave id)).mono fun r q h => ?_)
  cases r with
  | error e => exact h
  | ok u => exact h.1

theorem lookIn_vets (hb : b.Regular) (hc : calls.Vet b) (key : ModuleKey) {wanted : Scope}
    (id : Identity) {scopes : List Scope} (hv : ∀ scope ∈ scopes, scope ∈ wanted.visible) :
    Ends False (b.lookIn calls key wanted id scopes) p (b.Vetted wanted p) := by
  induction scopes generalizing p with
  | nil => exact ends_lookIn_nil key wanted id (.refl _ _ _)
  | cons scope rest ih =>
    have narrow : wanted = .main → scope = .main := by
      rintro rfl
      simpa [Scope.visible] using hv scope List.mem_cons_self
    have behind : ∀ q, b.Accepts wanted none p.session q.session →
        Ends False (b.lookIn calls key wanted id rest) q (b.Vetted wanted p) := fun q hq =>
      (ih fun scope hs => hv scope (List.mem_cons_of_mem _ hs)).mono fun r q' h => hq.before h
    refine ends_lookIn_cons key wanted id scope rest (fun q => b.Accepts wanted none p.session q.session)
      (fun _ => ?open_) (fun _ => .refl _ _ _) (fun _ _ _ hq _ => hq) (fun q hq _ _ => behind q hq)
      fun q location f hq _ _ => ?raw
    case open_ =>
      refine (processReleased_vets hc id key scope).mono fun r q h => ?_
      cases r with
      | error e => exact h
      | ok u => exact h.weaken narrow
    case raw =>
      refine (merge_vets hb hc key scope location f).mono fun r q' h => ?_
      cases r with
      | error e => exact hq.rejects h
      | ok g => exact hq.trans ((h.recordAssembled key location g).weaken narrow)

theorem find_vets (hb : b.Regular) (hc : calls.Vet b) (key : ModuleKey) (scope : Scope)
    (id : Identity) : Ends False (b.find calls key scope id) p (b.Vetted scope p) := by
  refine ends_find key scope id (fun _ => lookIn_vets hb hc key id fun _ hs => hs) (fun _ _ => ?other)
    (fun _ _ _ _ => .refl _ _ _) (fun _ _ _ _ _ => .refl _ _ _)
    fun _ _ _ _ _ => (Accepts.refl b scope p.session).fails not_false
  refine (processReleased_vets hc id id.moduleKey scope).mono fun r q h => ?_
  cases r with
  | error e => exact h
  | ok u =>
    exact (lookIn_vets hb hc id.moduleKey id fun _ hs => hs).mono fun r q' h' => h.before h'

theorem provideWith_vets (hb : b.Regular) (hc : calls.Vet b) (key : ModuleKey)
    (scope : Scope) (id : Identity) :
    Ends False (b.provideWith calls key scope id) p (b.Vetted scope p) := by
  refine ends_provideWith key scope id
    (fun _ => (Accepts.refl b scope p.session).onSession (p.session.store_report (.cycle key id)))
    fun _ => ?_
  refine (find_vets (p := p.enter id) hb hc key scope id).mono fun r q h => ?_
  cases r with
  | error e => exact h
  | ok found =>
    have h : b.Accepts scope none p.session q.session := h
    cases found with
    | none => exact h.onSession (q.session.store_report (.notFound key id))
    | some f => exact h.onSession (store_withReference key id q.session)

/-! ## Whole builds -/

/-- **Calls are vetted**, at any depth. -/
theorem calls_vet (hb : b.Regular) : ∀ depth, (b.calls depth).Vet b
  | 0 => ⟨id, id⟩
  | depth + 1 =>
    have hc := calls_vet hb depth
    ⟨processWith_vets hb hc _ _, provideWith_vets hb hc _ _ _⟩

variable {s : Session}

/-- What an outcome says of the sessions before and after it. -/
structure VetsOutcome (b : Build) (scope : Scope) (targets : List (ModuleKey × Scope)) (s : Session)
    (o : Outcome) : Prop where
  accepts : o.result = .ok () → b.Accepts scope none s o.session
  marked : o.result = .ok () → ∀ t ∈ targets, (o.session.state t.1 t.2).processed = true
  rejects : ∀ e, o.result = .error e → b.Rejects s e o.session

theorem process_vets (hb : b.Regular) {key : ModuleKey} {scope : Scope} {o : Outcome}
    (ho : b.process s key scope = some o) : b.VetsOutcome scope [(key, scope)] s o := by
  obtain ⟨depth, r, p, hx, rfl⟩ := exists_depth_of_process ho
  have ends := ((calls_vet hb depth).process (p := ⟨s, .empty, []⟩)).of_eq_some hx
  cases r with
  | error e => exact ⟨nofun, nofun, fun _ he => Except.error.inj he ▸ ends⟩
  | ok u =>
    refine ⟨fun _ => ends.1, fun _ t ht => ?_, nofun⟩
    rw [List.mem_singleton.1 ht]
    exact ends.2

/-- **Scopes that are processed in turn.** -/
theorem processEach_vets (hb : b.Regular) {targets : List (ModuleKey × Scope)} :
    ∀ {s : Session} {o : Outcome}, b.processEach s targets = some o → b.VetsOutcome .test targets s o := by
  induction targets with
  | nil =>
    intro s o ho
    cases ho
    exact ⟨fun _ => .refl _ _ _, fun _ => nofun, nofun⟩
  | cons t rest ih =>
    intro s o ho
    obtain ⟨first, hfirst, hrest⟩ := Option.bind_eq_some_iff.1 ho
    have vets := process_vets hb hfirst
    unfold andThen at hrest
    cases hr : first.result with
    | error e =>
      have failed : first.result ≠ .ok () := fun hok => nomatch hr.symm.trans hok
      rw [hr] at hrest
      cases hrest
      exact ⟨fun hok => absurd hok failed, fun hok => absurd hok failed, vets.rejects⟩
    | ok u =>
      rw [hr] at hrest
      obtain ⟨later, hlater, rfl⟩ := Option.map_eq_some_iff.1 hrest
      have later := ih hlater
      have accepts : b.Accepts .test none s first.session := (vets.accepts hr).weaken nofun
      refine ⟨fun hok => accepts.trans (later.accepts hok), fun hok t' ht => ?_,
        fun e he => accepts.rejects (later.rejects e he)⟩
      rcases List.mem_cons.1 ht with rfl | ht
      · exact ((later.accepts hok).grows.state t'.1 t'.2).processed (vets.marked hr t' List.mem_cons_self)
      · exact later.marked hok t' ht

/-- In every session that builds come to, test features are read behind main. -/
theorem testBehindMain_of_reached {r : Reactor} {builds : Build → Prop}
    (hb : ∀ b, builds b → b.merger = .byPrototype) (h : s.Reached r builds) : s.TestBehindMain := by
  induction h with
  | start =>
    intro key _
    rw [state_start]
    rfl
  | @process b s key scope o _ admitted ends ih =>
    have merger := hb b admitted
    have vets := process_vets (regular_asAnswered merger o.events) (process_asAnswered merger ends)
    cases hr : o.result with
    | ok u => exact (vets.accepts hr).behind ih
    | error e => exact (vets.rejects e hr).behind ih

theorem listed_start (b : Build) (r : Reactor) : b.Listed (.start r) := fun key scope => by
  rw [state_start]
  exact List.nil_sublist _

/-- In every session that a build comes to, the raw features are among those of the source. -/
theorem listed_of_reached (hb : b.Regular) (h : s.Reached b.reactor (· = b)) : b.Listed s := by
  induction h with
  | start => exact b.listed_start _
  | @process b' s key scope o _ admitted ends ih =>
    subst admitted
    have vets := process_vets hb ends
    cases hr : o.result with
    | ok u => exact (vets.accepts hr).listed ih
    | error e => exact (vets.rejects e hr).listed ih

/-- **Validating and assembling agree**, if the source ignores dependencies: a build of all modules
has an outcome, and if it went well then every module is valid. And where every module is valid,
neither that build is refused nor the processing of any scope, in any session that processing scopes
of a fresh one comes to. -/
theorem validation_agrees (b : Build) (hb : b.merger = .byPrototype)
    (hi : b.source.IgnoresDependencies) :
    (∃ o, b.processAll (.start b.reactor) = some o ∧
      (o.result = .ok () → ∀ m ∈ b.reactor.modules, b.validate m = .ok ()) ∧
      ((∀ m ∈ b.reactor.modules, b.validate m = .ok ()) → ∀ e, o.result = .error e → ¬ e.IsRefusal)) ∧
    ((∀ m ∈ b.reactor.modules, b.validate m = .ok ()) →
      ∀ s, Session.Reached b.reactor (· = b) s → ∀ key scope,
        ∃ o, b.process s key scope = some o ∧ ∀ e, o.result = .error e → ¬ e.IsRefusal) := by
  have regular : b.Regular := ⟨hb, hi⟩
  refine ⟨?all, fun valid s reached key scope => ?single⟩
  case single =>
    obtain ⟨o, ho⟩ := exists_process hb s key scope
    have rejects := (process_vets regular ho).rejects
    exact ⟨o, ho, fun e he => (rejects e he).excused valid (listed_of_reached regular reached)⟩
  case all =>
    unfold processAll
    cases hr : b.reactor.buildOrder with
    | error err =>
      refine ⟨_, rfl, fun hok => ?_, fun _ e he => ?_⟩
      · cases hok
      · cases he
        exact not_false
    | ok order =>
      let targets := order.flatMap fun key => Scope.all.map fun scope => (key, scope)
      obtain ⟨o, ho⟩ := exists_processEach hb targets (.start b.reactor)
      have vets := processEach_vets regular ho
      refine ⟨o, ho, fun hok m hm => ?_, fun valid e he => (vets.rejects e he).excused valid (b.listed_start _)⟩
      have fresh : ∀ key scope, ((Session.start b.reactor).state key scope).processed = false :=
        fun key scope => by rw [state_start]; rfl
      have mains : b.MainsAdmitted (.start b.reactor) := fun m _ hp =>
        absurd ((fresh m.key .main).symm.trans hp) Bool.false_ne_true
      have listed : (m.key, Scope.test) ∈ targets :=
        List.mem_flatMap.2 ⟨m.key, b.reactor.mem_of_buildOrder hr m hm, by simp [Scope.all]⟩
      exact ((vets.accepts hok).admits (fun _ => mains) m hm .test (fun h => Option.some_ne_none _ h.1.symm) (fresh _ _)
        (vets.marked hok _ listed)).valid rfl

/-- A build of two modules in which `t`, in test, refers to `p`. -/
def outpost : Build :=
  let app : Identity := (Identity.of "g" "app" "1").withType featureType
  let lib : Identity := (Identity.of "g" "lib" "1").withType featureType
  ofTable appAndLib
    [(⟨"g:app"⟩, .test, "t.json", .after (app.withClassifier "t") lib),
      (⟨"g:lib"⟩, .main, "p.json", .of lib)]

/-- A build of `outpost` goes well, so its modules are valid; the modules of `knot` are valid, so that a
build that fails is not refused. -/
theorem outpost_validation_agrees :
    (∀ m ∈ outpost.reactor.modules, outpost.validate m = .ok ()) ∧
      ∃ o e, knot.process (.start knot.reactor) ⟨"g:app"⟩ .main = some o ∧ o.result = .error e ∧
        ¬ e.IsRefusal := by
  obtain ⟨⟨o, ho, valid, -⟩, -⟩ := validation_agrees outpost rfl (ignoresDependencies_ofTable _ _)
  have run : (outpost.processAll (.start outpost.reactor)).map (fun o => o.result) = some (.ok ()) := by
    decide +kernel
  rw [ho, Option.map_some, Option.some.injEq] at run
  refine ⟨valid run, ?_⟩
  obtain ⟨o', ho', excused⟩ := (validation_agrees knot rfl (ignoresDependencies_ofTable _ _)).2
    (by decide +kernel) _ .start ⟨"g:app"⟩ .main
  have run' : ((knot.process (.start knot.reactor) ⟨"g:app"⟩ .main).bind Outcome.error?).isSome = true := by
    decide +kernel
  rw [ho'] at run'
  obtain ⟨e, he⟩ := Option.isSome_iff_exists.1 run'
  have failed := Outcome.error?_eq_some he
  exact ⟨o', e, ho', failed, excused e failed⟩

end Build

end FeatureAssembly
