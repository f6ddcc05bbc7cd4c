import FeatureAssembly.Proofs.Soundness
import FeatureAssembly.Proofs.Vetting

/-!
# Where parents come from

A feature inherits from what the lookup hands out for its prototype, and that comes from one of two
sides. A module hands out what it has assembled. The loader hands out what it has, as it is.

**The law** (`Build.parents_accounted`): whatever was done before and however the processing of a
scope ends, each parent that was handed out from a module is whole, that is, made of its raw feature
and of a parent in turn (`Build.Whole`), and final; each other one is what the loader has. So all
chains come to an end if the features of the loader have no open references (`Feature.Resolved`).

They do not come to an end otherwise. The merger takes the prototype of a parent away, and the loader
is not asked again: a chain that goes on outside is cut off behind the first feature there, and what
is made of it is marked as final (`Build.frontier_cuts_chain`).

What it does not establish: that a parent is found.
-/

set_option autoImplicit false

namespace FeatureAssembly

open Step

/-- **A feature without an open reference**: it is final, or it has no prototype. -/
def Feature.Resolved (f : Feature) : Prop := f.assembled = true ∨ f.prototype = none

instance (f : Feature) : Decidable f.Resolved := inferInstanceAs (Decidable (_ ∨ _))

namespace Build

variable {b : Build} {calls : Calls} {known : Prop} {p p' p'' : Progress} {key : ModuleKey}
  {scope scope' : Scope} {n : Site} {f g : Feature} {id : Identity}

/-! ## Whole features -/

/-- The raw feature at a site, perhaps with the packaged unit attached. -/
def RawAt (b : Build) (n : Site) (f : Feature) : Prop :=
  b.featureAt n = some f ∨ (b.prepared n.module n.scope).get? n.location = some f

mutual

/-- **A feature that is whole**: a final raw feature, one that is laid over nothing or over what it
inherits from a parent, or an aggregate of whole features. -/
inductive Whole (b : Build) : Site → Feature → Prop
  | final {n : Site} {f : Feature} (raw : b.RawAt n f) (marked : f.assembled = true) : Whole b n f
  | alone {n : Site} {f : Feature} (raw : b.RawAt n f) (unmarked : f.assembled = false)
      (original : f.prototype = none) : Whole b n ((Feature.of f.id).overlay f).finished
  | heir {n : Site} {f parent : Feature} {prototype : Prototype} (raw : b.RawAt n f)
      (unmarked : f.assembled = false) (derived : f.prototype = some prototype)
      (handed : Parent b n.scope prototype.id parent) :
      Whole b n ((Feature.inherited f.id parent prototype).overlay f).finished
  | aggregate {n : Site} {m : Module} {d : AggregateDecl} {parts : List (String × Feature)}
      (declared : d ∈ b.config.aggregatesOf m.key) (keyed : n = ⟨m.key, d.scope, aggregateKey d.classifier⟩)
      (free : b.featureAt n = none) (whole : ∀ e ∈ parts, Whole b ⟨n.module, n.scope, e.1⟩ e.2) :
      Whole b n (b.merger.aggregate (aggregateIdentity m d) (parts.map (·.2)))

/-- **A parent that is handed out** for an identity: a whole feature that the owner keeps in a scope
that is seen, or what the loader has if no module owns the identity. -/
inductive Parent (b : Build) : Scope → Identity → Feature → Prop
  | owned {scope : Scope} {id : Identity} {n : Site} {f : Feature}
      (known : b.reactor.contains id.moduleKey = true) (owner : n.module = id.moduleKey)
      (visible : n.scope ∈ scope.visible) (named : f.id = id) (whole : Whole b n f) : Parent b scope id f
  | foreign {scope : Scope} {id : Identity} {f : Feature}
      (unknown : b.reactor.contains id.moduleKey = false) (loads : b.loader id = .ok f) :
      Parent b scope id f

end

/-- Whole features are final. -/
theorem Whole.finished (hb : b.merger = .byPrototype) (h : b.Whole n g) : g.assembled = true := by
  cases h with
  | final raw marked => exact marked
  | alone | heir => rfl
  | aggregate =>
    rw [hb]
    rfl

theorem RawAt.carries (h : b.RawAt n f) : b.Carries n f.id := by
  rcases h with found | found
  · exact ⟨f, found, rfl⟩
  · obtain ⟨f₀, h₀, same, -⟩ := get?_prepared found
    exact ⟨f₀, h₀, same.symm⟩

/-- A whole feature in the place of a raw one has its identity. -/
theorem Whole.id_eq (h : b.Whole n g) (hc : b.Carries n id) : g.id = id := by
  obtain ⟨f₀, h₀, rfl⟩ := hc
  have same : ∀ {f}, b.RawAt n f → f.id = f₀.id := fun raw => by
    obtain ⟨f₁, h₁, named⟩ := raw.carries
    cases h₀.symm.trans h₁
    exact named.symm
  cases h with
  | final raw | alone raw | heir raw => exact (same raw :)
  | aggregate declared keyed free =>
    rw [free] at h₀
    cases h₀

/-! ## Honest progress -/

/-- **A progress is honest**: the raw features are those of the source, what is assembled is whole,
and so are the parents that were handed out. -/
structure Honest (b : Build) (p : Progress) : Prop where
  raw : ∀ {n f}, (p.session.state n.module n.scope).raw.get? n.location = some f → b.RawAt n f
  whole : ∀ {n g}, (p.session.state n.module n.scope).assembled.get? n.location = some g → b.Whole n g
  handed : ∀ {key scope id f}, .answered key scope id (.ok (some f)) ∈ p.trace → b.Parent scope id f

/-- An event that hands out no parent. -/
def HandsNothing : Event → Prop
  | .answered _ _ _ (.ok (some _)) => False
  | _ => True

theorem Honest.note (h : b.Honest p) {e : Event} (he : HandsNothing e) : b.Honest (p.note e) := by
  refine ⟨h.raw, h.whole, fun hm => ?_⟩
  rcases List.mem_cons.1 hm with rfl | hm
  · cases he
  · exact h.handed hm

theorem Honest.answer (h : b.Honest p) (hf : b.Parent scope id f) :
    b.Honest (p.note (.answered key scope id (.ok (some f)))) := by
  refine ⟨h.raw, h.whole, fun hm => ?_⟩
  rcases List.mem_cons.1 hm with he | hm
  · cases he
    exact hf
  · exact h.handed hm

/-- A change that leaves the features and the trace alone. -/
theorem Honest.alike (h : b.Honest p) (hs : ∀ key, p'.session.store key = p.session.store key)
    (ht : p'.trace = p.trace) : b.Honest p' := by
  have states := Session.state_eq_of_store_eq hs
  refine ⟨fun hf => h.raw ?_, fun hg => h.whole ?_, fun hm => h.handed (ht ▸ hm)⟩
  · rwa [← states]
  · rwa [← states]

/-- A whole feature is recorded where it belongs. -/
theorem Honest.recordAssembled (h : b.Honest p) (hg : b.Whole n g) :
    b.Honest (p.onSession fun s =>
      s.modifyStore n.module fun t => t.recordAssembled n.scope n.location g) := by
  refine ⟨fun {n'} f hf => ?_, fun {n'} g' hg' => ?_, h.handed⟩
  · have same : ((p.session.modifyStore n.module fun t => t.recordAssembled n.scope n.location g).state
        n'.module n'.scope).raw = (p.session.state n'.module n'.scope).raw :=
      p.session.view_modifyStore ScopeState.raw rfl n'.module n'.scope
    exact h.raw ((congrArg (SortedMap.get? · n'.location) same).symm.trans hf)
  · rcases p.session.assembled_recordAssembled n.module n'.module n.scope n'.scope hg' with
      old | ⟨hk, hs, hl, rfl⟩
    · exact h.whole old
    · obtain ⟨module, scope, location⟩ := n'
      subst hk hs hl
      exact hg

/-- The raw features of a scope are set to such as the source has. -/
theorem Honest.setRaw (h : b.Honest p) {features : FeatureMap}
    (hf : ∀ {location f}, features.get? location = some f → b.RawAt ⟨key, scope, location⟩ f) :
    b.Honest (p.onSession fun s => s.modifyStore key fun t => t.setRaw scope features) := by
  refine ⟨fun {n'} f hn => ?_, fun {n'} g hg => ?_, h.handed⟩
  · have here : ((p.session.modifyStore key fun t => t.setRaw scope features).state n'.module n'.scope).raw =
        if n'.module = key ∧ n'.scope = scope then features else (p.session.state n'.module n'.scope).raw := by
      unfold FeatureStore.setRaw
      rw [Session.state_modifyStore]
      split <;> rfl
    have there := (congrArg (SortedMap.get? · n'.location) here).symm.trans hn
    split at there
    · next hk =>
      obtain ⟨module, scope', location⟩ := n'
      obtain ⟨rfl, rfl⟩ := hk
      exact hf there
    · exact h.raw there
  · have same := p.session.assembled_setRaw key n'.module scope n'.scope features
    exact h.whole ((congrArg (SortedMap.get? · n'.location) same).symm.trans hg)

/-! ## What pieces do -/

/-- **A piece goes on**: nothing that was done is undone, what is assembled stays, and it is honest
if that is known of where it starts. -/
structure Onward (b : Build) (known : Prop) (p p' : Progress) : Prop where
  grows : p.trace <:+ p'.trace
  retains : p.session.Retains p'.session
  honest : known → b.Honest p'

namespace Onward

theorem refl (h : known → b.Honest p) : b.Onward known p p :=
  ⟨List.suffix_rfl, fun _ _ _ _ hf => hf, h⟩

theorem trans (h : b.Onward known p p') (h' : b.Onward known p' p'') : b.Onward known p p'' :=
  ⟨h.grows.trans h'.grows, h.retains.trans h'.retains, h'.honest⟩

theorem note (h : b.Onward known p p') {e : Event} (he : HandsNothing e) : b.Onward known p (p'.note e) :=
  ⟨h.grows.trans (List.suffix_cons _ _), h.retains, fun hk => (h.honest hk).note he⟩

theorem alike (h : b.Onward known p p') (hs : ∀ key, p''.session.store key = p'.session.store key)
    (ht : p''.trace = p'.trace) : b.Onward known p p'' := by
  have grows : p'.session.Extends .main p''.session := .of_store_eq hs
  exact ⟨ht ▸ h.grows, h.retains.trans grows.retains, fun hk => (h.honest hk).alike hs ht⟩

theorem recordAssembled (h : b.Onward known p p') (hg : known → b.Whole n g) :
    b.Onward known p (p'.onSession fun s =>
      s.modifyStore n.module fun t => t.recordAssembled n.scope n.location g) := by
  have grows := (Session.Extends.refl n.scope p'.session).recordAssembled n.module n.location g
  exact ⟨h.grows, h.retains.trans grows.retains, fun hk => (h.honest hk).recordAssembled (hg hk)⟩

theorem setRaw (h : b.Onward known p p') {features : FeatureMap}
    (hf : ∀ {location f}, features.get? location = some f → b.RawAt ⟨key, scope, location⟩ f) :
    b.Onward known p (p'.onSession fun s => s.modifyStore key fun t => t.setRaw scope features) := by
  refine ⟨h.grows, h.retains.trans fun key' scope' location g hg => ?_, fun hk => (h.honest hk).setRaw hf⟩
  have same := p'.session.assembled_setRaw key key' scope scope' features
  exact (congrArg (SortedMap.get? · location) same).trans hg

end Onward

end Build

/-- **Calls that go on**, from wherever they start. -/
structure Calls.GoOn (calls : Calls) (b : Build) (known : Prop) : Prop where
  process : ∀ {key scope p}, (known → b.Honest p) →
    Ends False (calls.process key scope) p fun _ p' => b.Onward known p p'
  provide : ∀ {key scope id p}, b.reactor.contains key = true → (known → b.Honest p) →
    Ends False (calls.provide key scope id) p fun r p' => b.Onward known p p' ∧
      ∀ f, known → r = .ok (some f) → b.Parent scope id f

namespace Build

variable {b : Build} {calls : Calls} {known : Prop} {p p' p'' : Progress} {key : ModuleKey}
  {scope scope' : Scope} {n : Site} {f g : Feature} {id : Identity}

/-! ## Assembling -/

theorem merge_goesOn (hb : b.Regular) (hc : calls.GoOn b known)
    (module : b.reactor.contains n.module = true) (hp : known → b.Honest p) (hf : known → b.RawAt n f) :
    Ends False (b.merge calls n.module n.scope n.location f) p fun r p' =>
      b.Onward known p p' ∧ ∀ g, known → r = .ok g → b.Whole n g := by
  have begun : ∀ base, b.Onward known p (p.note (.merging n.module n.scope n.location base)) := fun _ =>
    (Onward.refl hp).note trivial
  refine ends_merge hb.merger n.module n.scope n.location f (fun marked => ?final) (fun unmarked original => ?alone)
    fun prototype unmarked derived => ?inheriting
  case final =>
    refine ⟨(begun f.id).note trivial, fun g hk he => ?_⟩
    cases he
    exact .final (hf hk) marked
  case alone =>
    refine ⟨(begun f.id).note trivial, fun g hk he => ?_⟩
    cases he
    exact .alone (hf hk) unmarked original
  case inheriting =>
    refine (hc.provide module (begun f.id).honest).mono fun r q h => ?_
    obtain ⟨onward, handed⟩ := h
    refine ⟨((begun f.id).trans onward).note trivial, fun g hk he => ?_⟩
    cases r with
    | error e => cases he
    | ok found =>
      cases found with
      | none => cases he
      | some parent =>
        cases he
        exact .heir (hf hk) unmarked derived (handed parent hk rfl)

theorem assembleAt_goesOn (hb : b.Regular) (hc : calls.GoOn b known)
    (module : b.reactor.contains key = true) {e : String × Feature} (hp : known → b.Honest p)
    (he : known → b.RawAt ⟨key, scope, e.1⟩ e.2) :
    Ends False (b.assembleAt calls key scope e) p fun r q => b.Onward known p q ∧
      (r = .ok () → ∃ g, (q.session.state key scope).assembled.get? e.1 = some g) := by
  let n : Site := ⟨key, scope, e.1⟩
  refine ends_assembleAt key scope e (fun ha => ?done) (fun _ _ => ?held) fun _ _ => ?free
  case done => exact ⟨.refl hp, fun _ => Option.isSome_iff_exists.1 ha⟩
  case held =>
    refine (merge_goesOn (n := n) hb hc module hp he).mono fun r q h => ?_
    cases r with
    | error err => exact ⟨h.1, nofun⟩
    | ok g =>
      exact ⟨h.1.recordAssembled (n := n) fun hk => h.2 g hk rfl, fun _ => ⟨_, get?_recordAssembled _ _ _ _ _⟩⟩
  case free =>
    have entered : known → b.Honest (p.enter e.2.id) := fun hk => (hp hk).alike (fun _ => rfl) rfl
    refine (merge_goesOn (n := n) hb hc module entered he).mono fun r q h => ?_
    have left : b.Onward known p (q.leave e.2.id) :=
      ⟨h.1.grows, h.1.retains, fun hk => (h.1.honest hk).alike (fun _ => rfl) rfl⟩
    cases r with
    | error err => exact ⟨left, nofun⟩
    | ok g =>
      exact ⟨left.recordAssembled (n := n) fun hk => h.2 g hk rfl, fun _ => ⟨_, get?_recordAssembled _ _ _ _ _⟩⟩

/-- All that the source has for a scope is assembled. -/
def SourceDone (b : Build) (s : Session) (key : ModuleKey) (scope : Scope) : Prop :=
  ∀ location f, (b.sourced key scope).get? location = some f →
    ∃ g, (s.state key scope).assembled.get? location = some g

theorem SourceDone.mono {s s' : Session} (h : b.SourceDone s key scope) (hs : s.Retains s') :
    b.SourceDone s' key scope := fun location f hf => by
  obtain ⟨g, hg⟩ := h location f hf
  exact ⟨g, hs key scope location g hg⟩

/-- **The raw features of a scope** are assembled, one after the other. -/
theorem assembleAll_goesOn (hb : b.Regular) (hc : calls.GoOn b known)
    (module : b.reactor.contains key = true) (hp : known → b.Honest p) :
    Ends False (((p.session.store key).raw scope).entries.forM (b.assembleAt calls key scope)) p
      (either (fun _ q => b.Onward known p q ∧ ∀ e ∈ ((p.session.store key).raw scope).entries,
        ∃ g, (q.session.state key scope).assembled.get? e.1 = some g) fun _ => b.Onward known p) := by
  refine ends_forM_done (.refl hp) (fun _ _ h h' => h.trans h')
    (fun e q q' h ⟨g, hg⟩ => ⟨g, h.retains _ _ _ _ hg⟩) fun e q he h => ?_
  have raw : known → b.RawAt ⟨key, scope, e.1⟩ e.2 := fun hk =>
    (hp hk).raw (n := ⟨key, scope, e.1⟩) (SortedMap.get?_of_mem he)
  refine (assembleAt_goesOn hb hc module h.honest raw).mono fun r q' h' => ?_
  cases r with
  | error err => exact h.trans h'.1
  | ok u => exact ⟨h'.1, h'.2 rfl⟩

/-! ## Aggregates -/

theorem buildAggregate_goesOn {m : Module} {d : AggregateDecl} (hd : d ∈ b.config.aggregatesOf m.key)
    (hp : known → b.Honest p) (done : b.SourceDone p.session m.key d.scope) :
    Ends False (b.buildAggregate m d) p fun _ q => b.Onward known p q := by
  refine ends_buildAggregate m d (fun _ => .refl hp) (.refl hp) fun fresh _ => ?_
  let n : Site := ⟨m.key, d.scope, aggregateKey d.classifier⟩
  -- Raw features come first, so there is none in the place of an aggregate.
  have free : b.featureAt n = none := by
    cases hf : b.featureAt n with
    | none => rfl
    | some f =>
      obtain ⟨g, hg⟩ := done _ f hf
      have absent : ((p.session.state m.key d.scope).assembled.get?
        (aggregateKey d.classifier)).isSome = false := fresh
      rw [hg] at absent
      cases absent
  refine ((Onward.refl hp).note (e := .aggregated _ _) trivial).recordAssembled (n := n) fun hk => ?_
  refine .aggregate hd rfl free fun e he => ?_
  exact (hp hk).whole (n := ⟨m.key, d.scope, e.1⟩) (SortedMap.get?_of_mem (List.mem_filter.1 he).1)

theorem buildAggregates_goesOn (m : Module) (hp : known → b.Honest p)
    (done : b.SourceDone p.session m.key scope) :
    Ends False (b.buildAggregates m scope) p fun _ q => b.Onward known p q := by
  refine ends_forM (fun _ q => b.Onward known p q) (.refl hp) (fun _ h => h) fun d rest q hd h => ?_
  obtain ⟨declared, inScope⟩ := List.mem_filter.1 hd
  obtain rfl : d.scope = scope := by simpa using inScope
  refine (buildAggregate_goesOn declared h.honest (done.mono h.retains)).mono fun r q' h' => ?_
  cases r with
  | error err => exact h.trans h'
  | ok u => exact h.trans h'

/-! ## Processing -/

/-- What the source has for a scope is set and checked. -/
theorem checkStore_goesOn {m : Module} (hm : b.reactor.get? m.key = some m) {features : FeatureMap}
    (loads : b.load m scope = .ok features) (hp : b.Onward known p p') :
    Ends False (b.checkStore m.key)
      (p'.onSession fun s => s.modifyStore m.key fun t => t.setRaw scope features)
      (either (fun _ q => b.Onward known p q ∧ (q.session.state m.key scope).raw = b.sourced m.key scope)
        fun _ => b.Onward known p) := by
  have source : b.sourced m.key scope = features := sourced_of_load hm loads
  have set : b.Onward known p (p'.onSession fun s =>
      s.modifyStore m.key fun t => t.setRaw scope features) := hp.setRaw fun {location f} hf => by
    rw [← source] at hf
    exact .inl hf
  refine ends_checkStore m.key (fun _ => ⟨set, ?_⟩) fun e _ =>
    set.alike (Session.store_report _ (.classifiers e)) rfl
  rw [source]
  exact p'.session.raw_setRaw m.key scope features

/-- Attaching the packaged unit keeps the raw features at their locations. -/
theorem attachPackagedUnit_goesOn {m : Module} (hm : b.reactor.get? m.key = some m)
    (hp : b.Onward known p p') (raw : (p'.session.state m.key .main).raw = b.sourced m.key .main) :
    Ends False (b.attachPackagedUnit m) p' (either (fun _ q => b.Onward known p q ∧
      (q.session.state m.key .main).raw = b.prepared m.key .main) fun _ => b.Onward known p) := by
  refine ends_attachPackagedUnit m (fun s stores _ _ _ => ?_)
    fun l => hp.alike (p'.session.store_report (.ambiguousUnit m.key l)) rfl
  have unit : b.withUnit m ((p'.session.store m.key).raw .main) = b.prepared m.key .main := by
    rw [prepared_main hm, ← raw]
    rfl
  rw [unit] at stores
  have set : b.Onward known p (p'.onSession fun s =>
      s.modifyStore m.key fun t => t.setRaw .main (b.prepared m.key .main)) := hp.setRaw fun hf => .inr hf
  have attached : b.Onward known p (p'.onSession fun _ => s) := set.alike stores rfl
  have states := Session.state_eq_of_store_eq stores
  refine ⟨attached, ?_⟩
  show (s.state m.key .main).raw = _
  rw [states, Session.raw_setRaw]

/-- **A marked scope goes on**, whether it is read or not. -/
theorem processMarked_goesOn (hb : b.Regular) (hc : calls.GoOn b known) {m : Module}
    {dependencies : List Dependency} (hm : b.reactor.get? m.key = some m) (hp : known → b.Honest p) :
    Ends False (b.processMarked calls (m.dependingOn dependencies) scope) p fun _ q =>
      b.Onward known p q := by
  have module : b.reactor.contains m.key = true := Option.isSome_iff_exists.2 ⟨m, hm⟩
  have asked : b.Onward known p (p.note (.loaded m.key dependencies scope)) := (Onward.refl hp).note trivial
  let checked : Progress → Prop := fun q => b.Onward known p q ∧
    (q.session.state m.key scope).raw = b.sourced m.key scope
  let attached : Progress → Prop := fun q => b.Onward known p q ∧
    (q.session.state m.key scope).raw = b.prepared m.key scope
  let assembled : Progress → Prop := fun q => b.Onward known p q ∧ b.SourceDone q.session m.key scope
  refine ends_processMarked m dependencies scope checked attached assembled (b.Onward known p)
    (fun _ _ => .refl hp) (fun _ _ => asked) ?check ?attach ?pass ?assemble ?aggregate
    fun q h => h.alike (b.store_augmented m.key scope q.session) rfl
  case check =>
    intro features _ loads
    rw [load_dependingOn hb.ignores] at loads
    exact checkStore_goesOn hm loads asked
  case attach =>
    rintro q rfl ⟨h, raw⟩
    exact attachPackagedUnit_goesOn hm h raw
  case pass =>
    rintro q rfl ⟨h, raw⟩
    exact ⟨h, raw.trans (prepared_test m.key).symm⟩
  case assemble =>
    rintro q ⟨h, raw⟩
    refine (assembleAll_goesOn hb hc module h.honest).mono fun r q' h' => ?_
    cases r with
    | error err => exact h.trans h'
    | ok u =>
      refine ⟨h.trans h'.1, fun location f₀ h₀ => ?_⟩
      obtain ⟨f, hf, -⟩ := get?_prepared_of_sourced h₀
      rw [← raw] at hf
      exact h'.2 _ (SortedMap.get?_eq_some_iff.1 hf)
  case aggregate =>
    rintro q ⟨h, done⟩
    refine (buildAggregates_goesOn m h.honest done).mono fun r q' h' => ?_
    cases r with
    | error err => exact h.trans h'
    | ok u => exact h.trans h'

/-- A scope is marked and opened. -/
theorem onward_opened (key : ModuleKey) (scope : Scope) (hp : known → b.Honest p) :
    b.Onward known p (opened key scope p) := by
  have raw : ∀ key' scope', ((opened key scope p).session.state key' scope').raw =
      (p.session.state key' scope').raw := p.session.view_modifyStore ScopeState.raw rfl
  have assembled : ∀ key' scope', ((opened key scope p).session.state key' scope').assembled =
      (p.session.state key' scope').assembled := p.session.view_modifyStore ScopeState.assembled rfl
  refine ⟨List.suffix_cons _ _, ((Session.Extends.refl scope p.session).markProcessed key).retains, fun hk => ?_⟩
  have marked : b.Honest (p.onSession fun s => s.modifyStore key fun t => t.markProcessed scope) := by
    refine ⟨fun {n} f hf => (hp hk).raw ?_, fun {n} g hg => (hp hk).whole ?_, (hp hk).handed⟩
    · exact (congrArg (SortedMap.get? · n.location) (raw n.module n.scope)).symm.trans hf
    · exact (congrArg (SortedMap.get? · n.location) (assembled n.module n.scope)).symm.trans hg
  exact marked.note trivial

theorem processWith_goesOn (hb : b.Regular) (hc : calls.GoOn b known) (key : ModuleKey)
    (scope : Scope) (hp : known → b.Honest p) :
    Ends False (b.processWith calls key scope) p fun _ q => b.Onward known p q := by
  have open_ := onward_opened key scope hp
  refine ends_processWith key scope (fun _ => .refl hp) (fun _ _ _ => .refl hp) (fun m hm _ _ => ?main)
    fun m hm _ _ => ?test
  case main =>
    obtain ⟨-, rfl⟩ := mem_modules_of_get? hm
    exact (processMarked_goesOn hb hc hm open_.honest).mono fun r q h => open_.trans h
  case test =>
    obtain ⟨-, rfl⟩ := mem_modules_of_get? hm
    refine (hc.process open_.honest).mono fun r q h => ?_
    cases r with
    | error e => exact open_.trans h
    | ok u =>
      exact (processMarked_goesOn hb hc hm h.honest).mono fun r q' h' => open_.trans (h.trans h')

/-! ## Looking -/

theorem processReleased_goesOn (hc : calls.GoOn b known) (id : Identity) (key : ModuleKey)
    (scope : Scope) (hp : known → b.Honest p) :
    Ends False (processReleased calls id key scope) p fun _ q => b.Onward known p q := by
  have left : known → b.Honest (p.leave id) := fun hk => (hp hk).alike (fun _ => rfl) rfl
  refine ends_processReleased id key scope ((hc.process left).mono fun r q h => ?_)
  exact ⟨h.grows, h.retains, fun hk => (h.honest hk).alike (fun _ => rfl) rfl⟩

/-- What a look comes to: it goes on, and what it finds is a parent. -/
def Finds (b : Build) (known : Prop) (scope : Scope) (id : Identity) (p : Progress)
    (r : Except AssemblyError (Option Feature)) (q : Progress) : Prop :=
  b.Onward known p q ∧ ∀ f, known → r = .ok (some f) → b.Parent scope id f

theorem Onward.finds {r : Except AssemblyError (Option Feature)} (h : b.Onward known p p')
    (h' : b.Finds known scope id p' r p'') : b.Finds known scope id p r p'' :=
  ⟨h.trans h'.1, h'.2⟩

theorem Onward.finds_nothing (h : b.Onward known p p') : b.Finds known scope id p (.ok none) p' :=
  ⟨h, fun _ _ he => by cases he⟩

theorem Onward.fails {e : AssemblyError} (h : b.Onward known p p') :
    b.Finds known scope id p (.error e) p' :=
  ⟨h, fun _ _ he => by cases he⟩

/-- **Some scopes of the owner are looked in.** -/
theorem lookIn_goesOn (hb : b.Regular) (hc : calls.GoOn b known) {wanted : Scope}
    (module : b.reactor.contains id.moduleKey = true) {scopes : List Scope}
    (hv : ∀ scope ∈ scopes, scope ∈ wanted.visible) (hp : known → b.Honest p) :
    Ends False (b.lookIn calls id.moduleKey wanted id scopes) p (b.Finds known wanted id p) := by
  induction scopes generalizing p with
  | nil => exact ends_lookIn_nil id.moduleKey wanted id (Onward.refl hp).finds_nothing
  | cons scope rest ih =>
    have visible := hv scope List.mem_cons_self
    refine ends_lookIn_cons id.moduleKey wanted id scope rest (b.Onward known p) (fun _ => ?open_)
      (fun _ => .refl hp) (fun q location f h found => ⟨h, fun f' hk he => ?found⟩)
      (fun q h _ _ => ?absent) fun q location f h _ found => ?raw
    case open_ =>
      refine (processReleased_goesOn hc id id.moduleKey scope hp).mono fun r q h => ?_
      cases r with
      | error e => exact h.fails
      | ok u => exact h
    case found =>
      cases he
      have named : f.id = id := by simpa using List.find?_some found
      have there := SortedMap.get?_of_mem (List.mem_of_find?_eq_some found)
      exact .owned module rfl visible named ((h.honest hk).whole (n := ⟨id.moduleKey, scope, location⟩) there)
    case absent =>
      exact (ih (fun scope hs => hv scope (List.mem_cons_of_mem _ hs)) h.honest).mono fun r q' h' => h.finds h'
    case raw =>
      let n : Site := ⟨id.moduleKey, scope, location⟩
      have named : f.id = id := by simpa using List.find?_some found
      have there := SortedMap.get?_of_mem (List.mem_of_find?_eq_some found)
      have raw : known → b.RawAt n f := fun hk => (h.honest hk).raw (n := n) there
      refine (merge_goesOn (n := n) hb hc module h.honest raw).mono fun r q' h' => ?_
      cases r with
      | error e => exact (h.trans h'.1).fails
      | ok g =>
        have recorded := h'.1.recordAssembled (n := n) fun hk => h'.2 g hk rfl
        refine ⟨h.trans recorded, fun kept hk he => ?_⟩
        -- What stays at the location may have been there before.
        have stays := get?_recordAssembled q'.session n.module n.scope n.location g
        cases he
        have whole := (recorded.honest hk).whole stays
        exact .owned module rfl visible (whole.id_eq (named ▸ (raw hk).carries)) whole

/-- **A feature is looked for** where it is kept. -/
theorem find_goesOn (hb : b.Regular) (hc : calls.GoOn b known) (id : Identity)
    (module : b.reactor.contains key = true) (hp : known → b.Honest p) :
    Ends False (b.find calls key scope id) p (b.Finds known scope id p) := by
  have asked : b.Onward known p (p.note (.fetched id)) := (Onward.refl hp).note trivial
  refine ends_find key scope id (fun own => ?own) (fun _ owned => ?other) (fun f _ foreign loads => ?outside)
    (fun _ _ _ _ _ => asked.finds_nothing) fun _ _ _ _ _ => asked.fails
  case own =>
    subst own
    exact lookIn_goesOn hb hc module (fun _ hs => hs) hp
  case other =>
    refine (processReleased_goesOn hc id id.moduleKey scope hp).mono fun r q h => ?_
    cases r with
    | error e => exact h.fails
    | ok u => exact (lookIn_goesOn hb hc owned (fun _ hs => hs) h.honest).mono fun r q' h' => h.finds h'
  case outside =>
    refine ⟨asked, fun f' hk he => ?_⟩
    cases he
    exact .foreign foreign loads

theorem provideWith_goesOn (hb : b.Regular) (hc : calls.GoOn b known) (id : Identity)
    (module : b.reactor.contains key = true) (hp : known → b.Honest p) :
    Ends False (b.provideWith calls key scope id) p (b.Finds known scope id p) := by
  have entered : known → b.Honest (p.enter id) := fun hk => (hp hk).alike (fun _ => rfl) rfl
  refine ends_provideWith key scope id (fun _ => ?cycle) fun _ => ?ask
  case cycle =>
    have reported : b.Onward known p (p.onSession fun s => s.report (.cycle key id)) :=
      (Onward.refl hp).alike (fun _ => rfl) rfl
    exact (reported.note (e := .answered key scope id (.ok none)) trivial).finds_nothing
  case ask =>
    refine (find_goesOn hb hc id module entered).mono fun r q h => ?_
    obtain ⟨onward, finds⟩ := h
    have left : b.Onward known p (q.leave id) :=
      ⟨onward.grows, onward.retains, fun hk => (onward.honest hk).alike (fun _ => rfl) rfl⟩
    cases r with
    | error e => exact (left.note (e := .answered key scope id (.error e)) trivial).fails
    | ok found =>
      cases found with
      | none =>
        have reported : b.Onward known p ((q.leave id).onSession fun s => s.report (.notFound key id)) :=
          left.alike (fun _ => rfl) rfl
        have missed := reported.note (e := .missing key scope id) trivial
        exact (missed.note (e := .answered key scope id (.ok none)) trivial).finds_nothing
      | some f =>
        have referred : b.Onward known p ((q.leave id).onSession (withReference key id)) :=
          left.alike (store_withReference key id q.session) rfl
        constructor
        · refine ⟨referred.grows.trans (List.suffix_cons _ _), referred.retains, fun hk => ?_⟩
          exact (referred.honest hk).answer (finds f hk rfl)
        · intro f' hk he
          cases he
          exact finds f hk rfl

/-! ## Whole builds -/

/-- **Calls go on**, at any depth. -/
theorem calls_goOn (hb : b.Regular) (known : Prop) : ∀ depth, (b.calls depth).GoOn b known
  | 0 => ⟨fun _ => id, fun _ _ => id⟩
  | depth + 1 =>
    have hc := calls_goOn hb known depth
    ⟨processWith_goesOn hb hc _ _, provideWith_goesOn hb hc _⟩

/-- Nothing is known of the raw features before a build, and nothing was handed out. -/
theorem honest_start (b : Build) (r : Reactor) : b.Honest ⟨.start r, .empty, []⟩ := by
  refine ⟨fun hf => ?_, fun hg => ?_, nofun⟩
  · rw [state_start] at hf
    cases hf
  · rw [state_start] at hg
    cases hg

/-- The processing of a scope goes on from what the session has. -/
theorem process_goesOn (hb : b.Regular) {s : Session} (hs : b.Honest ⟨s, .empty, []⟩)
    {o : Outcome} (ho : b.process s key scope = some o) :
    b.Honest ⟨o.session, .empty, o.events.reverse⟩ := by
  obtain ⟨depth, r, q, hx, rfl⟩ := exists_depth_of_process ho
  have onward := ((calls_goOn hb True depth).process fun _ => hs).of_eq_some hx
  refine (onward.honest trivial).alike (fun _ => rfl) ?_
  exact List.reverse_reverse q.trace

/-- In every session that builds come to, what is assembled is whole. -/
theorem honest_of_reached (hb : b.Regular) {s : Session}
    (h : s.Reached b.reactor (· = b)) : b.Honest ⟨s, .empty, []⟩ := by
  induction h with
  | start => exact b.honest_start _
  | @process b' s key scope o _ admitted ends ih =>
    subst admitted
    have honest := process_goesOn hb ih ends
    exact ⟨honest.raw, honest.whole, nofun⟩

/-- What was handed out, for which scope and identity. -/
def handedOut (l : List Event) : List (Scope × Identity × Feature) :=
  l.filterMap fun
    | .answered _ scope id (.ok (some f)) => some (scope, id, f)
    | _ => none

/-- **All parents are accounted for**, in any session that processing scopes of a fresh one comes to,
also with failures on the way: processing a scope has an outcome, and each parent that is handed out
on the way is final if a module owns it, and else it is what the loader has. So none has an open
reference if no feature of the loader has one. And whatever is assembled is whole: made of its raw
feature, as the source gave it, and of such a parent, whose own parent is accounted for in the same
way. -/
theorem parents_accounted (b : Build) (hb : b.merger = .byPrototype) (s : Session) (t : List Event)
    (hs : b.Comes s t) (key : ModuleKey) (scope : Scope) :
    ∃ o, b.process s key scope = some o ∧
      (∀ scope' id f, (scope', id, f) ∈ handedOut o.events →
        if b.reactor.contains id.moduleKey then f.assembled = true else b.loader id = .ok f) ∧
      ((∀ id f, b.reactor.contains id.moduleKey = false → b.loader id = .ok f → f.Resolved) →
        ∀ scope' id f, (scope', id, f) ∈ handedOut o.events → f.Resolved) ∧
      ∀ n g, ((o.session.store n.module).assembled n.scope).get? n.location = some g →
        (b.asAnswered (t ++ o.events)).Whole n g := by
  obtain ⟨o, ho⟩ := exists_process hb s key scope
  have regular := regular_asAnswered hb (t ++ o.events)
  obtain ⟨answered, same⟩ := hs.process_asAnswered hb ho
  have honest := process_goesOn regular (honest_of_reached regular answered.reached) same
  have parent : ∀ {scope' id f}, (scope', id, f) ∈ handedOut o.events →
      (b.asAnswered (t ++ o.events)).Parent scope' id f := by
    intro scope' id f hm
    obtain ⟨event, he, picked⟩ := List.mem_filterMap.1 hm
    split at picked
    · cases picked
      exact honest.handed (List.mem_reverse.2 he)
    · cases picked
  refine ⟨o, ho, fun scope' id f hm => ?source, fun resolved scope' id f hm => ?resolved,
    fun n g hg => honest.whole hg⟩
  case source =>
    cases parent hm with
    | owned known owner visible named whole =>
      rw [if_pos (show b.reactor.contains id.moduleKey = true from known)]
      exact whole.finished regular.merger
    | foreign unknown loads =>
      rw [show b.reactor.contains id.moduleKey = false from unknown]
      exact loads
  case resolved =>
    cases parent hm with
    | owned known owner visible named whole => exact .inl (whole.finished regular.merger)
    | foreign unknown loads => exact resolved id f unknown loads

/-- In `siblings`, what is handed out for `a` while `lib` is processed is final. -/
theorem siblings_parents_accounted : ∃ o f,
    siblings.process (.start siblings.reactor) ⟨"g:lib"⟩ .main = some o ∧
      (.main, (Identity.of "g" "lib" "1").withType featureType, f) ∈ handedOut o.events ∧
      f.assembled = true := by
  obtain ⟨o, ho, source, -⟩ := parents_accounted siblings rfl (.start siblings.reactor) [] .start
    ⟨"g:lib"⟩ .main
  have run : (siblings.process (.start siblings.reactor) ⟨"g:lib"⟩ .main).map (fun o =>
      (handedOut o.events).any fun h => h.1 = .main ∧ h.2.1 = (Identity.of "g" "lib" "1").withType featureType) =
        some true := by
    decide +kernel
  rw [ho, Option.map_some, Option.some.injEq] at run
  obtain ⟨⟨scope, id, f⟩, hm, he⟩ := List.any_eq_true.1 run
  obtain ⟨rfl, rfl⟩ := of_decide_eq_true he
  exact ⟨o, f, ho, hm, source _ _ _ hm⟩

/-! ## A chain that goes on outside -/

/-- A build of one module with one feature, which refers to `base` outside. There `base` refers to
`platform`, and each of the two has a bundle. -/
def frontier : Build :=
  let app : Identity := (Identity.of "g" "app" "1").withType featureType
  let base : Identity := (Identity.of "org.other" "base" "1").withType featureType
  let platform : Identity := (Identity.of "org.other" "platform" "1").withType featureType
  { ofTable ⟨[.of "g" "app" "1"], by decide, by decide⟩ [(⟨"g:app"⟩, .main, "a.json", .after app base)] with
    loader := .ofTable (.ofList
      [(base, { Feature.after base platform with bundles := .ofList [.of (.of "org.other" "core" "1")] }),
        (platform, { Feature.of platform with bundles := .ofList [.of (.of "org.other" "runtime" "1")] })]) }

/-- **A chain is cut off outside**: the parent that is handed out for `a` refers to `platform`. All
goes well, nothing is reported, and what is made of `a` is final and has no bundle of `platform`. -/
theorem frontier_cuts_chain : ∃ o,
    frontier.process (.start frontier.reactor) ⟨"g:app"⟩ .main = some o ∧
      o.result.isOk = true ∧ o.session.diagnostics = [] ∧
      (∃ scope id f, (scope, id, f) ∈ handedOut o.events ∧ ¬ f.Resolved) ∧
      ∃ g, ((o.session.store ⟨"g:app"⟩).assembled .main).get? "a.json" = some g ∧
        g.assembled = true ∧ g.prototype = none ∧ g.bundles.ids = [.of "org.other" "core" "1"] := by
  have run : (frontier.process (.start frontier.reactor) ⟨"g:app"⟩ .main).map (fun o =>
      o.result.isOk && o.session.diagnostics.isEmpty &&
        (handedOut o.events).any (fun h => !decide h.2.2.Resolved) &&
        (((o.session.store ⟨"g:app"⟩).assembled .main).get? "a.json").any fun g =>
          g.assembled && g.prototype.isNone && decide (g.bundles.ids = [.of "org.other" "core" "1"])) =
        some true := by
    decide +kernel
  obtain ⟨o, ho, he⟩ := Option.map_eq_some_iff.1 run
  simp only [Bool.and_eq_true, List.isEmpty_iff, List.any_eq_true, Option.any_eq_true, Bool.not_eq_true',
    decide_eq_false_iff_not, Option.isNone_iff_eq_none, decide_eq_true_eq] at he
  obtain ⟨⟨⟨ok, quiet⟩, ⟨scope, id, f⟩, hm, unresolved⟩, g, hg, ⟨final, alone⟩, bundles⟩ := he
  exact ⟨o, ho, ok, quiet, ⟨scope, id, f, hm, unresolved⟩, g, hg, final, alone, bundles⟩

end Build

end FeatureAssembly
