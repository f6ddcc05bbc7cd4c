import FeatureAssembly.Command.Summary
import FeatureAssembly.Proofs.Completion
import FeatureAssembly.Proofs.Confluence

/-!
# Added dependencies

What a build of all modules adds to their dependencies, and what its summary tells of it.

**The law** (`Build.dependencies_augmented`): a module ends up with its declared dependencies and
behind them, each once, the artifacts and features that it uses and neither owns nor declares.

Dependencies are added whenever a scope is closed, and by then the module lists what was added for
the other one. The ledger says for whom and when (`Build.ledger`). What remains is a list that is
gone through in order (`Dependency.foldl_ensure`): main and test together come to one such list, so
nothing is added twice.

What it does not establish: that there is anything to be had under what is added. An artifact is
added as a feature names it.
-/

set_option autoImplicit false

namespace FeatureAssembly

/-! ## Lists of dependencies -/

namespace Dependency

variable {key : ModuleKey} {listed : List Dependency} {ids : List Identity} {id : Identity}

/-- **What a module lacks** of some identities, each once, in the order in which they first occur. -/
def lacking (key : ModuleKey) (listed : List Dependency) (ids : List Identity) : List Identity :=
  (ids.filter (isMissing key listed)).eraseDups

theorem isMissing_iff : isMissing key listed id = true ↔
    id.isOwnedBy key = false ∧ id ∉ listed.map Dependency.id := by
  simp [isMissing]

/-- An added dependency is missing no more, and the others are missing as before. -/
theorem isMissing_append (added : Identity) (word : String) :
    isMissing key (listed ++ [⟨added, word⟩]) id = (!id == added && isMissing key listed id) := by
  have listed_iff : id ∈ (listed ++ [Dependency.mk added word]).map Dependency.id ↔
      id ∈ listed.map Dependency.id ∨ id = added := by
    rw [List.map_append, List.mem_append, List.map_singleton, List.mem_singleton]
  have apart : (!id == added) = true ↔ id ≠ added := by simp
  rw [Bool.eq_iff_iff, Bool.and_eq_true, isMissing_iff, isMissing_iff, listed_iff, not_or, apart]
  tauto

/-- What a module lacks besides a dependency that is added. -/
theorem lacking_append (added : Identity) (word : String) (ids : List Identity) :
    lacking key (listed ++ [⟨added, word⟩]) ids =
      ((ids.filter (isMissing key listed)).filter fun id => !id == added).eraseDups := by
  unfold lacking
  rw [List.filter_filter]
  apply congrArg List.eraseDups
  apply List.filter_congr
  intro id _
  exact isMissing_append added word

/-- **Dependencies that are ensured in turn** come to those that were lacking, behind the others. -/
theorem foldl_ensure (key : ModuleKey) (word : String) (ids : List Identity) (listed : List Dependency) :
    ids.foldl (fun listed id => ensure key listed id word) listed =
      listed ++ (lacking key listed ids).map fun id => ⟨id, word⟩ := by
  induction ids generalizing listed with
  | nil => exact (List.append_nil listed).symm
  | cons id rest ih =>
    rw [List.foldl_cons, ih]
    unfold ensure
    by_cases missing : isMissing key listed id = true
    · have here : lacking key listed (id :: rest) =
          id :: lacking key (listed ++ [⟨id, word⟩]) rest := by
        rw [lacking_append, lacking, List.filter_cons_of_pos missing, List.eraseDups_cons]
      rw [if_pos missing, here, List.append_assoc]
      rfl
    · have here : lacking key listed (id :: rest) = lacking key listed rest := by
        rw [lacking, List.filter_cons_of_neg missing, lacking]
      rw [if_neg missing, here]

theorem mem_lacking : id ∈ lacking key listed ids ↔
    id ∈ ids ∧ id.isOwnedBy key = false ∧ id ∉ listed.map Dependency.id := by
  rw [lacking, List.mem_eraseDups, List.mem_filter, isMissing_iff]

theorem nodup_lacking : (lacking key listed ids).Nodup := Reactor.nodup_eraseDups _

end Dependency

/-- A feature refers to its bundles, and to what its extensions list. -/
theorem Feature.mem_referencedArtifacts {f : Feature} {id : Identity} : id ∈ f.referencedArtifacts ↔
    id ∈ f.bundles.ids ∨ ∃ name e list, f.extensions.get? name = some e ∧ e.content = .artifacts list ∧
      id ∈ list.ids := by
  have listed : ∀ e : Extension, id ∈ (e.artifacts?.map Artifacts.ids).getD [] ↔
      ∃ list, e.content = .artifacts list ∧ id ∈ list.ids := by
    intro e
    obtain ⟨state, content⟩ := e
    cases content <;> simp [Extension.artifacts?]
  rw [referencedArtifacts, List.mem_append, List.mem_flatMap]
  apply or_congr_right
  constructor
  · rintro ⟨e, he, hid⟩
    obtain ⟨name, found⟩ := SortedMap.exists_get?_of_mem_values he
    obtain ⟨list, content, hid⟩ := (listed e).1 hid
    exact ⟨name, e, list, found, content, hid⟩
  · rintro ⟨name, e, list, found, content, hid⟩
    exact ⟨e, SortedMap.mem_values_of_get? found, (listed e).2 ⟨list, content, hid⟩⟩

namespace Session

variable {s : Session}

/-- **A module uses an artifact or a feature**, in either scope: an assembled feature has it as a
bundle or lists it in an extension, or a raw one that was not final names it as its prototype. -/
inductive Uses (s : Session) (key : ModuleKey) : Identity → Prop where
  | bundle {scope location f id} : ((s.store key).assembled scope).get? location = some f →
      id ∈ f.bundles.ids → Uses s key id
  | listed {scope location f name e list id} : ((s.store key).assembled scope).get? location = some f →
      f.extensions.get? name = some e → e.content = .artifacts list → id ∈ list.ids → Uses s key id
  | prototype {scope location f p} : ((s.store key).raw scope).get? location = some f →
      f.assembled = false → f.prototype = some p → Uses s key p.id

/-- What stands behind the declared dependencies, and is none of them, is told. -/
theorem addedDependencies_eq {m : Module} {added : List Dependency}
    (h : s.dependenciesOf m.key = m.dependencies ++ added) (new : ∀ d ∈ added, d ∉ m.dependencies) :
    s.addedDependencies m = added.map Dependency.id := by
  have declared : m.dependencies.filter (fun d => !m.dependencies.contains d) = [] := by
    apply List.filter_eq_nil_iff.2
    intro d hd
    simp [hd]
  have rest : added.filter (fun d => !m.dependencies.contains d) = added := by
    apply List.filter_eq_self.2
    intro d hd
    simp [new d hd]
  rw [addedDependencies, h, List.filter_append, declared, rest, List.nil_append]

end Session

namespace Build

open Step

variable {b : Build} {s : Session} {m : Module} {key : ModuleKey} {scope : Scope} {id : Identity} {o : Outcome}

/-! ## What a module uses -/

/-- What a scope asks for are the prototypes of its raw features, as far as the module does not own them. -/
theorem Opened.asksFor_iff (h : b.Opened s key scope) : b.AsksFor key scope id ↔
    (∃ location f p, ((s.store key).raw scope).get? location = some f ∧ f.assembled = false ∧
      f.prototype = some p ∧ p.id = id) ∧ id.isOwnedBy key = false := by
  have raw : (s.store key).raw scope = b.prepared key scope := h.raw
  rw [raw]
  constructor
  · rintro ⟨location, request, other⟩
    obtain ⟨f, hf⟩ := request.prepared
    obtain ⟨unmarked, p, derived, named⟩ := (requests_iff_of_prepared hf).1 request
    exact ⟨⟨location, f, p, hf, unmarked, derived, named⟩, other⟩
  · rintro ⟨⟨location, f, p, hf, unmarked, derived, named⟩, other⟩
    have request : b.Requests ⟨key, scope, location⟩ id :=
      (requests_iff_of_prepared (n := ⟨key, scope, location⟩) hf).2 ⟨unmarked, p, derived, named⟩
    exact ⟨location, request, other⟩

theorem mem_mentioned : id ∈ b.mentioned s key scope ↔
    (∃ location f, ((s.store key).assembled scope).get? location = some f ∧ id ∈ f.referencedArtifacts) ∨
      (b.foreign key scope).contains id = true := by
  rw [mentioned, List.mem_append, List.mem_flatMap]
  apply or_congr
  · constructor
    · rintro ⟨f, hf, hid⟩
      obtain ⟨location, found⟩ := SortedMap.exists_get?_of_mem_values hf
      exact ⟨location, f, found, hid⟩
    · rintro ⟨location, f, found, hid⟩
      exact ⟨f, SortedMap.mem_values_of_get? found, hid⟩
  · exact SortedMap.mem_keys_iff

/-- **What both scopes of a module refer to is what it uses**, as far as it does not own it. -/
theorem exists_mem_mentioned_iff (opened : ∀ scope, b.Opened s key scope) (other : id.isOwnedBy key = false) :
    (∃ scope, id ∈ b.mentioned s key scope) ↔ s.Uses key id := by
  constructor
  · rintro ⟨scope, hid⟩
    rcases mem_mentioned.1 hid with ⟨location, f, found, hid⟩ | foreign
    · rcases Feature.mem_referencedArtifacts.1 hid with bundle | ⟨name, e, list, extension, content, hid⟩
      · exact .bundle found bundle
      · exact .listed found extension content hid
    · obtain ⟨scope', -, asks⟩ := contains_foreign.1 foreign
      obtain ⟨⟨location, f, p, found, unmarked, derived, rfl⟩, -⟩ := (opened scope').asksFor_iff.1 asks
      exact .prototype found unmarked derived
  · intro uses
    cases uses with
    | @bundle scope _ _ _ found bundle =>
      have refers := Feature.mem_referencedArtifacts.2 (.inl bundle)
      exact ⟨scope, mem_mentioned.2 (.inl ⟨_, _, found, refers⟩)⟩
    | @listed scope _ _ _ _ _ _ found extension content hid =>
      have refers := Feature.mem_referencedArtifacts.2 (.inr ⟨_, _, _, extension, content, hid⟩)
      exact ⟨scope, mem_mentioned.2 (.inl ⟨_, _, found, refers⟩)⟩
    | @prototype scope location f p found unmarked derived =>
      have asks := (opened scope).asksFor_iff.2 ⟨⟨location, f, p, found, unmarked, derived, rfl⟩, other⟩
      exact ⟨scope, mem_mentioned.2 (.inr (contains_foreign.2 ⟨scope, mem_visible_self scope, asks⟩))⟩

/-! ## Whole builds -/

/-- **The dependencies of a module that is processed** are what the ledger adds for main and test. -/
theorem Concluded.dependenciesOf_processed (h : b.Concluded o) (hm : m ∈ b.reactor.modules)
    (processed : ∀ scope, (o.session.state m.key scope).processed = true) :
    o.session.dependenciesOf m.key =
      Scope.all.foldl (fun listed scope => b.enlarged m.key (b.mentioned o.session m.key scope) listed)
        m.dependencies := by
  have closed : ∀ scope, (atRest o.session o.events.reverse).Closed m.key scope := by
    intro scope
    exact closed_atRest_iff.2 (processed scope)
  have listed : o.session.dependencies.get? m.key = b.ledger (atRest o.session o.events.reverse) m.key :=
    h.booked.dependencies m.key
  rw [Session.dependenciesOf, listed, ledger, Session.get?_dependencies_start hm]
  simp only [Scope.all, List.foldl_cons, List.foldl_nil, if_pos (closed _)]
  rfl

/-- Without augmentation they are the declared ones. -/
theorem Concluded.dependenciesOf_of_skip (h : b.Concluded o) (hm : m ∈ b.reactor.modules)
    (processed : ∀ scope, (o.session.state m.key scope).processed = true)
    (skip : b.config.skipDependencyAugmentation = true) : o.session.dependenciesOf m.key = m.dependencies := by
  rw [h.dependenciesOf_processed hm processed]
  simp only [enlarged, if_pos skip, Scope.all, List.foldl_cons, List.foldl_nil]

/-- With it, what main and test refer to and the module lacks comes behind them. -/
theorem Concluded.dependenciesOf_of_augment (h : b.Concluded o) (hm : m ∈ b.reactor.modules)
    (processed : ∀ scope, (o.session.state m.key scope).processed = true)
    (augment : b.config.skipDependencyAugmentation = false) : o.session.dependenciesOf m.key =
      m.dependencies ++ (Dependency.lacking m.key m.dependencies
        (Scope.all.flatMap (b.mentioned o.session m.key))).map fun id => ⟨id, b.config.dependencyScope⟩ := by
  rw [h.dependenciesOf_processed hm processed, ← Dependency.foldl_ensure, List.foldl_flatMap]
  simp only [enlarged, augment, Bool.false_eq_true, if_false]

/-- **Dependencies are augmented by what modules use**: a build of all modules from a fresh session
has an outcome; and if it goes well, the dependencies of each module are the declared ones where
augmentation is skipped, and otherwise the declared ones and behind them, each once and with the
configured scope, exactly the identities that the module uses and neither owns nor declares. Those
are what the summary tells, in this order. -/
theorem dependencies_augmented (b : Build) (hb : b.merger = .byPrototype) :
    ∃ o, b.processAll (.start b.reactor) = some o ∧ (o.result = .ok () → ∀ m ∈ b.reactor.modules,
      (b.config.skipDependencyAugmentation = true → o.session.dependenciesOf m.key = m.dependencies) ∧
      (b.config.skipDependencyAugmentation = false → ∃ added : List Identity,
        o.session.dependenciesOf m.key =
          m.dependencies ++ added.map (fun id => ⟨id, b.config.dependencyScope⟩) ∧
        added.Nodup ∧
        (∀ id, id ∈ added ↔
          o.session.Uses m.key id ∧ id.isOwnedBy m.key = false ∧ id ∉ m.dependencies.map Dependency.id) ∧
        (ModuleSummary.of o.session m).addedDependencies = added)) := by
  obtain ⟨o, ho⟩ := exists_processAll hb (.start b.reactor)
  refine ⟨o, ho, ?_⟩
  intro hok m hm
  obtain ⟨order, horder⟩ := exists_buildOrder ho hok
  rw [processAll_eq horder] at ho
  have regular := regular_asAnswered hb o.events
  have answered := processEach_asAnswered hb .start ho
  have concluded := processEach_concludes regular answered hok
  have marked := (processEach_steady regular (steady_start _ b.reactor) answered).2 hok
  have scheduled := b.reactor.mem_of_buildOrder horder m hm
  have processed : ∀ scope, (o.session.state m.key scope).processed = true := by
    intro scope
    exact marked (m.key, scope) (mem_schedule.2 scheduled)
  have opened : ∀ scope, (b.asAnswered o.events).Opened o.session m.key scope := by
    intro scope
    exact concluded.steady.opened (processed scope)
  constructor
  · exact concluded.dependenciesOf_of_skip hm processed
  · intro augment
    have listed := concluded.dependenciesOf_of_augment hm processed augment
    refine ⟨_, listed, Dependency.nodup_lacking, ?members, ?told⟩
    case members =>
      intro id
      rw [Dependency.mem_lacking, List.mem_flatMap]
      apply and_congr_left
      rintro ⟨other, -⟩
      rw [← exists_mem_mentioned_iff opened other]
      apply exists_congr
      intro scope
      exact and_iff_right scope.mem_all
    case told =>
      have new : ∀ id ∈ Dependency.lacking m.key m.dependencies
          (Scope.all.flatMap ((b.asAnswered o.events).mentioned o.session m.key)),
          (⟨id, b.config.dependencyScope⟩ : Dependency) ∉ m.dependencies := by
        intro id hid declared
        obtain ⟨-, -, undeclared⟩ := Dependency.mem_lacking.1 hid
        exact undeclared (List.mem_map_of_mem declared)
      refine (Session.addedDependencies_eq listed (List.forall_mem_map.2 new)).trans ?_
      rw [List.map_map]
      exact List.map_id _

/-- In `followers`, `app` uses `lib`, and that is told to be added to its dependencies. -/
theorem followers_dependencies_augmented :
    let lib : Identity := (Identity.of "g" "lib" "1").withType featureType
    ∃ o, followers.processAll (.start followers.reactor) = some o ∧ o.result = .ok () ∧
      o.session.Uses ⟨"g:app"⟩ lib ∧
      (ModuleSummary.of o.session (.of "g" "app" "1")).addedDependencies = [lib] := by
  intro lib
  obtain ⟨o, ho, augmented⟩ := dependencies_augmented followers rfl
  have run : (followers.processAll (.start followers.reactor)).map (fun o =>
      (o.result, o.session.dependenciesOf ⟨"g:app"⟩)) = some (.ok (), [⟨lib, "provided"⟩]) := by
    decide +kernel
  rw [ho, Option.map_some, Option.some.injEq] at run
  obtain ⟨hok, dependencies⟩ := Prod.mk.inj run
  have app : Module.of "g" "app" "1" ∈ followers.reactor.modules := List.mem_cons_self
  obtain ⟨added, listed, -, members, told⟩ := (augmented hok _ app).2 rfl
  obtain rfl : added = [lib] := by
    have same : added.map (fun id => (⟨id, "provided"⟩ : Dependency)) = [⟨lib, "provided"⟩] :=
      listed.symm.trans dependencies
    simpa [Function.comp_def] using congrArg (List.map Dependency.id) same
  exact ⟨o, ho, hok, ((members lib).1 List.mem_cons_self).1, told⟩

end Build

end FeatureAssembly
