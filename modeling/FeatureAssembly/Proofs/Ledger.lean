import FeatureAssembly.Proofs.Formation
import FeatureAssembly.Proofs.Nesting

/-!
# What modules refer to

The references and the dependencies of modules, as the source and the assembled features give them.

**The law** (`Build.processEach_concludes`): after scopes were processed with success, a module has
referred to exactly those features of others that the raw features of its processed scopes ask for;
and its dependencies are the declared ones, followed by what main and then test refer to and it
lacked, each as far as it is processed (`Build.ledger`).

What a scope refers to is written into the ledger when the scope is closed. Its assembled features
do not change any more then, and the module has not referred to anything that the scope does not
see, since main is closed before test is read.
-/

set_option autoImplicit false

namespace FeatureAssembly.Build

open Relation Step

variable {b : Build} {c c' : Stage} {s s' : Session} {key : ModuleKey} {scope : Scope} {id : Identity}

/-! ## What the source has modules refer to -/

/-- **A scope asks for a feature of another module.** -/
def AsksFor (b : Build) (key : ModuleKey) (scope : Scope) (id : Identity) : Prop :=
  ∃ location, b.Requests ⟨key, scope, location⟩ id ∧ id.isOwnedBy key = false

/-- What a raw feature asks for that a module does not own. -/
def asked? (key : ModuleKey) (f : Feature) : Option Identity :=
  if f.assembled then none
  else (f.prototype.map Prototype.id).filter fun id => !id.isOwnedBy key

/-- **All that a scope and what it sees ask for** of other modules. -/
def foreign (b : Build) (key : ModuleKey) (scope : Scope) : SortedSet Identity :=
  .addAll .empty (scope.visible.flatMap fun scope => (b.sourced key scope).values.filterMap (asked? key))

theorem asked?_eq_some_iff {f : Feature} : asked? key f = some id ↔
    f.assembled = false ∧ (∃ prototype, f.prototype = some prototype ∧ prototype.id = id) ∧
      id.isOwnedBy key = false := by
  unfold asked?
  cases f.assembled with
  | true => simp
  | false => simp [Option.filter_eq_some_iff, Option.map_eq_some_iff]

theorem contains_foreign : (b.foreign key scope).contains id = true ↔
    ∃ scope' ∈ scope.visible, b.AsksFor key scope' id := by
  have empty : SortedMap.contains (.empty : SortedSet Identity) id = false := rfl
  rw [foreign, SortedSet.contains_addAll, empty, Bool.or_false, decide_eq_true_eq, List.mem_flatMap]
  refine exists_congr fun scope' => and_congr_right fun _ => ?_
  rw [List.mem_filterMap]
  constructor
  · rintro ⟨f, hf, asked⟩
    obtain ⟨location, there⟩ := SortedMap.exists_get?_of_mem_values hf
    obtain ⟨unmarked, ⟨prototype, derived, named⟩, other⟩ := asked?_eq_some_iff.1 asked
    exact ⟨location, ⟨f, prototype, there, unmarked, derived, named⟩, other⟩
  · rintro ⟨location, ⟨f, prototype, there, unmarked, derived, named⟩, other⟩
    exact ⟨f, SortedMap.mem_values_of_get? there,
      asked?_eq_some_iff.2 ⟨unmarked, ⟨prototype, derived, named⟩, other⟩⟩

/-! ## References -/

/-- **References are those that features ask for**: of scopes that are read, and at least of
features that are assembled. -/
structure Referred (b : Build) (c : Stage) : Prop extends Nested c where
  asked : ∀ key id, (c.session.referencesOf key).contains id = true →
    ∃ scope, c.Read key scope ∧ b.AsksFor key scope id
  recorded : ∀ (n : Site) (id : Identity),
    (∃ g, (c.session.state n.module n.scope).assembled.get? n.location = some g) →
    b.Requests n id → id.isOwnedBy n.module = false →
    (c.session.referencesOf n.module).contains id = true

/-- A move that refers to nothing and assembles no raw feature. -/
theorem Referred.keep (h : b.Referred c) (ht : b.Turn c c')
    (references : c'.session.references = c.session.references)
    (entries : ∀ key scope location f, (b.prepared key scope).get? location = some f →
      (∃ g, (c'.session.state key scope).assembled.get? location = some g) →
      ∃ g, (c.session.state key scope).assembled.get? location = some g) : b.Referred c' := by
  have same : ∀ key, c'.session.referencesOf key = c.session.referencesOf key := fun key => by
    unfold Session.referencesOf
    rw [references]
  refine ⟨ht.nested h.toNested, fun key id hi => ?_, fun n id hn request other => ?_⟩
  · obtain ⟨scope, read, asks⟩ := h.asked key id (same key ▸ hi)
    exact ⟨scope, ht.read_mono read, asks⟩
  · obtain ⟨f, hf⟩ := request.prepared
    rw [same]
    exact h.recorded n id (entries _ _ _ f hf hn) request other

/-- A site that is ready and asks for something has its scope read. -/
theorem Nested.read_of_requests (h : Nested c) {n : Site} (ready : b.Ready n.module n.scope c.session)
    (request : b.Requests n id) : c.Read n.module n.scope := by
  have marked := ready.marked n.scope (mem_visible_self n.scope)
  refine ⟨marked, fun waiting => ?_⟩
  have empty := h.unread n.module n.scope fun read => read.2 waiting
  obtain ⟨f, hf⟩ := request.prepared
  rw [← (ready.sound.opened_of_marked (mem_visible_self n.scope) marked).raw, empty] at hf
  cases hf

/-- **References stay those that features ask for.** -/
theorem Move.referred (hm : b.Move c c') (h : b.Referred c) : b.Referred c' := by
  have turn := hm.turn
  have nested := turn.nested h.toNested
  have kept : c'.session.references = c.session.references →
      (∀ key scope, (c'.session.state key scope).assembled = (c.session.state key scope).assembled) →
      b.Referred c' := fun references assembled =>
    h.keep turn references fun key scope _ _ _ hg => assembled key scope ▸ hg
  cases hm with
  | mark => exact kept rfl fun key scope => Session.view_modifyStore _ ScopeState.assembled rfl key scope
  | read _ _ reads => exact kept reads.references reads.assembled
  | complete =>
    exact kept (b.references_augmented _ _ _) fun key scope =>
      congrArg _ (Session.state_eq_of_store_eq (b.store_augmented _ _ _) key scope)
  | begin | fetch | refuse | miss => exact kept rfl fun _ _ => rfl
  | @record s t a n f g ready prepared made referred =>
    refine ⟨nested, fun key id hi => ?_, fun n' id hn request other => ?_⟩
    · obtain ⟨scope, read, asks⟩ := h.asked key id hi
      exact ⟨scope, turn.read_mono read, asks⟩
    · obtain ⟨g', hg⟩ := hn
      rcases s.assembled_recordAssembled _ _ _ _ hg with old | ⟨module, scope, location, -⟩
      · exact h.recorded n' id ⟨g', old⟩ request other
      · obtain rfl : n' = n := by
          cases n
          cases n'
          cases module
          cases scope
          cases location
          rfl
        exact referred id request other
  | @aggregate s t a m d ready known declared raw fresh =>
    refine h.keep turn rfl fun key scope location f hf hg => ?_
    obtain ⟨g, hg⟩ := hg
    rcases s.assembled_recordAssembled _ _ _ _ hg with old | ⟨rfl, rfl, rfl, -⟩
    · exact ⟨g, old⟩
    · exact raw _ f hf
  | @supply s t a n id f ready request supplied =>
    refine ⟨nested, fun key id' hi => ?_, fun n' id' hn request' other => ?_⟩
    · rcases contains_withReference_iff.1 hi with old | ⟨rfl, rfl, other⟩
      · obtain ⟨scope, read, asks⟩ := h.asked key id' old
        exact ⟨scope, turn.read_mono read, asks⟩
      · have read := h.toNested.read_of_requests ready request
        exact ⟨n.scope, turn.read_mono read, n.location, request, other⟩
    · rw [Session.state_eq_of_store_eq (store_withReference _ _ _)] at hn
      exact contains_withReference_iff.2 (.inl (h.recorded n' id' hn request' other))

/-! ## Dependencies -/

/-- The dependencies of a module with those that it lacks, where they are wanted. -/
def enlarged (b : Build) (key : ModuleKey) (ids : List Identity) (listed : List Dependency) :
    List Dependency :=
  if b.config.skipDependencyAugmentation then listed
  else ids.foldl (fun listed id => Dependency.ensure key listed id b.config.dependencyScope) listed

theorem get?_foldl_ensureDependency (owner key : ModuleKey) (word : String) (ids : List Identity) :
    ∀ s : Session, (ids.foldl (fun s id => s.ensureDependency owner id word) s).dependencies.get? key =
      if key = owner then (s.dependencies.get? owner).map fun listed =>
        ids.foldl (fun listed id => Dependency.ensure owner listed id word) listed
      else s.dependencies.get? key := by
  induction ids with
  | nil =>
    intro s
    split
    · next hk => rw [hk]; exact Option.map_id'.symm
    · rfl
  | cons id rest ih =>
    intro s
    rw [List.foldl_cons, ih, s.get?_ensureDependency, s.get?_ensureDependency, if_pos rfl, Option.map_map]
    split <;> rfl

/-- What a scope refers to is added to the dependencies of its module. -/
theorem get?_augmented (owner : ModuleKey) (scope : Scope) (s : Session) (key : ModuleKey) :
    (b.augmented owner scope s).dependencies.get? key =
      if key = owner then (s.dependencies.get? owner).map (b.enlarged owner (referenced s owner scope))
      else s.dependencies.get? key := by
  cases hs : b.config.skipDependencyAugmentation with
  | true =>
    have kept : b.enlarged owner (referenced s owner scope) = fun listed => listed := by
      funext listed
      rw [enlarged, if_pos hs]
    rw [augmented, if_pos hs, kept, Option.map_id']
    split
    · next hk => rw [hk]
    · rfl
  | false =>
    have folded : b.enlarged owner (referenced s owner scope) = fun listed =>
        (referenced s owner scope).foldl
          (fun listed id => Dependency.ensure owner listed id b.config.dependencyScope) listed := by
      funext listed
      rw [enlarged, hs]
      rfl
    rw [augmented, hs, folded]
    exact get?_foldl_ensureDependency owner key _ _ s

/-- All that a scope refers to, whenever it is processed: the artifacts of its assembled features,
and what it and what it sees ask for of other modules. -/
def mentioned (b : Build) (s : Session) (key : ModuleKey) (scope : Scope) : List Identity :=
  ((s.store key).assembled scope).values.flatMap Feature.referencedArtifacts ++ (b.foreign key scope).keys

/-- **The ledger**: the declared dependencies of a module, and behind them what its closed scopes
refer to and it lacks, main first. -/
def ledger (b : Build) (c : Stage) (key : ModuleKey) : Option (List Dependency) :=
  ((Session.start b.reactor).dependencies.get? key).map fun declared =>
    Scope.all.foldl (fun listed scope =>
      if c.Closed key scope then b.enlarged key (b.mentioned c.session key scope) listed else listed) declared

/-- The ledger depends on the assembled features of closed scopes only. -/
theorem ledger_congr (closed : ∀ scope, c'.Closed key scope ↔ c.Closed key scope)
    (assembled : ∀ scope, c.Closed key scope →
      (c'.session.state key scope).assembled = (c.session.state key scope).assembled) :
    b.ledger c' key = b.ledger c key := by
  have same : ∀ scope, c.Closed key scope →
      b.mentioned c'.session key scope = b.mentioned c.session key scope := fun scope hc => by
    have assembled : (c'.session.store key).assembled scope = (c.session.store key).assembled scope :=
      assembled scope hc
    rw [mentioned, mentioned, assembled]
  unfold ledger
  refine congrArg (Option.map · _) (funext fun declared => ?_)
  refine List.foldl_ext _ _ _ fun listed scope _ => ?_
  by_cases hc : c.Closed key scope
  · rw [if_pos hc, if_pos ((closed scope).2 hc), same scope hc]
  · rw [if_neg hc, if_neg (mt (closed scope).1 hc)]

/-- What is complete does not change any more. -/
theorem Completed.assembled_eq (h : b.Completed s key scope) (retains : s.Retains s')
    (formed : b.Formed s') : (s'.state key scope).assembled = (s.state key scope).assembled := by
  refine SortedMap.ext_get? fun location => ?_
  cases hg : (s'.state key scope).assembled.get? location with
  | some g =>
    obtain ⟨id, bears⟩ := (formed key scope location g hg).bears
    obtain ⟨g₀, h₀⟩ := h location id bears
    rw [h₀, ← hg, retains key scope location g₀ h₀]
  | none =>
    cases h₀ : (s.state key scope).assembled.get? location with
    | none => rfl
    | some g₀ => exact nomatch hg.symm.trans (retains key scope location g₀ h₀)

/-- **A stage is booked**: references are those that features ask for, closed scopes are complete,
and dependencies are those of the ledger. -/
structure Booked (b : Build) (c : Stage) : Prop extends Referred b c where
  formed : b.Formed c.session
  complete : ∀ key scope, c.Closed key scope → b.Completed c.session key scope
  dependencies : ∀ key, c.session.dependencies.get? key = b.ledger c key

/-- **When a scope is finished**, its module has referred to what the scope sees asked for. -/
theorem Booked.referencesOf_eq (h : b.Booked c) {a : Agenda} (agenda : c.agenda = a.workOn key scope)
    (ready : b.Ready key scope c.session) (complete : b.Completed c.session key scope) :
    c.session.referencesOf key = b.foreign key scope := by
  have unfinished : (key, scope) ∈ c.agenda.unfinished := by
    rw [agenda, (a.unfinished_workOn key scope).mem_iff]
    exact List.mem_cons_self
  have read := h.read_of_work agenda
  -- Of what a scope sees, only main can be another scope, and that is closed.
  have seen : ∀ scope' ∈ scope.visible, b.Completed c.session key scope' := by
    intro scope' hv
    by_cases hs : scope' = scope
    · exact hs ▸ complete
    · obtain ⟨rfl, rfl⟩ := main_of_mem_visible hv hs
      exact h.complete key .main (h.main_closed key read)
  refine SortedSet.ext_contains fun id => Bool.eq_iff_iff.2 ?_
  rw [contains_foreign]
  constructor
  · intro hi
    obtain ⟨scope', read', asks⟩ := h.asked key id hi
    refine ⟨scope', ?_, asks⟩
    cases scope' with
    | main => exact main_mem_visible scope
    | test =>
      cases scope with
      | test => exact mem_visible_self _
      | main => exact absurd unfinished (h.main_closed key read').2
  · rintro ⟨scope', hv, location, request, other⟩
    obtain ⟨f, hf⟩ := request.prepared
    exact h.recorded ⟨key, scope', location⟩ id (seen scope' hv location f.id (.raw hf rfl)) request other

/-- **A scope that is closed is written into the ledger**, test behind main. -/
theorem Booked.ledger_close (h : b.Booked c) {a : Agenda} (agenda : c.agenda = a.workOn key scope)
    (stores : ∀ key, c'.session.store key = c.session.store key)
    (closed : ∀ scope', c'.Closed key scope' ↔ (key, scope') = (key, scope) ∨ c.Closed key scope') :
    b.ledger c' key = (b.ledger c key).map (b.enlarged key (b.mentioned c.session key scope)) := by
  have same : ∀ scope, b.mentioned c'.session key scope = b.mentioned c.session key scope := fun scope => by
    rw [mentioned, mentioned, stores]
  have unfinished : ¬ c.Closed key scope := fun hc => hc.2 <| by
    rw [agenda, (a.unfinished_workOn key scope).mem_iff]
    exact List.mem_cons_self
  have here : c'.Closed key scope := (closed scope).2 (.inl rfl)
  unfold ledger
  rw [Option.map_map]
  refine congrArg (Option.map · _) (funext fun declared => ?_)
  simp only [Function.comp_apply, Scope.all, List.foldl_cons, List.foldl_nil, same]
  cases scope with
  | main =>
    have before : ¬ c.Closed key .test := fun hc => unfinished (h.main_closed key hc.read)
    have after : ¬ c'.Closed key .test := fun hc => before (((closed .test).1 hc).resolve_left (by simp))
    rw [if_pos here, if_neg after, if_neg unfinished, if_neg before]
  | test =>
    have before : c.Closed key .main := h.main_closed key (h.read_of_work agenda)
    have after : c'.Closed key .main := (closed .main).2 (.inr before)
    rw [if_pos here, if_pos after, if_neg unfinished, if_pos before]

/-- **A stage stays booked.** -/
theorem Move.booked (hm : b.Move c c') (h : b.Booked c) : b.Booked c' := by
  have formed := hm.formed h.formed
  have retains := hm.retains
  have settled : ∀ key scope, c.Closed key scope →
      (c'.session.state key scope).assembled = (c.session.state key scope).assembled :=
    fun key scope hc => (h.complete key scope hc).assembled_eq retains formed
  rcases hm.turn.closing h.toNested with
    ⟨same, closed⟩ | ⟨owner, scope, ready, complete, session, agenda, closed⟩
  · refine ⟨hm.referred h.toReferred, formed, fun key scope hc => ?_, fun key => ?_⟩
    · exact (h.complete key scope ((closed key scope).1 hc)).mono retains
    · rw [same, h.dependencies, ledger_congr (closed key) (settled key)]
  · refine ⟨hm.referred h.toReferred, formed, fun key' scope' hc => ?_, fun key => ?_⟩
    · rcases (closed key' scope').1 hc with heq | hc
      · cases heq
        exact complete.mono retains
      · exact (h.complete key' scope' hc).mono retains
    · rw [session, get?_augmented]
      split
      · next hk =>
        subst hk
        have stores : ∀ key, c'.session.store key = c.session.store key := fun key => by
          rw [session, store_augmented]
        rw [h.ledger_close agenda stores (closed key), h.dependencies, referenced,
          h.referencesOf_eq agenda ready complete]
        rfl
      · next hk =>
        have other : ∀ scope', c'.Closed key scope' ↔ c.Closed key scope' := fun scope' =>
          (closed key scope').trans (or_iff_right fun heq => hk (congrArg Prod.fst heq))
        rw [h.dependencies, ledger_congr other (settled key)]

/-! ## Whole builds -/

theorem booked_start (b : Build) : b.Booked (atRest (.start b.reactor) []) where
  toNested := nested_start b.reactor
  asked _ _ hi := nomatch hi
  recorded n id hn := by
    obtain ⟨g, hg⟩ := hn
    have hg : ((Session.start b.reactor).state n.module n.scope).assembled.get? n.location = some g := hg
    rw [state_start] at hg
    cases hg
  formed := b.formed_start b.reactor
  complete key scope hc := absurd hc.read (not_read_start b.reactor key scope)
  dependencies key := by
    have none_closed : ∀ scope, ¬ (atRest (.start b.reactor) []).Closed key scope := fun scope hc =>
      not_read_start b.reactor key scope hc.read
    have declared : b.ledger (atRest (.start b.reactor) []) key =
        ((Session.start b.reactor).dependencies.get? key).map fun declared => declared := by
      refine congrArg (Option.map · _) (funext fun declared => ?_)
      simp only [Scope.all, List.foldl_cons, List.foldl_nil, if_neg (none_closed _)]
    rw [declared, Option.map_id']
    rfl

/-- At rest, what is marked is closed. -/
theorem closed_atRest_iff {t : List Event} :
    (atRest s t).Closed key scope ↔ (s.state key scope).processed = true :=
  and_iff_left (nomatch ·)

/-- **At rest, a module has referred** to exactly what its processed scopes ask for. -/
theorem Booked.contains_referencesOf_iff {t : List Event} (h : b.Booked (atRest s t)) :
    (s.referencesOf key).contains id = true ↔
      ∃ scope, (s.state key scope).processed = true ∧ b.AsksFor key scope id := by
  constructor
  · intro hi
    obtain ⟨scope, read, asks⟩ := h.asked key id hi
    exact ⟨scope, read.1, asks⟩
  · rintro ⟨scope, marked, location, request, other⟩
    obtain ⟨f, hf⟩ := request.prepared
    have complete := h.complete key scope (closed_atRest_iff.2 marked)
    exact h.recorded ⟨key, scope, location⟩ id (complete location f.id (.raw hf rfl)) request other

/-- **What a build that succeeds comes to**: all that it processed is complete, and it is booked. -/
structure Concluded (b : Build) (o : Outcome) : Prop where
  steady : b.Steady o.session
  booked : b.Booked (atRest o.session o.events.reverse)

/-- **A build that succeeds is concluded**: a module has referred to what its processed scopes ask
for of others, and its dependencies are those of the ledger. -/
theorem processEach_concludes (hb : b.Regular) {targets : List (ModuleKey × Scope)}
    {o : Outcome} (ho : b.processEach (.start b.reactor) targets = some o) (hok : o.result = .ok ()) :
    b.Concluded o := by
  have start := b.steady_start b.reactor
  have step : ∀ c c', b.Move c c' → b.Booked c → b.Booked c' := fun _ _ hm => hm.booked
  have path := (processEach_follows hb start ho []).path hok
  rw [List.append_nil] at path
  exact ⟨((processEach_steady hb start ho).1.2 hok).1, Path.keeps step path b.booked_start⟩

end FeatureAssembly.Build
