import FeatureAssembly.Proofs.Completion
import FeatureAssembly.Proofs.Parentage
import FeatureAssembly.Proofs.WithinModule
import FeatureAssembly.Proofs.WorkDone

/-!
# Builds with declared dependencies

A module may refer to features of a module that it does not depend on, and then that one is
processed in the middle of a merge. Where dependencies are declared there is no need for it.

**The law** (`Build.declared_dependencies_suffice`): if each module reaches, along declared
dependencies, the modules that its raw features refer to, then a build of all modules reads their
scopes one after the other in build order, and no scope is opened and no feature of another module is
assembled in the middle of a merge.

What a module reaches stands before it in the build order (`Reactor.mem_before_of_reaches`), and a
scope that was processed without a failure is complete. So all is served when a scope has its turn,
and the rest is `Build.process_conducts`, scope by scope.

What it does not establish: that the build goes well.
-/

set_option autoImplicit false

namespace FeatureAssembly.Build

open Relation Step

variable {b : Build} {s : Session} {key : ModuleKey} {scope : Scope}

/-! ## What is under way -/

/-- **A merge is under way**, by what was done so far: it has begun, and it is not over. -/
def UnderWay (n : Site) (events : List Event) : Prop :=
  (∃ base, .merging n.module n.scope n.location base ∈ events) ∧
    .merged n.module n.scope n.location ∉ events

/-- **No merge leads elsewhere**: while one is under way no scope is opened, and merged are only
features of its module. -/
structure Unnested (events : List Event) : Prop where
  opened : ∀ before key scope after, events = before ++ .opened key scope :: after →
    ∀ n, ¬ UnderWay n before
  merging : ∀ before key scope location base after,
    events = before ++ .merging key scope location base :: after → ∀ n, UnderWay n before → n.module = key

theorem unnested_nil : Unnested [] := by
  constructor
  · intro before key scope after h
    cases before <;> cases h
  · intro before key scope location base after h
    cases before <;> cases h

/-- An element of two lists is in the first or behind it. -/
theorem split_append {α : Type} {first second before after : List α} {a : α}
    (h : first ++ second = before ++ a :: after) :
    (∃ rest, first = before ++ a :: rest) ∨
      ∃ rest, before = first ++ rest ∧ second = rest ++ a :: after := by
  rcases List.append_eq_append_iff.1 h with ⟨rest, hb, hs⟩ | ⟨rest, hf, hs⟩
  · exact .inr ⟨rest, hb, hs⟩
  · cases rest with
    | nil =>
      rw [List.append_nil] at hf
      exact .inr ⟨[], by rw [hf, List.append_nil], hs.symm⟩
    | cons c rest =>
      obtain ⟨rfl, -⟩ := List.cons.inj hs
      exact .inl ⟨rest, hf⟩

/-- What is under way behind things that are over has begun behind them. -/
theorem UnderWay.behind {n : Site} {first rest : List Event} (h : UnderWay n (first ++ rest))
    (ended : ¬ UnderWay n first) : UnderWay n rest := by
  obtain ⟨⟨base, begun⟩, going⟩ := h
  rw [List.mem_append, not_or] at going
  rcases List.mem_append.1 begun with begun | begun
  · exact absurd ⟨⟨base, begun⟩, going.1⟩ ended
  · exact ⟨⟨base, begun⟩, going.2⟩

theorem Unnested.append {first second : List Event} (h : Unnested first) (ended : ∀ n, ¬ UnderWay n first)
    (h' : Unnested second) : Unnested (first ++ second) := by
  constructor
  · intro before key scope after he n way
    rcases split_append he with ⟨rest, here⟩ | ⟨rest, rfl, there⟩
    · exact h.opened _ _ _ _ here n way
    · exact h'.opened _ _ _ _ there n (way.behind (ended n))
  · intro before key scope location base after he n way
    rcases split_append he with ⟨rest, here⟩ | ⟨rest, rfl, there⟩
    · exact h.merging _ _ _ _ _ _ here n way
    · exact h'.merging _ _ _ _ _ _ there n (way.behind (ended n))

namespace Conducts

variable {r : Except AssemblyError Unit} {events : List Event}

/-- Only features of the module are merged. -/
theorem module_eq (h : Conducts key scope r events) {module : ModuleKey} {scope' : Scope} {location : String}
    {base : Identity} (hm : .merging module scope' location base ∈ events) : module = key := by
  cases h with
  | refused early => simpa using early.subset hm
  | read within =>
    rcases List.mem_cons.1 hm with he | hm
    · cases he
    · rcases List.mem_cons.1 hm with he | hm
      · cases he
      · exact within _ hm

/-- Nothing is opened but the scope, and that comes first. -/
theorem opened_first (h : Conducts key scope r events) {before after : List Event} {key' : ModuleKey}
    {scope' : Scope} (he : events = before ++ .opened key' scope' :: after) :
    before = [] ∧ key' = key ∧ scope' = scope := by
  cases h with
  | refused early =>
    obtain ⟨rest, whole⟩ := early
    rw [he, List.append_assoc] at whole
    cases before with
    | nil =>
      cases (List.cons.inj whole).1
      exact ⟨rfl, rfl, rfl⟩
    | cons first before =>
      have none := (List.cons.inj whole).2
      cases before <;> cases none
  | read within =>
    cases before with
    | nil =>
      cases he
      exact ⟨rfl, rfl, rfl⟩
    | cons first before =>
      have later := (List.cons.inj he).2
      cases before with
      | nil => cases later
      | cons second before =>
        obtain rfl := (List.cons.inj later).2
        have never : Within key (.opened key' scope') :=
          within _ (List.mem_append_right before List.mem_cons_self)
        exact False.elim never

theorem unnested (h : Conducts key scope r events) : Unnested events := by
  constructor
  · -- Nothing has begun before the scope is opened.
    intro before key' scope' after he n way
    obtain ⟨⟨base, begun⟩, -⟩ := way
    obtain ⟨rfl, -⟩ := h.opened_first he
    cases begun
  · intro before key' scope' location base after he n way
    obtain ⟨⟨base', begun⟩, -⟩ := way
    have here : n.module = key := h.module_eq (he ▸ List.mem_append_left _ begun)
    have there : key' = key := h.module_eq (he ▸ List.mem_append_right _ List.mem_cons_self)
    exact here.trans there.symm

theorem eq_of_opened_mem (h : Conducts key scope r events) {key' : ModuleKey} {scope' : Scope}
    (hm : .opened key' scope' ∈ events) : (key', scope') = (key, scope) := by
  obtain ⟨before, after, he⟩ := List.append_of_mem hm
  obtain ⟨-, rfl, rfl⟩ := h.opened_first he
  rfl

theorem loads_of_within {rest : List Event} (h : ∀ e ∈ rest, Within key e) : loads rest = [] := by
  refine List.filterMap_eq_nil_iff.2 fun e he => ?_
  have within := h e he
  cases e with
  | loaded => exact within.elim
  | opened | fetched | merging | merged | remarked | answered | missing | aggregated => rfl

/-- The source is asked for the scope and for nothing else, if nothing goes wrong before. -/
theorem loads_eq (h : Conducts key scope r events) :
    loads events = [(key, scope)] ∨ loads events = [] ∧ r ≠ .ok () := by
  cases h with
  | refused early =>
    refine .inr ⟨List.filterMap_eq_nil_iff.2 fun e he => ?_, nofun⟩
    rw [List.mem_singleton.1 (early.subset he)]
  | @read _ _ rest within =>
    have nothing : loads rest = [] := loads_of_within within
    exact .inl (congrArg ((key, scope) :: ·) nothing)

end Conducts

/-! ## The account of a build -/

/-- **The trace accounts for a stage**: what was not marked at first was opened, and merges that have
begun are over or in the agenda. -/
structure Accounted (s : Session) (c : Stage) : Prop where
  marked : ∀ key scope, (c.session.state key scope).processed = true →
    (s.state key scope).processed = true ∨ .opened key scope ∈ c.trace
  merging : ∀ n base, .merging n.module n.scope n.location base ∈ c.trace →
    .merged n.module n.scope n.location ∈ c.trace ∨ n ∈ c.agenda.sites

/-- Any event but the beginning of a merge. -/
def BeginsNothing : Event → Prop
  | .merging .. => False
  | _ => True

/-- A change that marks nothing and begins no merge. -/
theorem Accounted.note {c c' : Stage} (h : Accounted s c) {e : Event} (trace : c'.trace = e :: c.trace)
    (he : BeginsNothing e) (sites : c'.agenda.sites = c.agenda.sites)
    (marks : ∀ key scope, (c'.session.state key scope).processed = (c.session.state key scope).processed) :
    Accounted s c' := by
  constructor
  · intro key scope hp
    rw [marks] at hp
    rw [trace]
    exact (h.marked key scope hp).imp_right (List.mem_cons_of_mem _)
  · intro n base hm
    rw [trace] at hm ⊢
    rw [sites]
    rcases List.mem_cons.1 hm with rfl | hm
    · cases he
    · exact (h.merging n base hm).imp_left (List.mem_cons_of_mem _)

theorem Move.accounted {c c' : Stage} (hm : b.Move c c') (h : Accounted s c) : Accounted s c' := by
  cases hm with
  | @mark s' t a key scope known unmarked apart =>
    have noted : Accounted s ⟨s', .opened key scope :: t, a⟩ := h.note rfl trivial rfl fun _ _ => rfl
    refine ⟨fun key' scope' hp => ?_, noted.merging⟩
    rcases (s'.processed_markProcessed key key' scope scope').1 hp with he | hp
    · cases he
      exact .inr List.mem_cons_self
    · exact noted.marked key' scope' hp
  | read seen apart reads => exact h.note rfl trivial rfl fun key scope => reads.processed key scope
  | begin =>
    constructor
    · intro key scope hp
      exact (h.marked key scope hp).imp_right (List.mem_cons_of_mem _)
    · intro n base hm
      rcases List.mem_cons.1 hm with he | hm
      · obtain ⟨module, scope, location⟩ := n
        cases he
        exact .inr List.mem_cons_self
      · exact (h.merging n base hm).imp (List.mem_cons_of_mem _) (List.mem_cons_of_mem _)
  | @record s' t a n f g =>
    have noted : Accounted s ⟨s', .merged n.module n.scope n.location :: t, a.mergeAt n⟩ :=
      h.note rfl trivial rfl fun _ _ => rfl
    constructor
    · intro key scope hp
      have same := s'.processed_recordAssembled n.module key n.scope scope n.location g
      exact noted.marked key scope (same.symm.trans hp)
    · intro n' base hm
      rcases noted.merging n' base hm with ended | waits
      · exact .inl ended
      · rcases List.mem_cons.1 waits with rfl | waits
        · exact .inl List.mem_cons_self
        · exact .inr waits
  | aggregate =>
    exact h.note rfl trivial rfl fun key scope => Session.processed_recordAssembled _ _ key _ scope _ _
  | @complete s' t a key scope =>
    have same := Session.state_eq_of_store_eq (b.store_augmented key scope s')
    refine ⟨fun key' scope' hp => h.marked key' scope' ?_, h.merging⟩
    rwa [same] at hp
  | fetch => exact h.note rfl trivial rfl fun _ _ => rfl
  | @supply s' t a n id =>
    have same := Session.state_eq_of_store_eq (store_withReference n.module id s')
    exact h.note rfl trivial rfl fun key scope => congrArg ScopeState.processed (same key scope)
  | refuse => exact h.note rfl trivial rfl fun _ _ => rfl
  | @miss s' t a n id =>
    have missed : Accounted s ⟨s', .missing n.module n.scope id :: t, a⟩ :=
      h.note rfl trivial rfl fun _ _ => rfl
    exact missed.note rfl trivial rfl fun _ _ => rfl

/-- **A build that goes well** is accounted for by its events. -/
theorem Takes.accounted {o : Outcome} (h : b.Takes s [] o) (hok : o.result = .ok ()) :
    (∀ key scope, (o.session.state key scope).processed = true →
      (s.state key scope).processed = true ∨ .opened key scope ∈ o.events) ∧
      ∀ n, ¬ UnderWay n o.events := by
  have step : ∀ c c', b.Move c c' → Accounted s c → Accounted s c' := fun _ _ hm => hm.accounted
  have start : Accounted s (atRest s []) := ⟨fun _ _ hp => .inl hp, fun n base hm => by cases hm⟩
  have accounted := Path.keeps step (h.path hok) start
  rw [List.append_nil] at accounted
  refine ⟨fun key scope hp => (accounted.marked key scope hp).imp_right List.mem_reverse.1, fun n way => ?_⟩
  obtain ⟨⟨base, begun⟩, going⟩ := way
  rcases accounted.merging n base (List.mem_reverse.2 begun) with ended | waits
  · exact going (List.mem_reverse.1 ended)
  · cases waits

/-! ## The order of scopes -/

/-- **A scope has its place** behind some others: it is not among them, but both scopes of all that
its module reaches are, and main is if it is test. -/
structure Placed (b : Build) (before : List (ModuleKey × Scope)) (key : ModuleKey) (scope : Scope) : Prop where
  known : b.reactor.contains key = true
  fresh : (key, scope) ∉ before
  reached : ∀ other, b.reactor.Reaches key other → ∀ scope', (other, scope') ∈ before
  behind : scope = .test → (key, .main) ∈ before

/-- **Scopes in order**: each has its place behind those before it. -/
def InOrder (b : Build) (targets : List (ModuleKey × Scope)) : Prop :=
  ∀ before key scope after, targets = before ++ (key, scope) :: after → b.Placed before key scope

/-- A scope in a schedule stands behind the modules before its own, and behind main if it is test. -/
theorem schedule_split {order : List ModuleKey} : ∀ {before after : List (ModuleKey × Scope)},
    schedule order = before ++ (key, scope) :: after → ∃ earlier later, order = earlier ++ key :: later ∧
      (scope = .main ∧ before = schedule earlier ∨
        scope = .test ∧ before = schedule earlier ++ [(key, .main)]) := by
  induction order with
  | nil =>
    intro before after h
    cases before <;> cases h
  | cons first order ih =>
    intro before after h
    rw [schedule_cons] at h
    cases before with
    | nil =>
      cases (List.cons.inj h).1
      exact ⟨[], order, rfl, .inl ⟨rfl, rfl⟩⟩
    | cons main before =>
      obtain ⟨rfl, behind⟩ := List.cons.inj h
      cases before with
      | nil =>
        cases (List.cons.inj behind).1
        exact ⟨[], order, rfl, .inr ⟨rfl, rfl⟩⟩
      | cons test before =>
        obtain ⟨rfl, beyond⟩ := List.cons.inj behind
        obtain ⟨earlier, later, rfl, place⟩ := ih beyond
        refine ⟨first :: earlier, later, rfl, ?_⟩
        rcases place with ⟨rfl, rfl⟩ | ⟨rfl, rfl⟩
        · exact .inl ⟨rfl, rfl⟩
        · exact .inr ⟨rfl, rfl⟩

/-- **The schedule of a build order is in order.** -/
theorem inOrder_schedule {order : List ModuleKey} (h : b.reactor.buildOrder = .ok order) :
    b.InOrder (schedule order) := by
  intro before key scope after split
  obtain ⟨earlier, later, rfl, place⟩ := schedule_split split
  have known := b.reactor.contains_of_mem_buildOrder h (List.mem_append_right earlier List.mem_cons_self)
  have single : key ∉ earlier := fun twice =>
    (List.nodup_append.1 (b.reactor.nodup_of_buildOrder h)).2.2 key twice key List.mem_cons_self rfl
  have reached : ∀ other, b.reactor.Reaches key other → ∀ scope', (other, scope') ∈ schedule earlier :=
    fun other reaches scope' => mem_schedule.2 (Reactor.mem_before_of_reaches h rfl reaches)
  have unlisted : ∀ scope', (key, scope') ∉ schedule earlier := fun _ hm => single (mem_schedule.1 hm)
  rcases place with ⟨rfl, rfl⟩ | ⟨rfl, rfl⟩
  · exact ⟨known, unlisted .main, reached, fun he => by cases he⟩
  · have fresh : (key, .test) ∉ schedule earlier ++ [(key, .main)] := by
      simp [unlisted .test]
    exact ⟨known, fresh, fun other reaches scope' => List.mem_append_left _ (reached other reaches scope'),
      fun _ => List.mem_append_right _ (List.mem_singleton_self _)⟩

/-! ## The run -/

/-- **The scopes are read in turn**, up to where the build ends, and no merge leads elsewhere. -/
structure InTurn (targets : List (ModuleKey × Scope)) (o : Outcome) : Prop where
  prefix_loads : loads o.events <+: targets
  loads_eq : o.result = .ok () → loads o.events = targets
  unnested : Unnested o.events

/-- **A scope that has its place has its turn**, when just those before it are marked. -/
theorem Steady.due (hs : b.Steady s) {before : List (ModuleKey × Scope)} (placed : b.Placed before key scope)
    (marked : ∀ key scope, (s.state key scope).processed = true ↔ (key, scope) ∈ before) :
    b.Due s key scope where
  known := placed.known
  fresh := by
    rw [← Bool.not_eq_true, marked]
    exact placed.fresh
  served other reaches scope' := by
    have there := (marked other scope').2 (placed.reached other reaches scope')
    exact ⟨there, fun location f hf => hs.complete other scope' there location f.id (.raw hf rfl)⟩
  behind he := (marked key .main).2 (placed.behind he)

/-- **One more scope is marked**, where processing it goes well. -/
theorem Conducts.marked_iff (hb : b.Regular) (hs : b.Steady s) {o : Outcome}
    (ho : b.process s key scope = some o) (hok : o.result = .ok ())
    (conducts : Conducts key scope o.result o.events) (key' : ModuleKey) (scope' : Scope) :
    (o.session.state key' scope').processed = true ↔
      (s.state key' scope').processed = true ∨ (key', scope') = (key, scope) := by
  obtain ⟨⟨-, steady⟩, marked⟩ := process_steady hb hs ho
  constructor
  · intro hp
    have opened := ((process_follows hb hs ho []).accounted hok).1 key' scope' hp
    exact opened.imp_right conducts.eq_of_opened_mem
  · rintro (hp | he)
    · exact ((steady hok).2.state key' scope').processed hp
    · cases he
      exact marked hok

/-- **Scopes in order are read in turn.** -/
theorem processEach_inTurn (hb : b.Regular) (declared : b.Declared)
    {rest : List (ModuleKey × Scope)} : ∀ {done : List (ModuleKey × Scope)} {s : Session} {o : Outcome},
      b.InOrder (done ++ rest) → b.Steady s →
      (∀ key scope, (s.state key scope).processed = true ↔ (key, scope) ∈ done) →
      b.processEach s rest = some o → InTurn rest o := by
  induction rest with
  | nil =>
    intro done s o _ _ _ ho
    cases ho
    exact ⟨List.prefix_rfl, fun _ => rfl, unnested_nil⟩
  | cons t rest ih =>
    intro done s o order hs marked ho
    obtain ⟨key, scope⟩ := t
    obtain ⟨first, hfirst, hrest⟩ := Option.bind_eq_some_iff.1 ho
    have conducts := process_conducts hb declared hs (hs.due (order done key scope rest rfl) marked) hfirst
    unfold andThen at hrest
    cases hr : first.result with
    | error e =>
      rw [hr] at hrest
      cases hrest
      refine ⟨?_, fun hok => (by cases hr.symm.trans hok), conducts.unnested⟩
      rcases conducts.loads_eq with one | ⟨none, -⟩
      · rw [one]
        exact ⟨rest, rfl⟩
      · rw [none]
        exact List.nil_prefix
    | ok u =>
      rw [hr] at hrest
      obtain ⟨later, hlater, rfl⟩ := Option.map_eq_some_iff.1 hrest
      have one : loads first.events = [(key, scope)] := conducts.loads_eq.resolve_right fun h => h.2 hr
      have order' : b.InOrder ((done ++ [(key, scope)]) ++ rest) := by
        rw [List.append_assoc]
        exact order
      have marked' : ∀ key' scope', (first.session.state key' scope').processed = true ↔
          (key', scope') ∈ done ++ [(key, scope)] := by
        intro key' scope'
        rw [Conducts.marked_iff hb hs hfirst hr conducts, marked, List.mem_append, List.mem_singleton]
      have turn : InTurn rest later :=
        ih order' ((process_steady hb hs hfirst).1.2 hr).1 marked' hlater
      have all : loads (first.events ++ later.events) = (key, scope) :: loads later.events := by
        rw [loads, List.filterMap_append]
        exact congrArg (· ++ loads later.events) one
      have ended := ((process_follows hb hs hfirst []).accounted hr).2
      refine ⟨?_, fun hok => ?_, conducts.unnested.append ended turn.unnested⟩
      · rw [all]
        exact (List.prefix_cons_inj _).2 turn.prefix_loads
      · rw [all, turn.loads_eq hok]

/-- **Processing a module of the reactor leaves everything alone**, or the first thing done is to open
the scope. -/
theorem process_opens (depth : Nat) {p q : Progress} {r : Except AssemblyError Unit}
    (known : b.reactor.contains key = true) (hx : (b.calls depth).process key scope p = some (r, q)) :
    (r = .ok () ∧ q = p) ∨ .opened key scope :: p.trace <:+ q.trace := by
  cases depth with
  | zero => cases hx
  | succ depth =>
    have track := b.calls_track b.source (Nat.le_refl depth)
    have opens : Ends False (b.processWith (b.calls depth) key scope) p fun r q =>
        (r = .ok () ∧ q = p) ∨ .opened key scope :: p.trace <:+ q.trace := by
      refine ends_processWith key scope (fun unknown => ?unknown) (fun _ _ _ => .inl ⟨rfl, rfl⟩)
        (fun m hm _ _ => ?main) fun m hm _ _ => ?test
      case unknown =>
        rw [Reactor.contains, unknown] at known
        cases known
      case main =>
        obtain ⟨-, rfl⟩ := mem_modules_of_get? hm
        exact (processMarked_tracks track hm _ scope).right.ends.mono fun _ _ grown => .inr grown
      case test =>
        obtain ⟨-, rfl⟩ := mem_modules_of_get? hm
        refine (track.process m.key .main).right.ends.mono fun r q grown => ?_
        cases r with
        | error e => exact .inr grown
        | ok u =>
          exact (processMarked_tracks track hm _ scope).right.ends.mono fun _ _ more => .inr (grown.trans more)
    exact opens.of_eq_some hx

/-- **A build of all modules** ends for the lack of an order, or it reads the scopes in turn. -/
theorem processAll_inTurn (hb : b.Regular) (declared : b.Declared) {o : Outcome}
    (ho : b.processAll (.start b.reactor) = some o) :
    match b.reactor.buildOrder with
    | .error e => o.result = .error (.reactor e) ∧ o.events = []
    | .ok order => InTurn (schedule order) o := by
  cases h : b.reactor.buildOrder with
  | error e =>
    unfold processAll at ho
    rw [h] at ho
    cases ho
    exact ⟨rfl, rfl⟩
  | ok order =>
    rw [processAll_eq h] at ho
    have unmarked : ∀ key scope,
        ((Session.start b.reactor).state key scope).processed = true ↔ (key, scope) ∈ [] := by
      intro key scope
      simp [state_start, ScopeState.empty]
    exact processEach_inTurn hb declared (inOrder_schedule h) (b.steady_start _) unmarked ho

/-- **Declared dependencies suffice**: if each module reaches the modules that its raw features refer
to, a build of all modules has an outcome; it reads the scopes in build order up to where it ends,
and all of them if it goes well; while a merge is under way no scope is opened, so that all
processing on behalf of a lookup leaves everything alone, and merged are features of one module. -/
theorem declared_dependencies_suffice (b : Build) (hb : b.merger = .byPrototype) (declared : b.Declared) :
    ∃ o, b.processAll (.start b.reactor) = some o ∧
      (∀ e, b.reactor.buildOrder = .error e → o.result = .error (.reactor e) ∧ o.events = []) ∧
      (∀ order, b.reactor.buildOrder = .ok order →
        loads o.events <+: schedule order ∧ (o.result = .ok () → loads o.events = schedule order)) ∧
      (∀ before key scope after, o.events = before ++ .opened key scope :: after →
        ∀ n, ¬ UnderWay n before) ∧
      (∀ depth key scope p r q, b.reactor.contains key = true →
        (b.calls depth).process key scope p = some (r, q) →
          (r = .ok () ∧ q = p) ∨ .opened key scope :: p.trace <:+ q.trace) ∧
      ∀ before key scope location base after,
        o.events = before ++ .merging key scope location base :: after →
          ∀ n, UnderWay n before → n.module = key := by
  obtain ⟨o, ho⟩ := exists_processAll hb (.start b.reactor)
  have opens : ∀ depth key scope p r q, b.reactor.contains key = true →
      (b.calls depth).process key scope p = some (r, q) →
        (r = .ok () ∧ q = p) ∨ .opened key scope :: p.trace <:+ q.trace :=
    fun depth _ _ _ _ _ known hx => process_opens depth known hx
  have turn := processAll_inTurn (regular_asAnswered hb o.events) (declared.asAnswered o.events)
    (processAll_asAnswered hb .start ho)
  rw [show (b.asAnswered o.events).reactor = b.reactor from rfl] at turn
  cases h : b.reactor.buildOrder with
  | error e =>
    rw [h] at turn
    obtain ⟨failed, idle⟩ := turn
    have unnested : Unnested o.events := idle ▸ unnested_nil
    refine ⟨o, ho, ?_, fun _ he => (by cases he), unnested.opened, opens, unnested.merging⟩
    rintro _ ⟨⟩
    exact ⟨failed, idle⟩
  | ok order =>
    rw [h] at turn
    refine ⟨o, ho, fun _ he => (by cases he), ?_, turn.unnested.opened, opens, turn.unnested.merging⟩
    rintro _ ⟨⟩
    exact ⟨turn.prefix_loads, turn.loads_eq⟩

/-- A build in which `app` depends on `lib`, that depends on `base`, and `a` refers to what `base` has. -/
def tower : Build :=
  let depending (name dependency : String) : Module :=
    { Module.of "g" name "1" with dependsOn := [⟨dependency⟩] }
  let feature (name : String) : Identity := (Identity.of "g" name "1").withType featureType
  ofTable ⟨[depending "app" "g:lib", depending "lib" "g:base", .of "g" "base" "1"], by decide, by decide⟩
    [(⟨"g:app"⟩, .main, "a.json", .after (feature "app") (feature "base")),
      (⟨"g:app"⟩, .test, "t.json", .after ((feature "app").withClassifier "t") (feature "app")),
      (⟨"g:lib"⟩, .main, "p.json", .of (feature "lib")),
      (⟨"g:base"⟩, .main, "b.json", .of (feature "base"))]

theorem declared_tower : tower.Declared := by
  intro m hm dependencies scope features location f prototype taken found _ derived foreign _
  have ignores : tower.source.IgnoresDependencies := ignoresDependencies_ofTable tower.reactor _
  rw [ignores] at taken
  have check : tower.everyFeature (fun n f => f.prototype.all fun prototype =>
      prototype.id.moduleKey = n.module ∨
        n.module = ⟨"g:app"⟩ ∧ prototype.id.moduleKey = ⟨"g:base"⟩) = true := by
    decide +kernel
  have here := of_everyFeature check (featureAt_of_source hm taken found)
  rw [derived, Option.all_some, decide_eq_true_eq] at here
  obtain ⟨app, base⟩ := here.resolve_left foreign
  rw [show m.key = ⟨"g:app"⟩ from app, base]
  have lib : tower.reactor.DependsOn ⟨"g:app"⟩ ⟨"g:lib"⟩ := by unfold Reactor.DependsOn; decide
  have next : tower.reactor.DependsOn ⟨"g:lib"⟩ ⟨"g:base"⟩ := by unfold Reactor.DependsOn; decide
  exact .tail (.single lib) next

/-- `tower` is read from `base` to `app`, and goes well. -/
theorem tower_read_in_order : ∃ o, tower.processAll (.start tower.reactor) = some o ∧
    o.result = .ok () ∧ loads o.events = schedule [⟨"g:base"⟩, ⟨"g:lib"⟩, ⟨"g:app"⟩] := by
  obtain ⟨o, ho, -, read, -⟩ := declared_dependencies_suffice tower rfl declared_tower
  have order : tower.reactor.buildOrder = .ok [⟨"g:base"⟩, ⟨"g:lib"⟩, ⟨"g:app"⟩] := by
    decide +kernel
  have run : (tower.processAll (.start tower.reactor)).map (fun o => o.result) = some (.ok ()) := by
    decide +kernel
  rw [ho, Option.map_some, Option.some.injEq] at run
  exact ⟨o, ho, run, (read _ order).2 run⟩

end FeatureAssembly.Build
