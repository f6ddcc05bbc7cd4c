import FeatureAssembly.Proofs.Moves
import FeatureAssembly.Proofs.Runs

/-!
# Builds make moves

The walk through the pieces of a build that finds the moves they are made of. It takes what
holds at each place from the walk that keeps the invariants, and adds what is in the middle of
being done.

**The law** (`Build.calls_follow`, `Build.processEach_follows`): at any depth, a call that goes
well leads along a path to where it ends, with nothing more to do than before it; and a call
that fails follows a path to where it stops.

A merge begins at no site that is being merged. Such a site keeps its scope marked, so its scope
is not processed again, and it keeps its identity in flight, so it is not looked for: the
identity that is taken out of flight while a module is processed is one that a question put
there, and was not in flight before.
-/

set_option autoImplicit false

namespace FeatureAssembly

open Relation Step

/-- The stage at a progress. -/
def Progress.stage (p : Progress) (a : Build.Agenda) : Build.Stage := ⟨p.session, p.trace, a⟩

namespace Build

variable {b : Build} {calls : Calls} {p p' q : Progress} {scope scope' : Scope} {a a' : Agenda}

/-! ## Sites that are being merged -/

/-- **Sites that are being merged** have their scopes marked and their identities in flight. -/
def Held (b : Build) (a : Agenda) (p : Progress) : Prop :=
  ∀ n ∈ a.sites, (p.session.state n.module n.scope).processed = true ∧
    ∃ f, (b.prepared n.module n.scope).get? n.location = some f ∧ p.inFlight.contains f.id = true

theorem Held.mono (h : b.Held a p) (hs : p.session.Extends scope q.session)
    (hi : ∀ id, p.inFlight.contains id = true → q.inFlight.contains id = true) : b.Held a q :=
  fun n hn => by
    obtain ⟨marked, f, hf, held⟩ := h n hn
    exact ⟨(hs.state n.module n.scope).processed marked, f, hf, hi _ held⟩

theorem Held.of_goes (h : b.Held a p) (hg : b.Goes scope p q) : b.Held a q :=
  h.mono hg.1.grows fun id hi => by rw [hg.2]; exact hi

theorem Held.mergeAt (h : b.Held a p) {n : Site} {f : Feature} (hb : b.Begins n f p) :
    b.Held (a.mergeAt n) p := by
  intro n' hn
  rcases List.mem_cons.1 hn with rfl | hn
  · exact ⟨hb.marked.self, f, hb.prepared, hb.held⟩
  · exact h n' hn

/-- No feature with an identity out of flight is being merged. -/
theorem Held.not_mem (h : b.Held a p) {id : Identity} (hi : p.inFlight.contains id = false) {n : Site}
    {f : Feature} (hf : (b.prepared n.module n.scope).get? n.location = some f) (hid : f.id = id) :
    n ∉ a.sites := by
  intro hn
  obtain ⟨-, f', hf', held⟩ := h n hn
  cases hf.symm.trans hf'
  rw [hid, hi] at held
  cases held

/-- Nothing of a scope that is not marked is being merged. -/
theorem Held.not_mem_of_unmarked (h : b.Held a p) {key : ModuleKey}
    (hn : (p.session.state key scope).processed = false) (location : String) :
    (⟨key, scope, location⟩ : Site) ∉ a.sites := by
  intro hm
  obtain ⟨marked, -⟩ := h _ hm
  rw [hn] at marked
  cases marked

/-! ## What a piece follows -/

/-- **What a piece follows**: a path to where it ends, or to where it stops. -/
abbrev Follows {α : Type} (b : Build) (a a' : Agenda) (p : Progress) :
    Except AssemblyError α → Progress → Prop :=
  either (fun _ q => b.Path (p.stage a) (q.stage a')) fun e q => b.Fails (p.stage a) e q.session q.trace

theorem Follows.after {α : Type} {r : Except AssemblyError α} {a'' : Agenda}
    (h : b.Follows a' a'' p' r q) (path : b.Path (p.stage a) (p'.stage a')) : b.Follows a a'' p r q := by
  cases r with
  | error e => exact Fails.after h path
  | ok x => exact path.trans h

theorem stops (p : Progress) (a : Agenda) (e : AssemblyError) :
    b.Fails (p.stage a) e p.session p.trace :=
  .of_halt (.stop _ e)

end Build

/-- **Calls that follow paths.** -/
structure Calls.Follow (calls : Calls) (b : Build) : Prop where
  process : ∀ {key scope p a}, b.Sound scope none p.session → b.LedTo key scope p.inFlight →
    a.Apart scope → b.Held a p → Ends False (calls.process key scope) p (b.Follows a a p)
  /-- A site that is given something has referred to it. -/
  provide : ∀ {n id p a}, b.Works n p → b.Requests n id → a.Apart n.scope → b.Held a p →
    Ends False (calls.provide n.module n.scope id) p (either
      (fun found q => b.Path (p.stage a) (q.stage a) ∧ (found.isSome = true →
        id.isOwnedBy n.module = false → (q.session.referencesOf n.module).contains id = true))
      fun e q => b.Fails (p.stage a) e q.session q.trace)

namespace Build

variable {b : Build} {calls : Calls} {p p' q : Progress} {scope scope' : Scope} {a a' : Agenda}

/-! ## Merging -/

/-- **A merge** begins, and its result is recorded. -/
theorem merge_follows (hb : b.Regular) (hc : calls.Maintain b) (hf : calls.Follow b)
    {n : Site} {f : Feature} (begins : b.Begins n f p) (apart : a.Apart n.scope) (held : b.Held a p)
    (idle : n ∉ a.sites) :
    Ends False (b.merge calls n.module n.scope n.location f) p (either
      (fun g q => b.Path (p.stage a) ((q.onSession fun s =>
        s.modifyStore n.module fun t => t.recordAssembled n.scope n.location g).stage a))
      fun e q => b.Fails (p.stage a) e q.session q.trace) := by
  have asks : ∀ id, b.Requests n id ↔ _ := fun id => requests_iff_of_prepared begins.prepared
  let p₁ := p.note (.merging n.module n.scope n.location f.id)
  have first : b.Path (p.stage a) (p₁.stage (a.mergeAt n)) :=
    .single (.begin begins.prepared begins.fresh idle)
  have walk : Ends False (b.merge calls n.module n.scope n.location f) p (either
      (fun _ q => ∃ t, q.trace = .merged n.module n.scope n.location :: t ∧
        b.Path (p.stage a) ⟨q.session, t, a.mergeAt n⟩ ∧
        ∀ id, b.Requests n id → id.isOwnedBy n.module = false →
          (q.session.referencesOf n.module).contains id = true)
      fun e q => b.Fails (p.stage a) e q.session q.trace) := by
    refine ends_merge hb.merger n.module n.scope n.location f ?final ?alone ?inheriting
    case final =>
      intro marked
      refine ⟨_, rfl, first, fun id hr => ?_⟩
      rw [((asks id).1 hr).1] at marked
      cases marked
    case alone =>
      intro _ original
      refine ⟨_, rfl, first, fun id hr => ?_⟩
      obtain ⟨-, prototype, hp, -⟩ := (asks id).1 hr
      rw [original] at hp
      cases hp
    case inheriting =>
      intro prototype unmarked derived
      have request : b.Requests n prototype.id := requests_of_prepared begins.prepared unmarked derived
      have works : b.Works n p₁ := ⟨begins.sound, begins.marked, begins.leads⟩
      refine (hf.provide (a := a.mergeAt n) works request apart (held.mergeAt begins)).mono
        fun r q h => ?_
      cases r with
      | error e => exact (Fails.after h first).close trivial
      | ok found =>
        obtain ⟨path, referred⟩ := h
        cases found with
        | none => exact ((stops q (a.mergeAt n) _).after (first.trans path)).close trivial
        | some parent =>
          refine ⟨q.trace, rfl, first.trans path, fun id hr => ?_⟩
          cases hr.unique request
          exact referred rfl
  refine (walk.and (merge_maintains hb hc begins.prepared begins.toWorks)).mono fun r q h => ?_
  cases r with
  | error e => exact h.1
  | ok g =>
    obtain ⟨⟨t, trace, path, referred⟩, goes, made, -⟩ := h
    have ready : b.Ready n.module n.scope q.session :=
      ⟨goes.1.sound, begins.marked.mono goes.1.grows⟩
    have last : b.Move ⟨q.session, t, a.mergeAt n⟩
        ⟨q.session.modifyStore n.module fun t => t.recordAssembled n.scope n.location g,
          .merged n.module n.scope n.location :: t, a⟩ :=
      .record ready begins.prepared made referred
    rw [← trace] at last
    exact path.tail last

theorem assembleAt_follows (hb : b.Regular) (hc : calls.Maintain b) (hf : calls.Follow b)
    {key : ModuleKey} {e : String × Feature} (he : (b.prepared key scope).get? e.1 = some e.2)
    (hs : b.Sound scope none p.session) (hl : b.LedTo key scope p.inFlight) (hm : Marked key scope p)
    (apart : a.Apart scope) (held : b.Held a p) (idle : ⟨key, scope, e.1⟩ ∉ a.sites) :
    Ends False (b.assembleAt calls key scope e) p (b.Follows a a p) := by
  refine ends_assembleAt_begins he hs hl hm (fun _ _ => .refl) fun p₁ back lent begins => ?_
  have there : p₁.stage a = p.stage a := by simp only [Progress.stage, lent.session, lent.trace]
  have here : ∀ q f, ((back q).onSession f).stage a = (q.onSession f).stage a := fun q f => by
    simp only [Progress.stage, Progress.onSession, lent.back_session, lent.back_trace]
  have held : b.Held a p₁ := fun n hn => by
    obtain ⟨marked, f, hf, hi⟩ := held n hn
    exact ⟨by rw [lent.session]; exact marked, f, hf, lent.held _ hi⟩
  refine (merge_follows (n := ⟨key, scope, e.1⟩) hb hc hf begins apart held idle).mono fun r q h => ?_
  cases r with
  | error err =>
    have fails : b.Fails (p₁.stage a) err q.session q.trace := h
    rw [there, ← lent.back_session q, ← lent.back_trace q] at fails
    exact fails
  | ok g =>
    have path : b.Path (p₁.stage a) ((q.onSession fun s =>
      s.modifyStore key fun t => t.recordAssembled scope e.1 g).stage a) := h
    rw [there, ← here] at path
    exact path

/-! ## Processing -/

/-- The raw features of a scope are assembled. -/
theorem assembleAll_follows (hb : b.Regular) (hc : calls.Maintain b) (hf : calls.Follow b)
    {key : ModuleKey} (hs : b.Sound scope none p.session) (hl : b.LedTo key scope p.inFlight)
    (hm : Marked key scope p) (apart : a.Apart scope) (held : b.Held a p)
    (idle : ∀ location, ⟨key, scope, location⟩ ∉ a.sites) :
    Ends False (((p.session.store key).raw scope).entries.forM (b.assembleAt calls key scope)) p
      (b.Follows a a p) := by
  have opened := hs.opened_of_marked (mem_visible_self scope) hm.self
  rw [show (p.session.store key).raw scope = b.prepared key scope from opened.raw]
  refine ends_forM (fun _ q => b.Goes scope p q ∧ b.Path (p.stage a) (q.stage a)) ⟨.refl hs, .refl⟩
    (fun _ h => h.2) fun e rest q he h => ?_
  obtain ⟨goes, path⟩ := h
  have he := SortedMap.get?_of_mem he
  have led : b.LedTo key scope q.inFlight := by
    rw [goes.2]
    exact hl
  have marked := hm.mono goes.1.grows
  refine ((assembleAt_follows hb hc hf he goes.1.sound led marked apart (held.of_goes goes)
    (idle e.1)).and (assembleAt_maintains hb hc he goes.1.sound led marked)).mono fun r q' h => ?_
  cases r with
  | error err => exact Fails.after h.1 path
  | ok u => exact ⟨goes.trans h.2.1, path.trans h.1⟩

/-- The aggregates of a scope are put together. -/
theorem buildAggregates_follow (hb : b.Regular) {m : Module}
    (hk : b.reactor.get? m.key = some m) (hs : b.Sound scope none p.session) (hm : Marked m.key scope p)
    (raw : b.RawDone p.session m.key scope) :
    Ends False (b.buildAggregates m scope) p (b.Follows (a.workOn m.key scope) (a.workOn m.key scope) p) := by
  refine ends_forM (fun _ q => b.Goes scope p q ∧
    b.Path (p.stage (a.workOn m.key scope)) (q.stage (a.workOn m.key scope))) ⟨.refl hs, .refl⟩
    (fun _ h => h.2) fun d rest q hd h => ?_
  obtain ⟨goes, path⟩ := h
  obtain ⟨declared, inScope⟩ := List.mem_filter.1 hd
  obtain rfl : d.scope = scope := by simpa using inScope
  have raw := raw.mono goes.1.grows.retains
  have marked := hm.mono goes.1.grows
  have move : Ends False (b.buildAggregate m d) q
      (b.Follows (a.workOn m.key d.scope) (a.workOn m.key d.scope) q) := by
    refine ends_buildAggregate m d (fun _ => .refl) (stops q _ _) fun ha selected => ?_
    have fresh := Option.not_isSome_iff_eq_none.1 (Bool.eq_false_iff.1 ha)
    exact .single (.aggregate ⟨goes.1.sound, marked⟩ hk declared raw fresh selected)
  refine (move.and (buildAggregate_maintains hb hk declared goes.1.sound marked raw)).mono
    fun r q' h => ?_
  cases r with
  | error err => exact Fails.after h.1 path
  | ok u => exact ⟨goes.trans h.2.1, path.trans h.1⟩

/-! ## Marked scopes -/

/-- **A scope is read**: the source is asked for it, and only its raw features are set. -/
structure JustRead (key : ModuleKey) (dependencies : List Dependency) (scope : Scope)
    (features : FeatureMap) (p q : Progress) : Prop where
  trace : q.trace = .loaded key dependencies scope :: p.trace
  set : RawSet key scope features p.session q.session

/-- **A scope is prepared**: it is read and checked, and in main has its unit. -/
structure Prepares (b : Build) (key : ModuleKey) (dependencies : List Dependency) (scope : Scope)
    (p q : Progress) : Prop extends JustRead key dependencies scope (b.prepared key scope) p q where
  sound : b.Sound scope none q.session
  same : Same p q

/-- **A scope is worked on**, and a path leads there from where it waited to be read. -/
structure WorksOn (b : Build) (a : Agenda) (key : ModuleKey) (scope : Scope) (p q : Progress) : Prop where
  ready : b.Ready key scope q.session
  path : b.Path (p.stage (a.await key scope)) (q.stage (a.workOn key scope))

section Marked

variable {m : Module} {dependencies : List Dependency}

/-- A scope that waits is refused over some diagnostics that are told. -/
theorem fails_of_reject (hm : Marked m.key scope p) (apart : a.Apart scope) (e : AssemblyError)
    {s : Session} {l : List Diagnostic} (told : s.diagnostics = p.session.diagnostics ++ l)
    (kinds : ∀ d ∈ l, d.kind ≠ .featureNotFound) :
    b.Fails (p.stage (a.await m.key scope)) e s (.loaded m.key dependencies scope :: p.trace) :=
  .of_halt (.reject e hm apart ⟨l, told, kinds⟩)

/-- **What is read** is checked, or refused. -/
theorem checkStore_follows (hk : b.reactor.get? m.key = some m)
    (hs : b.Sound scope (some (m.key, scope)) p.session) (hm : Marked m.key scope p)
    (apart : a.Apart scope) {features : FeatureMap} (classified : b.checkAggregates m.key = .ok ())
    (hf : b.load m scope = .ok features) :
    Ends False (b.checkStore m.key)
      ((p.note (.loaded m.key dependencies scope)).onSession fun s =>
        s.modifyStore m.key fun t => t.setRaw scope features)
      (either (fun _ q => b.Checked m.key scope p q ∧
          JustRead m.key dependencies scope (b.sourced m.key scope) p q)
        fun e q => b.Fails (p.stage (a.await m.key scope)) e q.session q.trace) := by
  have set := RawSet.setRaw p.session m.key scope features
  rw [← sourced_of_load hk hf] at set
  have walk : Ends False (b.checkStore m.key)
      ((p.note (.loaded m.key dependencies scope)).onSession fun s =>
        s.modifyStore m.key fun t => t.setRaw scope features)
      (either (fun _ => JustRead m.key dependencies scope (b.sourced m.key scope) p)
        fun e q => b.Fails (p.stage (a.await m.key scope)) e q.session q.trace) := by
    refine ends_checkStore m.key (fun _ => ⟨rfl, sourced_of_load hk hf ▸ set⟩) fun e _ => ?_
    exact fails_of_reject (l := [.classifiers e]) hm apart _ rfl (by simp [Diagnostic.classifiers])
  refine (walk.and (checkStore_maintains hk classified hf hs)).mono fun r q h => ?_
  cases r with
  | error e => exact h.1
  | ok u => exact ⟨h.2, h.1⟩

/-- **A unit is attached** to what is read, or it is refused. -/
theorem attachPackagedUnit_follows (hk : b.reactor.get? m.key = some m) (hm : Marked m.key .main p)
    (apart : a.Apart .main) (checked : b.Checked m.key .main p q)
    (reads : JustRead m.key dependencies .main (b.sourced m.key .main) p q) :
    Ends False (b.attachPackagedUnit m) q (either (fun _ => b.Prepares m.key dependencies .main p)
      fun e q' => b.Fails (p.stage (a.await m.key .main)) e q'.session q'.trace) := by
  obtain ⟨trace, set⟩ := reads
  have walk : Ends False (b.attachPackagedUnit m) q
      (either (fun _ => JustRead m.key dependencies .main (b.prepared m.key .main) p)
        fun e q' => b.Fails (p.stage (a.await m.key .main)) e q'.session q'.trace) := by
    refine ends_attachPackagedUnit m (fun s hst hr hd hi => ⟨trace, ?_⟩) fun l => ?_
    · refine (set.trans ?_).of_store_eq hst hr hd hi
      rw [prepared_main hk, ← checked.raw]
      exact RawSet.setRaw q.session m.key .main _
    · have told : (q.session.report (.ambiguousUnit m.key l)).diagnostics =
          p.session.diagnostics ++ [.ambiguousUnit m.key l] := congrArg (· ++ _) set.diagnostics
      have fails : b.Fails (p.stage (a.await m.key .main)) (.ambiguousPackagedUnit m.key l)
          (q.session.report (.ambiguousUnit m.key l)) (.loaded m.key dependencies .main :: p.trace) :=
        fails_of_reject hm apart _ told (by simp [Diagnostic.ambiguousUnit])
      rw [← trace] at fails
      exact fails
  refine (walk.and (attachPackagedUnit_maintains hk hm checked)).mono fun r q' h => ?_
  cases r with
  | error e => exact h.1
  | ok u =>
    obtain ⟨reads, sound, same⟩ := h
    exact ⟨reads, sound, same⟩

/-- Test has no unit to be attached. -/
theorem prepares_test (hk : b.reactor.get? m.key = some m) (hm : Marked m.key .test p)
    (checked : b.Checked m.key .test p q)
    (reads : JustRead m.key dependencies .test (b.sourced m.key .test) p q) :
    b.Prepares m.key dependencies .test p q := by
  have known : b.reactor.contains m.key = true := Option.isSome_iff_exists.2 ⟨m, hk⟩
  have raw := checked.raw.trans (prepared_test m.key).symm
  rw [← prepared_test] at reads
  exact ⟨reads, checked.sound.opens known raw checked.distinct (checked.same.marked hm), checked.same⟩

/-- **What is prepared** is assembled. -/
theorem assemblePrepared_follows (hb : b.Regular) (hc : calls.Maintain b) (hf : calls.Follow b)
    (hm : Marked m.key scope p) (hl : b.LedTo m.key scope p.inFlight) (apart : a.Apart scope)
    (held : b.Held a p) (idle : ∀ location, ⟨m.key, scope, location⟩ ∉ a.sites)
    (prepares : b.Prepares m.key dependencies scope p q) :
    Ends False (((q.session.store m.key).raw scope).entries.forM (b.assembleAt calls m.key scope)) q
      (either (fun _ q' => b.WorksOn a m.key scope p q' ∧ b.RawDone q'.session m.key scope)
        fun e q' => b.Fails (p.stage (a.await m.key scope)) e q'.session q'.trace) := by
  obtain ⟨⟨trace, set⟩, sound, same⟩ := prepares
  have led : b.LedTo m.key scope q.inFlight := by
    rw [same.inFlight]
    exact hl
  have held : b.Held (a.workOn m.key scope) q := fun n hn => by
    obtain ⟨marked, f, hf, hi⟩ := held n hn
    exact ⟨(same.processed n.module n.scope).trans marked, f, hf, by rw [same.inFlight]; exact hi⟩
  have first : b.Path (p.stage (a.await m.key scope)) (q.stage (a.workOn m.key scope)) := by
    have move : b.Move (p.stage (a.await m.key scope))
        ⟨q.session, .loaded m.key dependencies scope :: p.trace, a.workOn m.key scope⟩ :=
      .read hm apart set
    rw [← trace] at move
    exact .single move
  refine ((assembleAll_follows hb hc hf sound led (same.marked hm) (apart.workOn m.key) held idle).and
    (assembleAll_maintains hb hc sound led (same.marked hm))).mono fun r q' h => ?_
  cases r with
  | error e => exact Fails.after h.1 first
  | ok u =>
    obtain ⟨path, goes, raw⟩ := h
    exact ⟨⟨⟨goes.1.sound, (same.marked hm).mono goes.1.grows⟩, first.trans path⟩, raw⟩

/-- **What is assembled** is aggregated. -/
theorem aggregateAssembled_follows (hb : b.Regular) (hk : b.reactor.get? m.key = some m)
    (works : b.WorksOn a m.key scope p q) (raw : b.RawDone q.session m.key scope) :
    Ends False (b.buildAggregates m scope) q
      (either (fun _ q' => b.WorksOn a m.key scope p q' ∧ b.Completed q'.session m.key scope)
        fun e q' => b.Fails (p.stage (a.await m.key scope)) e q'.session q'.trace) := by
  obtain ⟨ready, path⟩ := works
  refine ((buildAggregates_follow (a := a) hb hk ready.sound ready.marked raw).and
    (buildAggregates_maintains hb hk ready.sound ready.marked raw)).mono fun r q' h => ?_
  cases r with
  | error e => exact Fails.after h.1 path
  | ok u =>
    obtain ⟨path', goes, complete⟩ := h
    have marked : Marked m.key scope q := ready.marked
    exact ⟨⟨⟨goes.1.sound, marked.mono goes.1.grows⟩, path.trans path'⟩, complete⟩

/-- **A scope that is marked** is read, assembled and completed, or what is read is refused. -/
theorem processMarked_follows (hb : b.Regular) (hc : calls.Maintain b) (hf : calls.Follow b)
    (hk : b.reactor.get? m.key = some m) (hs : b.Sound scope (some (m.key, scope)) p.session)
    (hm : Marked m.key scope p) (hl : b.LedTo m.key scope p.inFlight) (apart : a.Apart scope)
    (held : b.Held a p) (idle : ∀ location, ⟨m.key, scope, location⟩ ∉ a.sites) :
    Ends False (b.processMarked calls (m.dependingOn dependencies) scope) p
      (b.Follows (a.await m.key scope) a p) := by
  refine ends_processMarked m dependencies scope
    (fun q => b.Checked m.key scope p q ∧ JustRead m.key dependencies scope (b.sourced m.key scope) p q)
    (b.Prepares m.key dependencies scope p)
    (fun q => b.WorksOn a m.key scope p q ∧ b.RawDone q.session m.key scope)
    (fun q => b.WorksOn a m.key scope p q ∧ b.Completed q.session m.key scope)
    (fun e _ => stops p _ e) ?unread ?check ?attach ?pass ?assemble ?aggregate ?augment
  case unread => exact fun e _ => fails_of_reject hm apart e (List.append_nil _).symm nofun
  case check =>
    intro features classified hload
    rw [load_dependingOn hb.ignores] at hload
    exact checkStore_follows hk hs hm apart classified hload
  case attach =>
    rintro q rfl ⟨checked, reads⟩
    exact attachPackagedUnit_follows hk hm apart checked reads
  case pass =>
    rintro q rfl ⟨checked, reads⟩
    exact prepares_test hk hm checked reads
  case assemble => exact fun q => assemblePrepared_follows hb hc hf hm hl apart held idle
  case aggregate => exact fun q ⟨works, raw⟩ => aggregateAssembled_follows hb hk works raw
  case augment => exact fun q ⟨works, complete⟩ => works.path.tail (.complete works.ready complete)

end Marked

/-- **A scope is processed** unless it is marked. -/
theorem processWith_follows (hb : b.Regular) (hc : calls.Maintain b) (hf : calls.Follow b)
    {key : ModuleKey} (hs : b.Sound scope none p.session) (hl : b.LedTo key scope p.inFlight)
    (apart : a.Apart scope) (held : b.Held a p) :
    Ends False (b.processWith calls key scope) p (b.Follows a a p) := by
  let marks (q : Progress) : Prop :=
    b.Path (p.stage a) (q.stage (a.await key scope)) ∧ b.Held a q
  have mark : b.reactor.contains key = true → (p.session.state key scope).processed = false →
      marks (opened key scope p) := by
    intro known unmarked
    have grows := (Session.Extends.refl scope p.session).markProcessed key
    exact ⟨.single (.mark known unmarked apart), held.mono grows fun _ hi => hi⟩
  refine hs.ends_processWith hc hl marks (stops p a _) (fun _ => .refl)
    (fun known hn _ => mark known hn) ?test ?next
  case test =>
    rintro known hn rfl sound led
    obtain ⟨path, held⟩ := mark known hn
    have held' : b.Held (a.await key .test) (opened key .test p) := held
    refine ((hf.process (a := a.await key .test) sound led (Agenda.apart_main _) held').and
      (hc.process sound led)).mono fun r q h => ?_
    cases r with
    | error e => exact Fails.after h.1 path
    | ok u => exact ⟨path.trans h.1, held.of_goes h.2.1⟩
  case next =>
    rintro m q rfl hk hn ⟨path, held'⟩ opening
    have led : b.LedTo m.key scope q.inFlight := by
      rw [opening.inFlight]
      exact hl
    refine (processMarked_follows hb hc hf hk opening.sound opening.marked led apart held'
      (held.not_mem_of_unmarked hn)).mono fun r q' h => h.after path

/-! ## Providing -/

/-- **What a site seeks** is found along a path, or is nowhere. -/
theorem find_follows (hb : b.Regular) (hc : calls.Maintain b) (hf : calls.Follow b)
    {n : Site} {id : Identity} (hs : b.Seeks n id (p.enter id)) (hm : Marked n.module n.scope p)
    (free : p.inFlight.contains id = false) (apart : a.Apart n.scope) (held : b.Held a p) :
    Ends False (b.find calls n.module n.scope id) (p.enter id) (either
      (fun found q => b.Path (p.stage a) (q.stage a) ∧ (found = none → b.Nowhere n.scope id))
      fun e q => b.Fails (p.stage a) e q.session q.trace) := by
  have fetch : b.reactor.contains id.moduleKey = false →
      (∀ e, b.loader id = .error e → e.isNotFound = true) →
      b.Path (p.stage a) (((p.enter id).note (.fetched id)).stage a) := fun foreign fine =>
    .single (.fetch foreign fine)
  refine hs.ends_find hc hm (fun q => b.Path (p.stage a) (q.stage a)) (fun _ => .refl) ?other ?look
    ?outside ?nowhere ?broken
  case other =>
    intro _ led
    rw [leave_enter free] at led ⊢
    exact hf.process hs.sound led apart held
  case look =>
    intro q owned path goes
    refine ⟨fun f _ => ⟨path, nofun⟩, ?_, fun hd => ⟨path, fun _ => ⟨fun _ => hd, fun hn => ?_⟩⟩⟩
    · intro n' f _ located named begins
      have held' : b.Held a (p.enter id) := held.mono (Session.Extends.refl n.scope p.session) fun i hi => by
        rw [Progress.inFlight_enter, SortedSet.contains_add, hi, Bool.or_true]
      refine (merge_follows hb hc hf begins (apart.narrow located.visible) (held'.of_goes goes)
        (held.not_mem free begins.prepared named)).mono fun r q' h => ?_
      cases r with
      | error e => exact Fails.after h path
      | ok g => exact ⟨path.trans h, nofun⟩
    · rw [owned] at hn
      cases hn
  case outside =>
    intro f foreign hl
    refine ⟨fetch foreign fun e he => ?_, nofun⟩
    cases he.symm.trans hl
  case nowhere =>
    intro e foreign hl notFound
    refine ⟨fetch foreign fun e' he => ?_, fun _ => ⟨fun owned => ?_, fun _ => ⟨e, hl, notFound⟩⟩⟩
    · cases he.symm.trans hl
      exact notFound
    · rw [foreign] at owned
      cases owned
  case broken =>
    intro e foreign hl other
    exact .of_halt (.outside foreign hl other)

/-- **A site is given** what it asked for, or nothing. -/
theorem provideWith_follows (hb : b.Regular) (hc : calls.Maintain b)
    (hf : calls.Follow b) {n : Site} {id : Identity} (hw : b.Works n p) (request : b.Requests n id)
    (apart : a.Apart n.scope) (held : b.Held a p) :
    Ends False (b.provideWith calls n.module n.scope id) p (either
      (fun found q => b.Path (p.stage a) (q.stage a) ∧ (found.isSome = true →
        id.isOwnedBy n.module = false → (q.session.referencesOf n.module).contains id = true))
      fun e q => b.Fails (p.stage a) e q.session q.trace) := by
  refine ends_provideWith n.module n.scope id (fun _ => ⟨.single (.refuse request), nofun⟩)
    fun free => ?_
  refine ((find_follows hb hc hf (hw.seeks request) hw.marked free apart held).and
    (find_maintains hb hc (hw.seeks request) hw.marked)).mono fun r q h => ?_
  cases r with
  | error e => exact Fails.close h.1 trivial
  | ok found =>
    obtain ⟨⟨path, nowhere⟩, goes, supplied⟩ := h
    cases found with
    | none => exact ⟨path.tail (.miss request (nowhere rfl)), nofun⟩
    | some f =>
      have marked : Marked n.module n.scope (p.enter id) := hw.marked
      have ready : b.Ready n.module n.scope q.session := ⟨goes.1.sound, marked.mono goes.1.grows⟩
      exact ⟨path.tail (.supply ready request (supplied f rfl)), fun _ ho =>
        contains_withReference_iff.2 (.inr ⟨rfl, rfl, ho⟩)⟩

/-! ## Calls and whole builds -/

/-- **Calls follow paths**, at any depth. -/
theorem calls_follow (hb : b.Regular) : ∀ depth, (b.calls depth).Follow b
  | 0 => ⟨fun _ _ _ _ => id, fun _ _ _ _ => id⟩
  | depth + 1 =>
    have hc := calls_maintain hb depth
    have hf := calls_follow hb depth
    ⟨processWith_follows hb hc hf, provideWith_follows hb hc hf⟩

/-- The stage of a build that is in the middle of nothing. -/
def atRest (s : Session) (t : List Event) : Stage := ⟨s, t, .empty⟩

/-- **What a whole build follows**, with other things done before: a path to its end, or to where
it stops. -/
structure Takes (b : Build) (s : Session) (past : List Event) (o : Outcome) : Prop where
  path : o.result = .ok () → b.Path (atRest s past) (atRest o.session (o.events.reverse ++ past))
  fails : ∀ e, o.result = .error e →
    b.Fails (atRest s past) e o.session (o.events.reverse ++ past)

variable {s : Session}

theorem process_follows (hb : b.Regular) (hs : b.Steady s) {key : ModuleKey} {o : Outcome}
    (ho : b.process s key scope = some o) (past : List Event) : b.Takes s past o := by
  have none_led : b.LedTo key scope .empty := fun id hi => by cases hi
  have none_held : b.Held .empty ⟨s, .empty, []⟩ := fun n hn => by cases hn
  obtain ⟨depth, r, p', hx, rfl⟩ := exists_depth_of_process ho
  have ends := ((calls_follow hb depth).process (p := ⟨s, .empty, []⟩) (a := .empty)
    (hs.sound.inner (mem_visible_test scope)) none_led (Agenda.apart_empty scope) none_held).of_eq_some hx
  cases r with
  | error e =>
    refine ⟨fun h => (by cases h), fun e' he => ?_⟩
    cases he
    have fails := Fails.behind ends past
    rw [List.reverse_reverse]
    exact fails
  | ok u =>
    refine ⟨fun _ => ?_, fun e h => (by cases h)⟩
    have path := Path.behind ends past
    rw [List.reverse_reverse]
    exact path

/-- **Scopes that are processed in turn** lead along a path, up to where one of them stops. -/
theorem processEach_follows (hb : b.Regular) {targets : List (ModuleKey × Scope)} :
    ∀ {s : Session} {o : Outcome}, b.Steady s → b.processEach s targets = some o →
      ∀ past, b.Takes s past o := by
  induction targets with
  | nil =>
    intro s o _ ho past
    cases ho
    exact ⟨fun _ => .refl, nofun⟩
  | cons t rest ih =>
    intro s o hs ho past
    obtain ⟨first, hfirst, hrest⟩ := Option.bind_eq_some_iff.1 ho
    have takes := process_follows hb hs hfirst past
    unfold andThen at hrest
    cases hr : first.result with
    | error e =>
      rw [hr] at hrest
      cases hrest
      exact takes
    | ok u =>
      rw [hr] at hrest
      obtain ⟨later, hlater, rfl⟩ := Option.map_eq_some_iff.1 hrest
      have steady := (((process_steady hb hs hfirst).1.2) hr).1
      have later_takes := ih steady hlater (first.events.reverse ++ past)
      have path := takes.path hr
      refine ⟨fun hok => ?_, fun e he => ?_⟩
      · rw [List.reverse_append, List.append_assoc]
        exact path.trans (later_takes.path hok)
      · rw [List.reverse_append, List.append_assoc]
        exact (later_takes.fails e he).after path

end Build

end FeatureAssembly
