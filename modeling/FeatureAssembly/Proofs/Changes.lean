import FeatureAssembly.Proofs.Moves
import FeatureAssembly.Proofs.Parentage

/-!
# Changes of a build

What a build does to a session, bit by bit, wherever it starts and however it ends.

**The law** (`Build.process_changes`): the processing of a scope goes from what is there to what it
leaves behind by changes of a few kinds (`Build.Change`), also if it fails. It starts from any session
with no raw features but those of the source, and that is kept (`Build.Change.genuine`). So what every
change keeps, every session has that builds come to (`Build.keeps_of_reached`).

Changes are smaller than moves (`Build.Move`), and less is known where they are made: nothing of what
the build is in the middle of, and nothing of what is assembled. What they do tell is where things come
from. A feature that is recorded has a raw one in its place, or it is an aggregate of features that are
there; a module refers to what was handed out to it; and dependencies change where they are augmented.

What it does not establish: which changes are made.
-/

set_option autoImplicit false

namespace FeatureAssembly

open Relation Step

namespace Build

variable {b : Build} {calls : Calls} {p q : Progress} {key : ModuleKey} {scope : Scope} {id : Identity}

/-- **The raw features of a session are genuine**: they are those of the source, perhaps with the
packaged unit attached. -/
def Genuine (b : Build) (s : Session) : Prop := ∀ n f,
  (s.state n.module n.scope).raw.get? n.location = some f → b.RawAt n f

/-- **One change.** -/
inductive Change (b : Build) : Progress → Progress → Prop where
  /-- Something is noted that hands out nothing. -/
  | note {p : Progress} {e : Event} (quiet : HandsNothing e) : b.Change p (p.note e)
  | enter {p : Progress} (id : Identity) : b.Change p (p.enter id)
  | leave {p : Progress} (id : Identity) : b.Change p (p.leave id)
  | report {p : Progress} (d : Diagnostic) : b.Change p (p.onSession fun s => s.report d)
  | mark {p : Progress} (key : ModuleKey) (scope : Scope) :
      b.Change p (p.onSession fun s => s.modifyStore key fun t => t.markProcessed scope)
  /-- The raw features of a scope are set. -/
  | read {p : Progress} {key : ModuleKey} {scope : Scope} {features : FeatureMap} {s : Session}
      (genuine : ∀ location f, features.get? location = some f → b.RawAt ⟨key, scope, location⟩ f)
      (reads : RawSet key scope features p.session s) : b.Change p (p.onSession fun _ => s)
  /-- What a raw feature was merged to is recorded in its place. -/
  | record {p : Progress} {n : Site} {f : Feature} (raw : b.RawAt n f) (g : Feature) :
      b.Change p (p.onSession fun s =>
        s.modifyStore n.module fun t => t.recordAssembled n.scope n.location g)
  /-- An aggregate is put together of what is there, and recorded. -/
  | aggregate {p : Progress} (m : Module) (d : AggregateDecl) :
      b.Change p (p.onSession fun s => s.modifyStore m.key fun t =>
        t.recordAssembled d.scope (aggregateKey d.classifier)
          (b.merger.aggregate (aggregateIdentity m d) (aggregateParts (p.session.store m.key) d)))
  /-- A feature is handed out, and the module refers to it if it does not own it. -/
  | answer {p : Progress} (key : ModuleKey) (scope : Scope) (id : Identity) (f : Feature) :
      b.Change p ((p.onSession (withReference key id)).note (.answered key scope id (.ok (some f))))
  /-- A module gets the dependencies that it lacks for a scope. -/
  | augment {p : Progress} (key : ModuleKey) (scope : Scope) :
      b.Change p (p.onSession (b.augmented key scope))

/-- **From one progress to another**, by changes. -/
abbrev Changes (b : Build) : Progress → Progress → Prop := ReflTransGen b.Change

/-! ## Raw features -/

theorem Genuine.of_raw_eq {s s' : Session} (h : b.Genuine s)
    (same : ∀ key scope, (s'.state key scope).raw = (s.state key scope).raw) : b.Genuine s' :=
  fun n f hf => h n f (by rw [← same]; exact hf)

theorem Genuine.of_store_eq {s s' : Session} (h : b.Genuine s) (same : ∀ key, s'.store key = s.store key) :
    b.Genuine s' :=
  h.of_raw_eq fun key scope => congrArg ScopeState.raw (Session.state_eq_of_store_eq same key scope)

/-- Raw features stay genuine. -/
theorem Change.genuine (h : b.Change p q) (hp : b.Genuine p.session) : b.Genuine q.session := by
  cases h with
  | note | enter | leave => exact hp
  | report d => exact hp.of_store_eq (Session.store_report _ d)
  | mark key scope => exact hp.of_raw_eq (p.session.view_modifyStore ScopeState.raw rfl)
  | @read key scope features s genuine reads =>
    intro n f hf
    have there : (s.state n.module n.scope).raw.get? n.location = some f := hf
    rw [reads.state] at there
    split at there
    · next here =>
      obtain ⟨module, scope', location⟩ := n
      obtain ⟨rfl, rfl⟩ := here
      exact genuine location f there
    · exact hp n f there
  | record | aggregate => exact hp.of_raw_eq (p.session.view_modifyStore ScopeState.raw rfl)
  | answer key scope id => exact hp.of_store_eq (store_withReference key id p.session)
  | augment key scope => exact hp.of_store_eq (b.store_augmented key scope p.session)

/-- **What every change keeps** of genuine sessions, they keep in turn. -/
theorem Changes.keeps {I : Progress → Prop} (h : b.Changes p q)
    (step : ∀ p q, b.Genuine p.session → b.Change p q → I p → I q) (hp : b.Genuine p.session)
    (hi : I p) : b.Genuine q.session ∧ I q := by
  induction h with
  | refl => exact ⟨hp, hi⟩
  | tail _ change ih => exact ⟨change.genuine ih.1, step _ _ ih.1 change ih.2⟩

theorem Changes.genuine (h : b.Changes p q) (hp : b.Genuine p.session) : b.Genuine q.session :=
  (h.keeps (I := fun _ => True) (fun _ _ _ _ => id) hp trivial).1

end Build

/-- **Calls that make changes only**, wherever they start. -/
structure Calls.Change (calls : Calls) (b : Build) : Prop where
  process : ∀ {key scope p}, b.Genuine p.session →
    Ends False (calls.process key scope) p fun _ q => b.Changes p q
  provide : ∀ {key scope id p}, b.Genuine p.session →
    Ends False (calls.provide key scope id) p fun _ q => b.Changes p q

namespace Build

variable {b : Build} {calls : Calls} {p q : Progress} {key : ModuleKey} {scope : Scope} {id : Identity}

/-! ## Assembling -/

theorem merge_changes (hb : b.Regular) (hc : calls.Change b) (hp : b.Genuine p.session)
    (location : String) (f : Feature) :
    Ends False (b.merge calls key scope location f) p fun _ q => b.Changes p q := by
  have begun : b.Changes p (p.note (.merging key scope location f.id)) := .single (.note trivial)
  refine ends_merge hb.merger key scope location f (fun _ => begun.tail (.note trivial))
    (fun _ _ => begun.tail (.note trivial)) fun prototype _ _ => ?_
  have genuine := Changes.genuine begun hp
  exact (hc.provide genuine).mono fun r q h => (begun.trans h).tail (.note trivial)

theorem assembleAt_changes (hb : b.Regular) (hc : calls.Change b) (hp : b.Genuine p.session)
    {e : String × Feature} (he : b.RawAt ⟨key, scope, e.1⟩ e.2) :
    Ends False (b.assembleAt calls key scope e) p fun _ q => b.Changes p q := by
  refine ends_assembleAt key scope e (fun _ => .refl) (fun _ _ => ?held) fun _ _ => ?free
  case held =>
    refine (merge_changes hb hc hp e.1 e.2).mono fun r q h => ?_
    cases r with
    | error err => exact h
    | ok g => exact h.tail (.record he g)
  case free =>
    have entered : b.Changes p (p.enter e.2.id) := .single (.enter e.2.id)
    refine (merge_changes hb hc (p := p.enter e.2.id) hp e.1 e.2).mono fun r q h => ?_
    have left : b.Changes p (q.leave e.2.id) := (entered.trans h).tail (.leave e.2.id)
    cases r with
    | error err => exact left
    | ok g => exact left.tail (.record he g)

/-- **The raw features of a scope** are assembled, one after the other. -/
theorem assembleAll_changes (hb : b.Regular) (hc : calls.Change b) (hp : b.Genuine p.session) :
    Ends False (((p.session.store key).raw scope).entries.forM (b.assembleAt calls key scope)) p
      fun _ q => b.Changes p q := by
  refine ends_forM (fun _ q => b.Changes p q) .refl (fun _ h => h) fun e rest q he h => ?_
  have raw : b.RawAt ⟨key, scope, e.1⟩ e.2 := hp ⟨key, scope, e.1⟩ e.2 (SortedMap.get?_of_mem he)
  refine (assembleAt_changes hb hc (h.genuine hp) raw).mono fun r q' h' => ?_
  cases r with
  | error err => exact h.trans h'
  | ok u => exact h.trans h'

theorem buildAggregates_changes (m : Module) :
    Ends False (b.buildAggregates m scope) p fun _ q => b.Changes p q := by
  refine ends_forM (fun _ q => b.Changes p q) .refl (fun _ h => h) fun d rest q _ h => ?_
  have built : Ends False (b.buildAggregate m d) q fun _ q' => b.Changes q q' := by
    refine ends_buildAggregate m d (fun _ => .refl) .refl fun _ _ => ?_
    have noted : b.Changes q (q.note (.aggregated (aggregateIdentity m d)
        ((aggregateParts (q.session.store m.key) d).map Feature.id))) := .single (.note trivial)
    exact noted.tail (.aggregate m d)
  refine built.mono fun r q' h' => ?_
  cases r with
  | error err => exact h.trans h'
  | ok u => exact h.trans h'

/-! ## Processing -/

/-- What the source has for a scope is set and checked. -/
theorem checkStore_changes {m : Module} (hm : b.reactor.get? m.key = some m) {features : FeatureMap}
    (loads : b.load m scope = .ok features) (h : b.Changes p q) :
    Ends False (b.checkStore m.key)
      (q.onSession fun s => s.modifyStore m.key fun t => t.setRaw scope features)
      (either (fun _ q' => b.Changes p q' ∧ (q'.session.state m.key scope).raw = b.sourced m.key scope)
        fun _ q' => b.Changes p q') := by
  have source : b.sourced m.key scope = features := sourced_of_load hm loads
  have set : b.Changes p (q.onSession fun s => s.modifyStore m.key fun t => t.setRaw scope features) := by
    refine h.tail (.read (fun location f hf => ?_) (RawSet.setRaw q.session m.key scope features))
    rw [← source] at hf
    exact .inl hf
  refine ends_checkStore m.key (fun _ => ⟨set, ?_⟩) fun e _ => set.tail (.report _)
  rw [source]
  exact q.session.raw_setRaw m.key scope features

theorem attachPackagedUnit_changes {m : Module} (hm : b.reactor.get? m.key = some m) (h : b.Changes p q)
    (raw : (q.session.state m.key .main).raw = b.sourced m.key .main) :
    Ends False (b.attachPackagedUnit m) q fun _ q' => b.Changes p q' := by
  have unit : b.withUnit m ((q.session.store m.key).raw .main) = b.prepared m.key .main := by
    rw [prepared_main hm, ← raw]
    rfl
  refine ends_attachPackagedUnit m (fun s stores references dependencies diagnostics => ?_)
    fun l => h.tail (.report _)
  rw [unit] at stores
  have reads : RawSet m.key .main (b.prepared m.key .main) q.session s :=
    (RawSet.setRaw q.session m.key .main _).of_store_eq stores references dependencies diagnostics
  exact h.tail (.read (fun _ _ hf => .inr hf) reads)

/-- **A marked scope is changed**, whether it is read or not. -/
theorem processMarked_changes (hb : b.Regular) (hc : calls.Change b) {m : Module}
    {dependencies : List Dependency} (hm : b.reactor.get? m.key = some m) (hp : b.Genuine p.session) :
    Ends False (b.processMarked calls (m.dependingOn dependencies) scope) p
      fun _ q => b.Changes p q := by
  have asked : b.Changes p (p.note (.loaded m.key dependencies scope)) := .single (.note trivial)
  let checked (q : Progress) : Prop :=
    b.Changes p q ∧ (q.session.state m.key scope).raw = b.sourced m.key scope
  refine ends_processMarked m dependencies scope checked (b.Changes p) (b.Changes p) (b.Changes p)
    (fun _ _ => .refl) (fun _ _ => asked) ?check ?attach (fun q _ h => h.1) ?assemble ?aggregate
    fun q h => h.tail (.augment m.key scope)
  case check =>
    intro features _ loads
    rw [load_dependingOn hb.ignores] at loads
    exact checkStore_changes hm loads asked
  case attach =>
    rintro q rfl ⟨h, raw⟩
    refine (attachPackagedUnit_changes hm h raw).mono fun r q' h' => ?_
    cases r with
    | error e => exact h'
    | ok u => exact h'
  case assemble =>
    intro q h
    refine (assembleAll_changes hb hc (h.genuine hp)).mono fun r q' h' => ?_
    cases r with
    | error e => exact h.trans h'
    | ok u => exact h.trans h'
  case aggregate =>
    intro q h
    refine (buildAggregates_changes m).mono fun r q' h' => ?_
    cases r with
    | error e => exact h.trans h'
    | ok u => exact h.trans h'

theorem processWith_changes (hb : b.Regular) (hc : calls.Change b) (hp : b.Genuine p.session) :
    Ends False (b.processWith calls key scope) p fun _ q => b.Changes p q := by
  have marked : b.Changes p (p.onSession fun s => s.modifyStore key fun t => t.markProcessed scope) :=
    .single (.mark key scope)
  have open_ : b.Changes p (opened key scope p) := marked.tail (.note trivial)
  have genuine := Changes.genuine open_ hp
  refine ends_processWith key scope (fun _ => .refl) (fun _ _ _ => .refl) (fun m hm _ _ => ?main)
    fun m hm _ _ => ?test
  case main =>
    obtain ⟨-, rfl⟩ := mem_modules_of_get? hm
    exact (processMarked_changes hb hc hm genuine).mono fun r q h => open_.trans h
  case test =>
    obtain ⟨-, rfl⟩ := mem_modules_of_get? hm
    refine (hc.process genuine).mono fun r q h => ?_
    cases r with
    | error e => exact open_.trans h
    | ok u =>
      exact (processMarked_changes hb hc hm (h.genuine genuine)).mono fun r q' h' => (open_.trans h).trans h'

/-! ## Looking -/

theorem processReleased_changes (hc : calls.Change b) (hp : b.Genuine p.session) :
    Ends False (processReleased calls id key scope) p fun _ q => b.Changes p q := by
  have left : b.Changes p (p.leave id) := .single (.leave id)
  refine ends_processReleased id key scope ((hc.process (p := p.leave id) hp).mono fun r q h => ?_)
  exact (left.trans h).tail (.enter id)

theorem lookIn_changes (hb : b.Regular) (hc : calls.Change b) (hp : b.Genuine p.session)
    (wanted : Scope) (scopes : List Scope) :
    Ends False (b.lookIn calls key wanted id scopes) p fun _ q => b.Changes p q := by
  induction scopes generalizing p with
  | nil => exact ends_lookIn_nil key wanted id .refl
  | cons scope rest ih =>
    refine ends_lookIn_cons key wanted id scope rest (b.Changes p) (fun _ => ?open_) (fun _ => .refl)
      (fun _ _ _ h _ => h) (fun q h _ _ => (ih (h.genuine hp)).mono fun r q' h' => h.trans h')
      fun q location f h _ found => ?raw
    case open_ =>
      refine (processReleased_changes hc hp).mono fun r q h => ?_
      cases r with
      | error e => exact h
      | ok u => exact h
    case raw =>
      have there := SortedMap.get?_of_mem (List.mem_of_find?_eq_some found)
      have raw : b.RawAt ⟨key, scope, location⟩ f := h.genuine hp ⟨key, scope, location⟩ f there
      refine (merge_changes hb hc (h.genuine hp) location f).mono fun r q' h' => ?_
      cases r with
      | error e => exact h.trans h'
      | ok g => exact (h.trans h').tail (.record raw g)

theorem find_changes (hb : b.Regular) (hc : calls.Change b) (hp : b.Genuine p.session) :
    Ends False (b.find calls key scope id) p fun _ q => b.Changes p q := by
  have asked : b.Changes p (p.note (.fetched id)) := .single (.note trivial)
  refine ends_find key scope id (fun _ => lookIn_changes hb hc hp scope _) (fun _ _ => ?other)
    (fun _ _ _ _ => asked) (fun _ _ _ _ _ => asked) fun _ _ _ _ _ => asked
  refine (processReleased_changes hc hp).mono fun r q h => ?_
  cases r with
  | error e => exact h
  | ok u => exact (lookIn_changes hb hc (h.genuine hp) scope _).mono fun r q' h' => h.trans h'

theorem provideWith_changes (hb : b.Regular) (hc : calls.Change b) (hp : b.Genuine p.session) :
    Ends False (b.provideWith calls key scope id) p fun _ q => b.Changes p q := by
  refine ends_provideWith key scope id (fun _ => ?cycle) fun _ => ?ask
  case cycle =>
    have reported : b.Changes p (p.onSession fun s => s.report (.cycle key id)) := .single (.report _)
    exact reported.tail (.note trivial)
  case ask =>
    have entered : b.Changes p (p.enter id) := .single (.enter id)
    refine (find_changes hb hc (p := p.enter id) hp).mono fun r q h => ?_
    have found := entered.trans h
    cases r with
    | error e => exact (found.tail (.leave id)).tail (.note trivial)
    | ok result =>
      cases result with
      | none =>
        have reported := found.tail (.report (.notFound key id))
        have missed := reported.tail (.note (e := .missing key scope id) trivial)
        exact (missed.tail (.leave id)).tail (.note trivial)
      | some f => exact (found.tail (.leave id)).tail (.answer key scope id f)

/-! ## Whole builds -/

/-- **Calls make changes only**, at any depth. -/
theorem calls_change (hb : b.Regular) : ∀ depth, (b.calls depth).Change b
  | 0 => ⟨fun _ => id, fun _ => id⟩
  | depth + 1 =>
    have hc := calls_change hb depth
    ⟨processWith_changes hb hc, provideWith_changes hb hc⟩

/-- **The processing of a scope makes changes only**, however it ends. -/
theorem process_changes (hb : b.Regular) {s : Session} (hs : b.Genuine s) {o : Outcome}
    (ho : b.process s key scope = some o) :
    ∃ held, b.Changes ⟨s, .empty, []⟩ ⟨o.session, held, o.events.reverse⟩ := by
  obtain ⟨depth, r, q, hx, rfl⟩ := exists_depth_of_process ho
  refine ⟨q.inFlight, ?_⟩
  rw [List.reverse_reverse]
  exact ((calls_change hb depth).process (p := ⟨s, .empty, []⟩) hs).of_eq_some hx

theorem genuine_of_reached (hb : b.Regular) {s : Session} (h : s.Reached b.reactor (· = b)) :
    b.Genuine s := fun _ _ => (honest_of_reached hb h).raw

/-- **What every change of a session keeps**, and a fresh one has, every session has that builds come
to. -/
theorem keeps_of_reached (hb : b.Regular) {I : Session → Prop} (start : I (.start b.reactor))
    (step : ∀ p q, b.Genuine p.session → b.Change p q → I p.session → I q.session) {s : Session}
    (h : s.Reached b.reactor (· = b)) : I s := by
  induction h with
  | start => exact start
  | @process b' s key scope o reached admitted ends ih =>
    subst admitted
    have genuine := genuine_of_reached hb reached
    obtain ⟨held, changes⟩ := process_changes hb genuine ends
    exact (changes.keeps (I := fun p => I p.session) step genuine ih).2

end Build

end FeatureAssembly
