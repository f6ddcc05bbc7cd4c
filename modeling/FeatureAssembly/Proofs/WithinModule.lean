import FeatureAssembly.Proofs.BuildOrder
import FeatureAssembly.Proofs.Paths

/-!
# Work within one module

What is done in the middle of a merge, where all that a module refers to is there already.

**The law** (`Build.process_conducts`): if modules reach, along declared dependencies, the modules
that their raw features refer to, then processing a scope opens and reads that scope and no other,
and merges features of its module only, whenever all that the module reaches is served, that is,
marked and assembled.

A lookup in a served module finds what it asks for, or that it is not there, and changes nothing. So
it is stated for one provision (`Calls.KeepTo`) and shown by induction on the depth.

What it does not establish: that what a module reaches is served at any time, or that processing goes
well.
-/

set_option autoImplicit false

namespace FeatureAssembly

open Relation Step

/-- **Only such things are done** from one progress to another. -/
def Progress.Adds (kind : Event → Prop) (p p' : Progress) : Prop :=
  ∃ new, p'.trace = new ++ p.trace ∧ ∀ e ∈ new, kind e

namespace Progress.Adds

variable {kind : Event → Prop} {p p' p'' : Progress}

theorem refl (kind : Event → Prop) (p : Progress) : p.Adds kind p :=
  ⟨[], rfl, List.forall_mem_nil _⟩

theorem trans (h : p.Adds kind p') (h' : p'.Adds kind p'') : p.Adds kind p'' := by
  obtain ⟨new, trace, all⟩ := h
  obtain ⟨new', trace', all'⟩ := h'
  refine ⟨new' ++ new, by rw [trace', trace, List.append_assoc], fun e he => ?_⟩
  rcases List.mem_append.1 he with he | he
  · exact all' e he
  · exact all e he

theorem note (h : p.Adds kind p') {e : Event} (he : kind e) : p.Adds kind (p'.note e) := by
  obtain ⟨new, trace, all⟩ := h
  refine ⟨e :: new, congrArg (e :: ·) trace, fun e' he' => ?_⟩
  rcases List.mem_cons.1 he' with rfl | he'
  · exact he
  · exact all e' he'

/-- What is not in the trace does not count. -/
theorem of_trace_eq {q q' : Progress} (h : p.Adds kind p') (hq : q.trace = p.trace)
    (hq' : q'.trace = p'.trace) : q.Adds kind q' := by
  unfold Progress.Adds at h ⊢
  rwa [hq, hq']

end Progress.Adds

namespace Build

variable {b : Build} {calls : Calls} {p p' : Progress} {s : Session} {key : ModuleKey} {scope : Scope}

/-- **What is done within a module**: nothing is opened or read, and merged are features of the
module only. -/
def Within (key : ModuleKey) : Event → Prop
  | .opened .. | .loaded .. => False
  | .merging module .. => module = key
  | _ => True

/-- **What a module reaches is served**: it is marked and has its raw features assembled. -/
def Served (b : Build) (key : ModuleKey) (s : Session) : Prop :=
  ∀ other, b.reactor.Reaches key other → ∀ scope,
    (s.state other scope).processed = true ∧ b.RawDone s other scope

theorem Served.mono {s' : Session} (h : b.Served key s)
    (marks : ∀ other scope, (s.state other scope).processed = true →
      (s'.state other scope).processed = true)
    (retains : s.Retains s') : b.Served key s' := by
  intro other reaches scope
  obtain ⟨marked, done⟩ := h other reaches scope
  exact ⟨marks other scope marked, done.mono retains⟩

theorem Served.of_extends {s' : Session} (h : b.Served key s) (hs : s.Extends scope s') : b.Served key s' :=
  h.mono (fun other scope => (hs.state other scope).processed) hs.retains

/-- **Dependencies are declared**: a module reaches every module that its raw features refer to,
whatever the source has for the dependencies that are added to it. -/
def Declared (b : Build) : Prop :=
  ∀ m ∈ b.reactor.modules, ∀ dependencies scope features location f prototype,
    b.source (m.dependingOn dependencies) scope = .ok features → features.get? location = some f →
      f.assembled = false → f.prototype = some prototype → prototype.id.moduleKey ≠ m.key →
        b.reactor.contains prototype.id.moduleKey = true → b.reactor.Reaches m.key prototype.id.moduleKey

theorem Declared.asAnswered (declared : b.Declared) (l : List Event) : (b.asAnswered l).Declared :=
  fun m hm _ scope features location f prototype =>
    declared m hm _ scope features location f prototype

theorem Declared.reaches (declared : b.Declared) {n : Site} {id : Identity} (request : b.Requests n id)
    (foreign : id.moduleKey ≠ n.module) (owned : b.reactor.contains id.moduleKey = true) :
    b.reactor.Reaches n.module id.moduleKey := by
  obtain ⟨f, prototype, hf, unmarked, derived, rfl⟩ := request
  obtain ⟨m, features, known, taken, found⟩ := exists_source hf
  obtain ⟨hm, same⟩ := mem_modules_of_get? known
  rw [← same] at foreign ⊢
  exact declared m hm m.dependencies n.scope features n.location f prototype taken found unmarked derived
    foreign owned

end Build

/-- **Calls that keep to the module** that asks, once what it reaches is served. -/
structure Calls.KeepTo (calls : Calls) (b : Build) : Prop where
  provide : ∀ {n id p}, b.Works n p → b.Requests n id → b.Served n.module p.session →
    Ends False (calls.provide n.module n.scope id) p fun _ p' => p.Adds (Build.Within n.module) p'

namespace Build

variable {b : Build} {calls : Calls} {p p' : Progress} {s : Session} {key : ModuleKey} {scope : Scope}

/-! ## Assembling -/

theorem merge_keepsTo (hb : b.Regular) (hk : calls.KeepTo b) {n : Site} {f : Feature}
    (hf : (b.prepared n.module n.scope).get? n.location = some f) (hw : b.Works n p)
    (hs : b.Served n.module p.session) :
    Ends False (b.merge calls n.module n.scope n.location f) p fun _ p' =>
      p.Adds (Within n.module) p' := by
  have begun : p.Adds (Within n.module) (p.note (.merging n.module n.scope n.location f.id)) :=
    (Progress.Adds.refl _ p).note rfl
  refine ends_merge hb.merger n.module n.scope n.location f (fun _ => begun.note trivial)
    (fun _ _ => begun.note trivial) fun prototype unmarked derived => ?_
  have request : b.Requests n prototype.id := requests_of_prepared hf unmarked derived
  refine (hk.provide (p := p.note _) ⟨hw.sound, hw.marked, hw.leads⟩ request hs).mono fun r q h => ?_
  exact (begun.trans h).note trivial

theorem assembleAt_keepsTo (hb : b.Regular) (hk : calls.KeepTo b) {e : String × Feature}
    (he : (b.prepared key scope).get? e.1 = some e.2) (hs : b.Sound scope none p.session)
    (hl : b.LedTo key scope p.inFlight) (hm : Marked key scope p) (served : b.Served key p.session) :
    Ends False (b.assembleAt calls key scope e) p fun _ p' => p.Adds (Within key) p' := by
  refine ends_assembleAt_begins he hs hl hm (fun _ _ => .refl _ _) fun p₁ back lent begins => ?_
  have served₁ : b.Served key p₁.session := by
    rw [lent.session]
    exact served
  refine (merge_keepsTo (n := ⟨key, scope, e.1⟩) hb hk he begins.toWorks served₁).mono fun r q h => ?_
  have behind : p.Adds (Within key) (back q) := h.of_trace_eq lent.trace.symm (lent.back_trace q)
  cases r with
  | error err => exact behind
  | ok g => exact behind

/-- **The raw features of an opened scope** are assembled, with nothing done elsewhere. -/
theorem assembleAll_keepsTo (hb : b.Regular) (hc : calls.Maintain b) (hk : calls.KeepTo b)
    (hs : b.Sound scope none p.session) (hl : b.LedTo key scope p.inFlight) (hm : Marked key scope p)
    (served : b.Served key p.session) :
    Ends False (((p.session.store key).raw scope).entries.forM (b.assembleAt calls key scope)) p
      fun _ p' => p.Adds (Within key) p' := by
  have opened := hs.opened_of_marked (mem_visible_self scope) hm.self
  rw [show (p.session.store key).raw scope = b.prepared key scope from opened.raw]
  refine ends_forM (fun _ q => b.Goes scope p q ∧ p.Adds (Within key) q) ⟨.refl hs, .refl _ _⟩
    (fun _ h => h.2) fun e rest q he h => ?_
  obtain ⟨goes, adds⟩ := h
  have here := SortedMap.get?_of_mem he
  have led : b.LedTo key scope q.inFlight := by
    rw [goes.2]
    exact hl
  have marked := hm.mono goes.1.grows
  refine ((assembleAt_maintains hb hc here goes.1.sound led marked).and
    (assembleAt_keepsTo hb hk here goes.1.sound led marked (served.of_extends goes.1.grows))).mono fun r q' h' => ?_
  cases r with
  | error err => exact adds.trans h'.2
  | ok u => exact ⟨goes.trans h'.1.1, adds.trans h'.2⟩

theorem buildAggregates_keepsTo (key : ModuleKey) (m : Module) (scope : Scope) :
    Ends False (b.buildAggregates m scope) p fun _ p' => p.Adds (Within key) p' := by
  refine ends_forM (fun _ q => p.Adds (Within key) q) (.refl _ _) (fun _ h => h) fun d rest q _ h => ?_
  have aggregated : p.Adds (Within key) (q.note (.aggregated (aggregateIdentity m d)
      ((aggregateParts (q.session.store m.key) d).map Feature.id))) := h.note trivial
  exact ends_buildAggregate m d (fun _ => h) h fun _ _ => aggregated

/-! ## Looking -/

/-- **A look in a module**: what it comes to is known, or the module is the one that asks. -/
theorem Seeks.looks_keepsTo (hb : b.Regular) (hk : calls.KeepTo b) {n : Site} {id : Identity}
    (served : b.Served n.module p.session)
    (owner : id.moduleKey = n.module ∨ ∀ scope, b.RawDone p.session id.moduleKey scope) :
    b.Looks calls n id p fun _ q => p.Adds (Within n.module) q := by
  refine ⟨fun _ _ => .refl _ _, fun n' f own located named begins => ?_, fun _ => .refl _ _⟩
  rcases owner with owner | done
  · have same : n'.module = n.module := own.trans owner
    have served' : b.Served n'.module p.session := by
      rw [same]
      exact served
    refine (merge_keepsTo (n := n') hb hk begins.prepared begins.toWorks served').mono fun r q h => ?_
    rw [same] at h
    cases r with
    | error e => exact h
    | ok g => exact h
  · -- What is served has nothing left to be merged.
    obtain ⟨g, hg⟩ := done n'.scope n'.location f (own ▸ begins.prepared)
    rw [← own, begins.fresh] at hg
    cases hg

theorem find_keepsTo (hb : b.Regular) (hc : calls.Maintain b) (hk : calls.KeepTo b)
    (declared : b.Declared) {n : Site} {id : Identity} (hs : b.Seeks n id p) (hm : Marked n.module n.scope p)
    (served : b.Served n.module p.session) :
    Ends False (b.find calls n.module n.scope id) p fun _ q => p.Adds (Within n.module) q := by
  have fetched : p.Adds (Within n.module) (p.note (.fetched id)) := (Progress.Adds.refl _ p).note trivial
  refine ends_find n.module n.scope id (fun own => ?own) (fun foreign owned => ?other)
    (fun _ _ _ _ => fetched) (fun _ _ _ _ _ => fetched) fun _ _ _ _ _ => fetched
  case own =>
    have owned : b.reactor.contains id.moduleKey = true := by
      obtain ⟨f, _, hf, -⟩ := hs.request
      rw [own]
      exact contains_of_get?_sourced hf
    have look := Seeks.looks_keepsTo hb hk served (.inl own)
    rw [← own] at hm ⊢
    rw [← own] at look
    exact hs.ends_lookIn hc owned hm look
  case other =>
    have reaches := served id.moduleKey (declared.reaches hs.request foreign owned)
    have marked : Marked id.moduleKey n.scope p := fun scope' _ => (reaches scope').1
    refine ends_processReleased id id.moduleKey n.scope ?_
    refine (hc.done (p := p.leave id) owned (reaches n.scope).1).mono fun r q h => ?_
    obtain ⟨rfl, rfl⟩ := h
    -- The owner is marked, so this leaves everything alone.
    show Ends False (b.lookIn calls id.moduleKey n.scope id n.scope.visible) ((p.leave id).enter id) _
    rw [enter_leave hs.held]
    have look := Seeks.looks_keepsTo hb hk served (.inr fun scope => (reaches scope).2)
    exact hs.ends_lookIn hc owned marked look

theorem provideWith_keepsTo (hb : b.Regular) (hc : calls.Maintain b) (hk : calls.KeepTo b)
    (declared : b.Declared) {n : Site} {id : Identity} (hw : b.Works n p) (request : b.Requests n id)
    (served : b.Served n.module p.session) :
    Ends False (b.provideWith calls n.module n.scope id) p fun _ q => p.Adds (Within n.module) q := by
  refine ends_provideWith n.module n.scope id (fun _ => ?cycle) fun _ => ?ask
  case cycle =>
    have reported : p.Adds (Within n.module) (p.onSession fun s => s.report (.cycle n.module id)) := .refl _ _
    exact reported.note trivial
  case ask =>
    have seeks := hw.seeks request
    refine (find_keepsTo hb hc hk declared seeks hw.marked served).mono fun r q h => ?_
    have h : p.Adds (Within n.module) q := h
    cases r with
    | error e =>
      have left : p.Adds (Within n.module) (q.leave id) := h
      exact left.note trivial
    | ok found =>
      cases found with
      | none =>
        have missed : p.Adds (Within n.module) (q.note (.missing n.module n.scope id)) := h.note trivial
        have left : p.Adds (Within n.module) (((q.onSession fun s => s.report (.notFound n.module id)).note
          (.missing n.module n.scope id)).leave id) := missed
        exact left.note trivial
      | some f =>
        have left : p.Adds (Within n.module) ((q.leave id).onSession (withReference n.module id)) := h
        exact left.note trivial

/-- **Calls keep to the module** that asks, at any depth, where dependencies are declared. -/
theorem calls_keepTo (hb : b.Regular) (declared : b.Declared) :
    ∀ depth, (b.calls depth).KeepTo b
  | 0 => ⟨fun _ _ _ => id⟩
  | depth + 1 =>
    ⟨provideWith_keepsTo hb (calls_maintain hb depth) (calls_keepTo hb declared depth) declared⟩

/-! ## Processing -/

theorem checkStore_trace (key : ModuleKey) :
    Ends False (b.checkStore key) p fun _ q => q.trace = p.trace :=
  ends_checkStore key (fun _ => rfl) fun _ _ => rfl

theorem attachPackagedUnit_trace (m : Module) :
    Ends False (b.attachPackagedUnit m) p fun _ q => q.trace = p.trace :=
  ends_attachPackagedUnit m (fun _ _ _ _ _ => rfl) fun _ => rfl

/-- **A marked scope** is not read for an error in the declarations, or it is read and then all is
done within the module. -/
theorem processMarked_keepsTo (hb : b.Regular) (hc : calls.Maintain b) (hk : calls.KeepTo b)
    {m : Module} {dependencies : List Dependency} (known : b.reactor.get? m.key = some m)
    (hs : b.Sound scope (some (m.key, scope)) p.session) (hm : Marked m.key scope p)
    (hl : b.LedTo m.key scope p.inFlight) (served : b.Served m.key p.session) :
    Ends False (b.processMarked calls (m.dependingOn dependencies) scope) p fun r q =>
      (r ≠ .ok () ∧ q.trace = p.trace) ∨
        (p.note (.loaded m.key dependencies scope)).Adds (Within m.key) q := by
  let read := p.note (.loaded m.key dependencies scope)
  have nothing : ∀ {q : Progress}, q.trace = read.trace → read.Adds (Within m.key) q := fun trace =>
    (Progress.Adds.refl _ read).of_trace_eq rfl trace
  let attached : Progress → Prop := fun q => (b.Sound scope none q.session ∧ Same p q) ∧ q.trace = read.trace
  refine ends_processMarked m dependencies scope (fun q => b.Checked m.key scope p q ∧ q.trace = read.trace) attached
    (read.Adds (Within m.key)) (read.Adds (Within m.key)) (fun _ _ => .inl ⟨nofun, rfl⟩)
    (fun _ _ => .inr (nothing rfl)) ?check ?attach ?pass ?assemble ?aggregate
    fun q h => .inr (h.of_trace_eq rfl rfl)
  case check =>
    intro features classified hf
    rw [load_dependingOn hb.ignores] at hf
    refine ((checkStore_maintains known classified hf hs).and (checkStore_trace m.key)).mono fun r q h => ?_
    cases r with
    | error e => exact .inr (nothing h.2)
    | ok u => exact h
  case attach =>
    rintro q rfl ⟨checked, trace⟩
    refine ((attachPackagedUnit_maintains known hm checked).and (attachPackagedUnit_trace m)).mono
      fun r q' h => ?_
    cases r with
    | error e => exact .inr (nothing (h.2.trans trace))
    | ok u => exact ⟨h.1, h.2.trans trace⟩
  case pass =>
    rintro q rfl ⟨checked, trace⟩
    have contained : b.reactor.contains m.key = true := Option.isSome_iff_exists.2 ⟨m, known⟩
    have raw := checked.raw.trans (prepared_test m.key).symm
    exact ⟨⟨checked.sound.opens contained raw checked.distinct (checked.same.marked hm), checked.same⟩, trace⟩
  case assemble =>
    rintro q ⟨⟨sound, same⟩, trace⟩
    have led : b.LedTo m.key scope q.inFlight := by
      rw [same.inFlight]
      exact hl
    have served' := served.mono (fun other scope hp => (same.processed other scope).trans hp) same.retains
    refine (assembleAll_keepsTo hb hc hk sound led (same.marked hm) served').mono fun r q' h => ?_
    have adds : read.Adds (Within m.key) q' := (nothing trace).trans h
    cases r with
    | error e => exact .inr adds
    | ok u => exact adds
  case aggregate =>
    intro q adds
    refine (buildAggregates_keepsTo m.key m scope).mono fun r q' h => ?_
    cases r with
    | error e => exact .inr (adds.trans h)
    | ok u => exact adds.trans h

/-- **What processing one scope does**, in the order in which it is done: it is refused before it is
read, or it is opened and read, and the rest is done within the module. -/
inductive Conducts (key : ModuleKey) (scope : Scope) : Except AssemblyError Unit → List Event → Prop
  | refused {e : AssemblyError} {events : List Event} (early : events <+: [.opened key scope]) :
      Conducts key scope (.error e) events
  | read {r : Except AssemblyError Unit} {dependencies : List Dependency} {rest : List Event}
      (within : ∀ e ∈ rest, Within key e) :
      Conducts key scope r (.opened key scope :: .loaded key dependencies scope :: rest)

/-- **A scope has its turn**: it is not marked, what its module reaches is served, and main is marked
if it is test. -/
structure Due (b : Build) (s : Session) (key : ModuleKey) (scope : Scope) : Prop where
  known : b.reactor.contains key = true
  fresh : (s.state key scope).processed = false
  served : b.Served key s
  behind : scope = .test → (s.state key .main).processed = true

/-- **Processing a scope that has its turn** opens and reads that scope, and no other. -/
theorem process_conducts (hb : b.Regular) (declared : b.Declared) (hs : b.Steady s)
    (due : b.Due s key scope) {o : Outcome} (ho : b.process s key scope = some o) :
    Conducts key scope o.result o.events := by
  obtain ⟨depth, r, q, hx, rfl⟩ := exists_depth_of_process ho
  cases depth with
  | zero => cases hx
  | succ depth =>
    have hc := calls_maintain hb depth
    have hk := calls_keepTo hb declared depth
    have none_led : b.LedTo key scope .empty := fun id hi => by cases hi
    have opens : b.Served key (opened key scope ⟨s, .empty, []⟩).session := due.served.of_extends
      ((Session.Extends.refl scope s).markProcessed key)
    suffices ends : Ends False (b.processWith (b.calls depth) key scope) ⟨s, .empty, []⟩
        fun r q => Conducts key scope r q.trace.reverse from ends.of_eq_some hx
    refine Sound.ends_processWith hc (hs.sound.inner (mem_visible_test scope)) none_led
      (fun q => q.trace = [.opened key scope] ∧ b.Served key q.session) ?unknown (fun marked => ?done)
      (fun _ _ _ => ⟨rfl, opens⟩) ?test ?next
    case unknown => exact .refused (List.nil_prefix)
    case done => cases due.fresh.symm.trans marked.self
    case test =>
      rintro known - rfl - -
      have marked : ((opened key .test ⟨s, .empty, []⟩).session.state key .main).processed = true :=
        (s.processed_markProcessed key key .test .main).2 (.inr (due.behind rfl))
      refine (hc.done (p := opened key .test ⟨s, .empty, []⟩) known marked).mono fun r q h => ?_
      obtain ⟨rfl, rfl⟩ := h
      exact ⟨rfl, opens⟩
    case next =>
      rintro m q rfl known - ⟨trace, served⟩ opening
      have led : b.LedTo m.key scope q.inFlight := by
        rw [opening.inFlight]
        exact none_led
      refine (processMarked_keepsTo hb hc hk known opening.sound opening.marked led served).mono fun r q' h => ?_
      rcases h with ⟨failed, unread⟩ | ⟨new, added, within⟩
      · rw [unread, trace]
        cases r with
        | error e => exact .refused (List.prefix_rfl)
        | ok u => exact absurd rfl failed
      · have order : q'.trace.reverse =
            .opened m.key scope :: .loaded m.key (s.dependenciesOf m.key) scope :: new.reverse := by
          rw [added, Progress.note, trace]
          simp
        rw [order]
        exact .read fun e he => within e (List.mem_reverse.1 he)

end Build

end FeatureAssembly
