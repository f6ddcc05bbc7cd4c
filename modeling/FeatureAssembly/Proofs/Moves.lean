import FeatureAssembly.Proofs.Soundness

/-!
# The moves of a build

A build seen from outside: it goes from stage to stage, and each move changes little. A stage
is what is known and what was done so far, with what the build is in the middle of
(`Build.Agenda`); a move says what it changes and what holds when it is made (`Build.Move`).
A build that fails stops at some stage (`Build.Halt`), and behind that only says of what it was
in the middle of that it is over.

**The law** (`Build.processEach_follows`): whatever is processed in turn, the build goes from
stage to stage by these moves, all the way if it succeeds and up to where it stops if not. So
what every move keeps holds of every build, and the nesting of processing, looking and merging
is gone through once.

What it does not establish: that each of these moves can be made by some build. A move is
allowed to more stages than it is made from.
-/

set_option autoImplicit false

namespace FeatureAssembly

open Relation Step

namespace Build

variable {b : Build}

/-! ## Stages -/

/-- **What a build is in the middle of**, innermost first. -/
structure Agenda where
  /-- The scopes that are marked and not read yet. -/
  waiting : List (ModuleKey × Scope)
  /-- The scopes that are read and not complete yet. -/
  scopes : List (ModuleKey × Scope)
  /-- The sites that are being merged. -/
  sites : List Site

namespace Agenda

def empty : Agenda := ⟨[], [], []⟩

def await (a : Agenda) (key : ModuleKey) (scope : Scope) : Agenda :=
  { a with waiting := (key, scope) :: a.waiting }

def workOn (a : Agenda) (key : ModuleKey) (scope : Scope) : Agenda :=
  { a with scopes := (key, scope) :: a.scopes }

def mergeAt (a : Agenda) (n : Site) : Agenda := { a with sites := n :: a.sites }

/-- **Test is kept apart from main**: nothing is done on behalf of test in the middle of a main
scope. -/
def Apart (a : Agenda) (scope : Scope) : Prop :=
  scope = .test → ∀ key, (key, .main) ∉ a.waiting ∧ (key, .main) ∉ a.scopes

theorem apart_main (a : Agenda) : a.Apart .main := nofun

theorem apart_empty (scope : Scope) : empty.Apart scope := fun _ _ => ⟨nofun, nofun⟩

/-- What is done on behalf of a scope is done on behalf of what it sees. -/
theorem Apart.narrow {a : Agenda} {scope scope' : Scope} (h : a.Apart scope)
    (hv : scope' ∈ scope.visible) : a.Apart scope' := by
  rintro rfl
  cases scope with
  | main => exact absurd (List.mem_singleton.1 hv) nofun
  | test => exact h rfl

theorem Apart.workOn {a : Agenda} {scope : Scope} (h : a.Apart scope) (key : ModuleKey) :
    (a.workOn key scope).Apart scope := by
  rintro rfl key'
  obtain ⟨waiting, scopes⟩ := h rfl key'
  exact ⟨waiting, by simp [Agenda.workOn, scopes]⟩

end Agenda

/-- **A stage of a build**. -/
structure Stage where
  session : Session
  /-- What was done, last thing first. -/
  trace : List Event
  agenda : Agenda

/-! ## Moves -/

/-- **The raw features of a scope are set**, and nothing else is changed. -/
structure RawSet (key : ModuleKey) (scope : Scope) (features : FeatureMap) (s s' : Session) : Prop where
  state : ∀ key' scope', s'.state key' scope' =
    if key' = key ∧ scope' = scope then { s.state key scope with raw := features }
    else s.state key' scope'
  references : s'.references = s.references
  dependencies : s'.dependencies = s.dependencies
  diagnostics : s'.diagnostics = s.diagnostics

namespace RawSet

variable {key : ModuleKey} {scope : Scope} {features features' : FeatureMap} {s s' s'' : Session}

theorem setRaw (s : Session) (key : ModuleKey) (scope : Scope) (features : FeatureMap) :
    RawSet key scope features s (s.modifyStore key fun t => t.setRaw scope features) :=
  ⟨fun key' scope' => s.state_modifyStore key key' scope scope' _, rfl, rfl, rfl⟩

theorem trans (h : RawSet key scope features s s') (h' : RawSet key scope features' s' s'') :
    RawSet key scope features' s s'' where
  state key' scope' := by
    rw [h'.state, h.state, h.state]
    split
    · simp
    · rfl
  references := h'.references.trans h.references
  dependencies := h'.dependencies.trans h.dependencies
  diagnostics := h'.diagnostics.trans h.diagnostics

/-- A session that looks the same. -/
theorem of_store_eq (h : RawSet key scope features s s') (hs : ∀ key, s''.store key = s'.store key)
    (hr : s''.references = s'.references) (hd : s''.dependencies = s'.dependencies)
    (hi : s''.diagnostics = s'.diagnostics) : RawSet key scope features s s'' where
  state key' scope' := (Session.state_eq_of_store_eq hs key' scope').trans (h.state key' scope')
  references := hr.trans h.references
  dependencies := hd.trans h.dependencies
  diagnostics := hi.trans h.diagnostics

theorem processed (h : RawSet key scope features s s') (key' : ModuleKey) (scope' : Scope) :
    (s'.state key' scope').processed = (s.state key' scope').processed := by
  rw [h.state]
  split
  · next hk => rw [hk.1, hk.2]
  · rfl

theorem assembled (h : RawSet key scope features s s') (key' : ModuleKey) (scope' : Scope) :
    (s'.state key' scope').assembled = (s.state key' scope').assembled := by
  rw [h.state]
  split
  · next hk => rw [hk.1, hk.2]
  · rfl

end RawSet

/-- **A scope is ready** to have features assembled: all is sound on its behalf, and the scopes
that it sees are marked. -/
structure Ready (b : Build) (key : ModuleKey) (scope : Scope) (s : Session) : Prop where
  sound : b.Sound scope none s
  marked : ∀ scope' ∈ scope.visible, (s.state key scope').processed = true

/-- **There is no feature with an identity** to be had for a scope: its owner has no raw one, or
the loader has none if no module owns it. -/
structure Nowhere (b : Build) (scope : Scope) (id : Identity) : Prop where
  owned : b.reactor.contains id.moduleKey = true → b.denoted? scope id = none
  foreign : b.reactor.contains id.moduleKey = false → ∃ e, b.loader id = .error e ∧ e.isNotFound = true

/-- **One move of a build.** -/
inductive Move (b : Build) : Stage → Stage → Prop where
  /-- A scope is marked. -/
  | mark {s : Session} {t : List Event} {a : Agenda} {key : ModuleKey} {scope : Scope}
      (known : b.reactor.contains key = true) (unmarked : (s.state key scope).processed = false)
      (apart : a.Apart scope) :
      b.Move ⟨s, t, a⟩
        ⟨s.modifyStore key fun st => st.markProcessed scope, .opened key scope :: t, a.await key scope⟩
  /-- A scope is read, test after main. -/
  | read {s s' : Session} {t : List Event} {a : Agenda} {key : ModuleKey} {scope : Scope}
      {dependencies : List Dependency}
      (seen : ∀ scope' ∈ scope.visible, (s.state key scope').processed = true) (apart : a.Apart scope)
      (reads : RawSet key scope (b.prepared key scope) s s') :
      b.Move ⟨s, t, a.await key scope⟩ ⟨s', .loaded key dependencies scope :: t, a.workOn key scope⟩
  /-- A merge begins. -/
  | begin {s : Session} {t : List Event} {a : Agenda} {n : Site} {f : Feature}
      (prepared : (b.prepared n.module n.scope).get? n.location = some f)
      (fresh : (s.state n.module n.scope).assembled.get? n.location = none) (idle : n ∉ a.sites) :
      b.Move ⟨s, t, a⟩ ⟨s, .merging n.module n.scope n.location f.id :: t, a.mergeAt n⟩
  /-- A merge is over, and what was made is recorded. -/
  | record {s : Session} {t : List Event} {a : Agenda} {n : Site} {f g : Feature}
      (ready : b.Ready n.module n.scope s)
      (prepared : (b.prepared n.module n.scope).get? n.location = some f)
      (made : f.Assembles (b.Supplied s n.scope) g)
      (referred : ∀ id, b.Requests n id → id.isOwnedBy n.module = false →
        (s.referencesOf n.module).contains id = true) :
      b.Move ⟨s, t, a.mergeAt n⟩
        ⟨s.modifyStore n.module fun st => st.recordAssembled n.scope n.location g,
          .merged n.module n.scope n.location :: t, a⟩
  /-- An aggregate is put together of a scope whose raw features are assembled. -/
  | aggregate {s : Session} {t : List Event} {a : Agenda} {m : Module} {d : AggregateDecl}
      (ready : b.Ready m.key d.scope s) (known : b.reactor.get? m.key = some m)
      (declared : d ∈ b.config.aggregatesOf m.key) (raw : b.RawDone s m.key d.scope)
      (fresh : (s.state m.key d.scope).assembled.get? (aggregateKey d.classifier) = none)
      (selected : aggregateParts (s.store m.key) d ≠ []) :
      b.Move ⟨s, t, a.workOn m.key d.scope⟩
        ⟨s.modifyStore m.key fun st => st.recordAssembled d.scope (aggregateKey d.classifier)
            (b.merger.aggregate (aggregateIdentity m d) (aggregateParts (s.store m.key) d)),
          .aggregated (aggregateIdentity m d) ((aggregateParts (s.store m.key) d).map Feature.id) :: t,
          a.workOn m.key d.scope⟩
  /-- A scope is complete, and gives its module the dependencies that it lacks. -/
  | complete {s : Session} {t : List Event} {a : Agenda} {key : ModuleKey} {scope : Scope}
      (ready : b.Ready key scope s) (complete : b.Completed s key scope) :
      b.Move ⟨s, t, a.workOn key scope⟩ ⟨b.augmented key scope s, t, a⟩
  /-- The loader is asked, and has a feature or says that there is none. -/
  | fetch {s : Session} {t : List Event} {a : Agenda} {id : Identity}
      (foreign : b.reactor.contains id.moduleKey = false)
      (fine : ∀ e, b.loader id = .error e → e.isNotFound = true) :
      b.Move ⟨s, t, a⟩ ⟨s, .fetched id :: t, a⟩
  /-- A site gets what it asked for. -/
  | supply {s : Session} {t : List Event} {a : Agenda} {n : Site} {id : Identity} {f : Feature}
      (ready : b.Ready n.module n.scope s) (request : b.Requests n id)
      (supplied : b.Supplied s n.scope id f) :
      b.Move ⟨s, t, a⟩
        ⟨withReference n.module id s, .answered n.module n.scope id (.ok (some f)) :: t, a⟩
  /-- A site gets nothing, for what it asked for is at work already. -/
  | refuse {s : Session} {t : List Event} {a : Agenda} {n : Site} {id : Identity}
      (request : b.Requests n id) :
      b.Move ⟨s, t, a⟩
        ⟨s.report (.cycle n.module id), .answered n.module n.scope id (.ok none) :: t, a⟩
  /-- A site gets nothing, for there is nothing. -/
  | miss {s : Session} {t : List Event} {a : Agenda} {n : Site} {id : Identity}
      (request : b.Requests n id) (absent : b.Nowhere n.scope id) :
      b.Move ⟨s, t, a⟩
        ⟨s.report (.notFound n.module id),
          .answered n.module n.scope id (.ok none) :: .missing n.module n.scope id :: t, a⟩

/-- **From stage to stage.** -/
abbrev Path (b : Build) : Stage → Stage → Prop := ReflTransGen b.Move

/-- **A build stops** at a stage with an error. -/
inductive Halt (b : Build) : Stage → AssemblyError → Stage → Prop where
  /-- Something is not there or not right, and nothing is changed. -/
  | stop (c : Stage) (e : AssemblyError) : b.Halt c e c
  /-- A scope cannot be read, or what is read is refused. -/
  | reject {s s' : Session} {t : List Event} {a : Agenda} {key : ModuleKey} {scope : Scope}
      {dependencies : List Dependency} (e : AssemblyError)
      (seen : ∀ scope' ∈ scope.visible, (s.state key scope').processed = true) (apart : a.Apart scope)
      (told : ∃ ds, s'.diagnostics = s.diagnostics ++ ds ∧ ∀ d ∈ ds, d.kind ≠ .featureNotFound) :
      b.Halt ⟨s, t, a.await key scope⟩ e ⟨s', .loaded key dependencies scope :: t, a.await key scope⟩
  /-- The loader fails. -/
  | outside {s : Session} {t : List Event} {a : Agenda} {id : Identity} {e : LoadError}
      (foreign : b.reactor.contains id.moduleKey = false) (fails : b.loader id = .error e)
      (other : e.isNotFound = false) :
      b.Halt ⟨s, t, a⟩ (.externalResolution id e) ⟨s, .fetched id :: t, a⟩

/-- An event that says that something is over. -/
def Closing : Event → Prop
  | .merged .. => True
  | .answered .. => True
  | _ => False

/-- Nothing is picked from what is over, if nothing of the kind is picked. -/
theorem filterMap_closing {β : Type} {pick : Event → Option β} {closing : List Event}
    (hc : ∀ event ∈ closing, Closing event) (hp : ∀ event, Closing event → pick event = none)
    (t : List Event) : (closing ++ t).filterMap pick = t.filterMap pick := by
  rw [List.filterMap_append, List.filterMap_eq_nil_iff.2 fun event he => hp event (hc event he),
    List.nil_append]

/-- **A build that fails** from a stage: it goes on to where it stops, and what it was in the
middle of is over. -/
def Fails (b : Build) (c : Stage) (e : AssemblyError) (s : Session) (t : List Event) : Prop :=
  ∃ c₁ c₂ closing, b.Path c c₁ ∧ b.Halt c₁ e c₂ ∧ s = c₂.session ∧ t = closing ++ c₂.trace ∧
    ∀ event ∈ closing, Closing event

namespace Fails

variable {c c' : Stage} {e : AssemblyError} {s : Session} {t : List Event}

theorem of_halt {c₁ : Stage} (h : b.Halt c e c₁) : b.Fails c e c₁.session c₁.trace :=
  ⟨c, c₁, [], ReflTransGen.refl, h, rfl, rfl, fun _ hm => nomatch hm⟩

/-- A build that fails later. -/
theorem after (h : b.Fails c' e s t) (path : b.Path c c') : b.Fails c e s t := by
  obtain ⟨c₁, c₂, closing, path', rest⟩ := h
  exact ⟨c₁, c₂, closing, path.trans path', rest⟩

/-- Something more is over. -/
theorem close (h : b.Fails c e s t) {event : Event} (he : Closing event) :
    b.Fails c e s (event :: t) := by
  obtain ⟨c₁, c₂, closing, path, halt, hs, rfl, hc⟩ := h
  refine ⟨c₁, c₂, event :: closing, path, halt, hs, rfl, fun event' hm => ?_⟩
  rcases List.mem_cons.1 hm with rfl | hm
  · exact he
  · exact hc event' hm

end Fails

/-! ## What was done before -/

/-- The stage with other things done before. -/
def Stage.behind (c : Stage) (past : List Event) : Stage := { c with trace := c.trace ++ past }

/-- A move does not depend on what was done before. -/
theorem Move.behind {c c' : Stage} (h : b.Move c c') (past : List Event) :
    b.Move (c.behind past) (c'.behind past) := by
  cases h with
  | mark known unmarked apart => exact .mark known unmarked apart
  | read seen apart reads => exact .read seen apart reads
  | begin prepared fresh idle => exact .begin prepared fresh idle
  | record ready prepared made referred => exact .record ready prepared made referred
  | aggregate ready known declared raw fresh selected =>
    exact .aggregate ready known declared raw fresh selected
  | complete ready complete => exact .complete ready complete
  | fetch foreign fine => exact .fetch foreign fine
  | supply ready request supplied => exact .supply ready request supplied
  | refuse request => exact .refuse request
  | miss request absent => exact .miss request absent

theorem Path.behind {c c' : Stage} (h : b.Path c c') (past : List Event) :
    b.Path (c.behind past) (c'.behind past) :=
  h.lift (Stage.behind · past) fun _ _ hm => hm.behind past

theorem Halt.behind {c c' : Stage} {e : AssemblyError} (h : b.Halt c e c') (past : List Event) :
    b.Halt (c.behind past) e (c'.behind past) := by
  cases h with
  | stop => exact .stop _ e
  | reject e seen apart told => exact .reject e seen apart told
  | outside foreign fails other => exact .outside foreign fails other

theorem Fails.behind {c : Stage} {e : AssemblyError} {s : Session} {t : List Event}
    (h : b.Fails c e s t) (past : List Event) : b.Fails (c.behind past) e s (t ++ past) := by
  obtain ⟨c₁, c₂, closing, path, halt, rfl, rfl, hc⟩ := h
  exact ⟨c₁.behind past, c₂.behind past, closing, Path.behind path past, halt.behind past, rfl,
    List.append_assoc .., hc⟩

/-! ## What every move keeps -/

/-- Every move leaves assembled features where they are. -/
theorem Move.retains {c c' : Stage} (h : b.Move c c') : c.session.Retains c'.session := by
  have same : ∀ {s s' : Session}, (∀ key, s'.store key = s.store key) → s.Retains s' := fun hs => by
    have grows : Session.Extends .main _ _ := .of_store_eq hs
    exact grows.retains
  cases h with
  | mark => exact ((Session.Extends.refl _ _).markProcessed _).retains
  | read _ _ reads => exact fun key scope location f hf => by rw [reads.assembled]; exact hf
  | begin | fetch => exact fun _ _ _ _ hf => hf
  | record | aggregate => exact ((Session.Extends.refl _ _).recordAssembled _ _ _).retains
  | complete => exact same (b.store_augmented _ _ _)
  | supply => exact same (store_withReference _ _ _)
  | refuse => exact same (Session.store_report _ _)
  | miss => exact same (Session.store_report _ _)

/-- **An invariant**: what a move keeps, every stage has that is come to. -/
theorem Path.keeps {inv : Stage → Prop} (step : ∀ c c', b.Move c c' → inv c → inv c') {c c' : Stage}
    (h : b.Path c c') (hi : inv c) : inv c' := by
  induction h with
  | refl => exact hi
  | tail _ hm ih => exact step _ _ hm ih

end Build

end FeatureAssembly
