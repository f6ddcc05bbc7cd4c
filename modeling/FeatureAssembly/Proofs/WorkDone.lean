import FeatureAssembly.Proofs.Nesting

/-!
# Work that is done once

What a build asks of others, read off the trace, and what it makes of it, read off the stores.

**The law** (`Build.work_done_once`): the source is asked once at most for a scope, for main
before test; the merger is asked once at most for the feature at a site, so never while it is at
that site; and an assembled feature stays as it is at its location whatever comes after it, also
if that fails.

A scope that was asked for is read, and a site whose merge has begun is assembled or still being
merged (`Build.Orderly`); every move keeps that.

What it does not establish: that a site is merged at all, or that the loader is asked once.
-/

set_option autoImplicit false

namespace FeatureAssembly.Build

open Relation Step

variable {b : Build} {c c' : Stage}

/-! ## What others are asked for -/

/-- The sites that the merger was asked to assemble. -/
def merges (l : List Event) : List Site :=
  l.filterMap fun
    | .merging key scope location _ => some ⟨key, scope, location⟩
    | _ => none

/-- **Nothing is asked for twice**, of things done last thing first, and test behind main. -/
structure Once (t : List Event) : Prop where
  loads_nodup : (loads t).Nodup
  merges_nodup : (merges t).Nodup
  main_first : ∀ key later earlier, loads t = later ++ (key, .test) :: earlier →
    (key, .main) ∈ earlier

theorem Once.closing {t closing : List Event} (h : Once t) (hc : ∀ event ∈ closing, Closing event) :
    Once (closing ++ t) := by
  have same_loads : loads (closing ++ t) = loads t :=
    filterMap_closing hc (fun event he => by cases event <;> first | rfl | cases he) t
  have same_merges : merges (closing ++ t) = merges t :=
    filterMap_closing hc (fun event he => by cases event <;> first | rfl | cases he) t
  refine ⟨?_, ?_, ?_⟩
  · rw [same_loads]; exact h.loads_nodup
  · rw [same_merges]; exact h.merges_nodup
  · rw [same_loads]; exact h.main_first

/-- A scope that was not asked for is asked for now. -/
theorem Once.loaded {t : List Event} {key : ModuleKey} {scope : Scope} (h : Once t)
    (hn : (key, scope) ∉ loads t) (main : scope = .test → (key, .main) ∈ loads t)
    (dependencies : List Dependency) : Once (.loaded key dependencies scope :: t) := by
  refine ⟨List.nodup_cons.2 ⟨hn, h.loads_nodup⟩, h.merges_nodup, fun key' later earlier he => ?_⟩
  have he : (key, scope) :: loads t = later ++ (key', .test) :: earlier := he
  cases later with
  | nil =>
    cases he
    exact main rfl
  | cons first later => exact h.main_first key' later earlier (List.cons.inj he).2

/-! ## The invariant -/

/-- **A stage is orderly**: nothing is asked for twice, what was asked for is read or merged, and
main is not read without being asked for. -/
structure Orderly (c : Stage) : Prop extends Nested c, Once c.trace where
  loads_read : ∀ t ∈ loads c.trace, c.Read t.1 t.2
  mains_loaded : ∀ key, c.Read key .main → (key, .main) ∈ loads c.trace
  merges_done : ∀ n ∈ merges c.trace,
    (∃ g, (c.session.state n.module n.scope).assembled.get? n.location = some g) ∨ n ∈ c.agenda.sites

/-- A scope that waits was not asked for, and test waits until main was. -/
theorem Orderly.read_once {s : Session} {t : List Event} {a : Agenda} {key : ModuleKey} {scope : Scope}
    (h : Orderly ⟨s, t, a.await key scope⟩)
    (seen : ∀ scope' ∈ scope.visible, (s.state key scope').processed = true) (apart : a.Apart scope)
    (dependencies : List Dependency) : Once (.loaded key dependencies scope :: t) := by
  have fresh : (key, scope) ∉ loads t := fun hl => (h.loads_read _ hl).2 List.mem_cons_self
  refine h.toOnce.loaded fresh ?_ dependencies
  rintro rfl
  refine h.mains_loaded key ⟨seen .main (main_mem_visible _), fun hw => ?_⟩
  rcases List.mem_cons.1 hw with heq | hw
  · cases heq
  · exact (apart rfl key).1 hw

/-- A move that asks for nothing twice and merges nothing unseen. -/
theorem Move.orderly_of (hm : b.Move c c') (h : Orderly c) (once : Once c'.trace)
    (grows : ∀ t ∈ loads c.trace, t ∈ loads c'.trace)
    (loaded : ∀ t ∈ loads c'.trace, t ∈ loads c.trace ∨ c'.Read t.1 t.2)
    (merged : ∀ n ∈ merges c'.trace, n ∈ merges c.trace ∨ n ∈ c'.agenda.sites)
    (sites : ∀ n ∈ c.agenda.sites, n ∈ c'.agenda.sites ∨
      ∃ g, (c'.session.state n.module n.scope).assembled.get? n.location = some g) : Orderly c' where
  toNested := hm.turn.nested h.toNested
  loads_nodup := once.loads_nodup
  merges_nodup := once.merges_nodup
  main_first := once.main_first
  loads_read t ht := (loaded t ht).elim (fun hl => hm.turn.read_mono (h.loads_read t hl)) id
  mains_loaded key hr := by
    rcases hm.turn.read_cases hr with old | ⟨a, -, -, -, dependencies, trace⟩
    · exact grows _ (h.mains_loaded key old)
    · rw [trace]
      exact List.mem_cons_self
  merges_done n hn := by
    rcases merged n hn with hn | hs
    · rcases h.merges_done n hn with ⟨g, hg⟩ | hs
      · exact .inl ⟨g, hm.retains _ _ _ _ hg⟩
      · exact (sites n hs).symm
    · exact .inr hs

/-- **Every move keeps a stage orderly.** -/
theorem Move.orderly (hm : b.Move c c') (h : Orderly c) : Orderly c' := by
  have settle := hm.orderly_of h
  have nested := hm.turn.nested h.toNested
  have quiet : loads c'.trace = loads c.trace → merges c'.trace = merges c.trace →
      (∀ n ∈ c.agenda.sites, n ∈ c'.agenda.sites ∨
        ∃ g, (c'.session.state n.module n.scope).assembled.get? n.location = some g) → Orderly c' :=
    fun hl hg sites => by
      have once : Once c'.trace := ⟨hl ▸ h.loads_nodup, hg ▸ h.merges_nodup, hl ▸ h.main_first⟩
      exact settle once (fun t ht => hl ▸ ht) (fun t ht => .inl (hl ▸ ht))
        (fun n hn => .inl (hg ▸ hn)) sites
  cases hm with
  | @read s s' t a key scope dependencies seen apart reads =>
    refine settle (h.read_once seen apart _) (fun t ht => List.mem_cons_of_mem _ ht) (fun t ht => ?_)
      (fun n hn => .inl hn) fun n hn => .inl hn
    rcases List.mem_cons.1 ht with rfl | ht
    · exact .inr (nested.read_of_work rfl)
    · exact .inl ht
  | @begin s t a n f prepared fresh idle =>
    have unasked : n ∉ merges t := fun hn => by
      rcases h.merges_done n hn with ⟨g, hg⟩ | hs
      · exact nomatch fresh.symm.trans hg
      · exact idle hs
    have once : Once (.merging n.module n.scope n.location f.id :: t) :=
      ⟨h.loads_nodup, List.nodup_cons.2 ⟨unasked, h.merges_nodup⟩, h.main_first⟩
    refine settle once (fun _ ht => ht) (fun _ ht => .inl ht)
      (fun n' hn => ?_) fun n' hn => .inl (List.mem_cons_of_mem _ hn)
    rcases List.mem_cons.1 hn with rfl | hn
    · exact .inr List.mem_cons_self
    · exact .inl hn
  | record =>
    refine quiet rfl rfl fun n hn => ?_
    rcases List.mem_cons.1 hn with rfl | hn
    · exact .inr ⟨_, get?_recordAssembled _ _ _ _ _⟩
    · exact .inl hn
  | mark | aggregate | complete | fetch | supply | refuse | miss => exact quiet rfl rfl fun _ => .inl

/-! ## Whole builds -/

theorem Halt.once {e : AssemblyError} (hh : b.Halt c e c') (h : Orderly c) : Once c'.trace := by
  cases hh with
  | stop => exact h.toOnce
  | reject e seen apart told => exact h.read_once seen apart _
  | outside => exact ⟨h.loads_nodup, h.merges_nodup, h.main_first⟩

theorem orderly_start (r : Reactor) : Orderly (atRest (.start r) []) where
  toNested := nested_start r
  loads_nodup := .nil
  merges_nodup := .nil
  main_first _ later _ h := by cases later <;> cases h
  loads_read _ ht := nomatch ht
  mains_loaded key hr := absurd hr (not_read_start r key .main)
  merges_done _ hn := nomatch hn

/-- **A build asks for nothing twice**, also if it fails. -/
theorem Takes.once {s : Session} {o : Outcome} (h : b.Takes s [] o) (hs : Orderly (atRest s [])) :
    Once o.events.reverse := by
  have step : ∀ c c', b.Move c c' → Orderly c → Orderly c' := fun _ _ hm => hm.orderly
  cases hr : o.result with
  | ok u =>
    have orderly := Path.keeps step (h.path hr) hs
    rw [List.append_nil] at orderly
    exact orderly.toOnce
  | error e =>
    obtain ⟨c₁, c₂, closing, path, halt, -, trace, ended⟩ := h.fails e hr
    rw [List.append_nil] at trace
    rw [trace]
    exact (halt.once (Path.keeps step path hs)).closing ended

/-! ## What stays -/

/-- **A step that retains**: it leaves assembled features where they are, also if it fails. -/
def Retaining {α : Type} (x : Step α) : Prop :=
  ∀ p r q, x p = some (r, q) → p.session.Retains q.session

/-- **Everything that a build does retains**, at any depth and from any session. -/
theorem calls_retain (hb : b.merger = .byPrototype) (depth : Nat) :
    (∀ key scope, Retaining ((b.calls depth).process key scope)) ∧
    (∀ key scope id, Retaining ((b.calls depth).provide key scope id)) ∧
    (∀ key scope e, Retaining (b.assembleAt (b.calls depth) key scope e)) ∧
    ∀ m scope, Retaining (b.buildAggregates m scope) := by
  have keep : (b.calls depth).Keep b False [] depth := calls_keep hb False nofun depth
  refine ⟨fun key scope p r q hx => ?_, fun key scope id p r q hx => ?_, fun key scope e p r q hx => ?_,
    fun m scope p r q hx => ?_⟩
  · exact ((keep.process nofun nofun).of_eq_some hx).1.grows.retains
  · exact ((keep.provide nofun nofun).of_eq_some hx).grows.retains
  · exact ((assembleAt_keeps hb keep nofun nofun key scope e).of_eq_some hx).grows.retains
  · have ends : Ends False (b.buildAggregates m scope) p fun _ q => p.Kept b.reactor False [] scope q :=
      buildAggregates_keeps nofun m scope
    exact (ends.of_eq_some hx).grows.retains

theorem process_retains (hb : b.merger = .byPrototype) {s : Session} {key : ModuleKey} {scope : Scope}
    {o : Outcome} (ho : b.process s key scope = some o) : s.Retains o.session := by
  obtain ⟨depth, r, q, hx, rfl⟩ := exists_depth_of_process ho
  exact (calls_retain hb _).1 key scope ⟨s, .empty, []⟩ r q hx

theorem processEach_retains (hb : b.merger = .byPrototype) {targets : List (ModuleKey × Scope)} :
    ∀ {s : Session} {o : Outcome}, b.processEach s targets = some o → s.Retains o.session := by
  induction targets with
  | nil =>
    intro s o ho
    cases ho
    exact fun _ _ _ _ hf => hf
  | cons t rest ih =>
    intro s o ho
    obtain ⟨first, hfirst, hrest⟩ := Option.bind_eq_some_iff.1 ho
    have kept := process_retains hb hfirst
    unfold andThen at hrest
    split at hrest
    · cases hrest
      exact kept
    · obtain ⟨later, hlater, rfl⟩ := Option.map_eq_some_iff.1 hrest
      have kept' : first.session.Retains later.session := ih hlater
      exact kept.trans kept'

/-- What is assembled after some scopes stays assembled after more of them. -/
theorem processEach_append_retains (hb : b.merger = .byPrototype)
    {done rest : List (ModuleKey × Scope)} :
    ∀ {s : Session} {o o' : Outcome}, b.processEach s done = some o →
      b.processEach s (done ++ rest) = some o' → o.session.Retains o'.session := by
  induction done with
  | nil =>
    intro s o o' ho ho'
    cases ho
    exact processEach_retains hb ho'
  | cons t done ih =>
    intro s o o' ho ho'
    obtain ⟨first, hfirst, hrest⟩ := Option.bind_eq_some_iff.1 ho
    obtain ⟨first', hfirst', hrest'⟩ := Option.bind_eq_some_iff.1 ho'
    cases hfirst.symm.trans hfirst'
    unfold andThen at hrest hrest'
    cases hr : first.result with
    | error e =>
      rw [hr] at hrest hrest'
      cases hrest
      cases hrest'
      exact fun _ _ _ _ hf => hf
    | ok u =>
      rw [hr] at hrest hrest'
      obtain ⟨later, hlater, rfl⟩ := Option.map_eq_some_iff.1 hrest
      obtain ⟨later', hlater', rfl⟩ := Option.map_eq_some_iff.1 hrest'
      have kept : later.session.Retains later'.session := ih hlater hlater'
      exact kept

/-! ## All together -/

/-- **Work is done once**, in scopes processed in turn up to the first that fails: no scope is
read twice, and test only after main; no site is merged twice; and what is assembled at some
time stays as it is, over more scopes and over every step on the way. -/
theorem work_done_once (b : Build) (hb : b.merger = .byPrototype) (targets : List (ModuleKey × Scope)) :
    ∃ o, b.processEach (.start b.reactor) targets = some o ∧
      (loads o.events).Nodup ∧
      (∀ key before after, loads o.events = before ++ (key, .test) :: after → (key, .main) ∈ before) ∧
      (merges o.events).Nodup ∧
      (∀ done rest o', targets = done ++ rest → b.processEach (.start b.reactor) done = some o' →
        o'.session.Retains o.session) ∧
      ∀ depth,
        (∀ key scope, Retaining ((b.calls depth).process key scope)) ∧
        (∀ key scope id, Retaining ((b.calls depth).provide key scope id)) ∧
        (∀ key scope e, Retaining (b.assembleAt (b.calls depth) key scope e)) ∧
        ∀ m scope, Retaining (b.buildAggregates m scope) := by
  obtain ⟨o, ho⟩ := exists_processEach hb targets (.start b.reactor)
  have follows := processEach_follows (regular_asAnswered hb o.events) (steady_start _ b.reactor)
    (processEach_asAnswered hb .start ho) []
  have once := follows.once (orderly_start b.reactor)
  have loads_reverse : loads o.events.reverse = (loads o.events).reverse := List.filterMap_reverse
  have merges_reverse : merges o.events.reverse = (merges o.events).reverse := List.filterMap_reverse
  refine ⟨o, ho, ?loads, ?main_first, ?merges, ?stays, calls_retain hb⟩
  case loads => exact List.nodup_reverse.1 (loads_reverse ▸ once.loads_nodup)
  case main_first =>
    intro key before after h
    have reversed : loads o.events.reverse = after.reverse ++ (key, .test) :: before.reverse := by
      rw [loads_reverse, h]
      simp
    exact List.mem_reverse.1 (once.main_first key _ _ reversed)
  case merges => exact List.nodup_reverse.1 (merges_reverse ▸ once.merges_nodup)
  case stays =>
    rintro done rest o' rfl ho'
    exact processEach_append_retains hb ho' ho

/-- In `siblings`, with `lib` processed first, each of the three sites is merged once. -/
theorem siblings_work_done_once : ∃ o,
    siblings.processEach (.start siblings.reactor) [(⟨"g:lib"⟩, .main), (⟨"g:app"⟩, .main)] = some o ∧
      (merges o.events).Nodup ∧ (merges o.events).length = 3 := by
  obtain ⟨o, ho, -, -, once, -⟩ := work_done_once siblings rfl [(⟨"g:lib"⟩, .main), (⟨"g:app"⟩, .main)]
  have run : (siblings.processEach (.start siblings.reactor)
      [(⟨"g:lib"⟩, .main), (⟨"g:app"⟩, .main)]).map (fun o => (merges o.events).length) = some 3 := by
    decide +kernel
  rw [ho] at run
  exact ⟨o, ho, once, Option.some.inj run⟩

end FeatureAssembly.Build
