import FeatureAssembly.Merge.ByPrototype
import FeatureAssembly.Proofs.Prototypes

/-!
# What holds of a session

Two invariants of a build by prototype. `Build.Valid` holds of every session that a build
comes to, also when it fails: each assembled feature is made of what the lookup rule
supplies for it, the chain of references from it ends, and each reported cycle is a closed
chain. `Build.Sound` holds while nothing has failed, on behalf of a scope: scopes that are
marked and visible are opened, but for the one that is being opened.

**Opened** means read, checked and given its unit. From then on the raw features of a scope
are those of the source, and identities within the module are distinct. So what a lookup
finds in a scope that is half assembled is what it would find in the end.
-/

set_option autoImplicit false

namespace FeatureAssembly

/-! ## What is made of a raw feature -/

/-- **What stands in the place of a raw feature**, given what its scope is supplied with. -/
inductive Feature.Assembles (supplies : Identity → Feature → Prop) (f : Feature) : Feature → Prop where
  /-- A final feature stays as it is. -/
  | final (marked : f.assembled = true) : f.Assembles supplies f
  /-- A feature without prototype is laid over nothing. -/
  | alone (unmarked : f.assembled = false) (original : f.prototype = none) :
    f.Assembles supplies ((Feature.of f.id).overlay f).finished
  /-- A feature with a prototype is laid over what it inherits. -/
  | inheriting {prototype : Prototype} {parent : Feature} (unmarked : f.assembled = false)
    (derived : f.prototype = some prototype) (supplied : supplies prototype.id parent) :
    f.Assembles supplies ((Feature.inherited f.id parent prototype).overlay f).finished

namespace Feature.Assembles

variable {supplies supplies' : Identity → Feature → Prop} {f g : Feature}

theorem id_eq (h : f.Assembles supplies g) : g.id = f.id := by
  cases h <;> rfl

/-- What is made of a feature is final, and is done with prototypes unless it was final before. -/
theorem finished (h : f.Assembles supplies g) :
    g.assembled = true ∧ (f.assembled = false → g.prototype = none) := by
  cases h with
  | final marked => exact ⟨marked, fun hn => absurd (marked.symm.trans hn) nofun⟩
  | alone => exact ⟨rfl, fun _ => rfl⟩
  | inheriting => exact ⟨rfl, fun _ => rfl⟩

theorem mono (h : f.Assembles supplies g) (hs : ∀ id parent, supplies id parent → supplies' id parent) :
    f.Assembles supplies' g := by
  cases h with
  | final marked => exact .final marked
  | alone unmarked original => exact .alone unmarked original
  | inheriting unmarked derived supplied => exact .inheriting unmarked derived (hs _ _ supplied)

end Feature.Assembles

namespace Build

variable {b : Build} {s s' : Session}

/-- **What the lookup rule supplies**: the feature that is assembled where the rule leads, or
what the loader has if no module owns the identity. -/
inductive Supplied (b : Build) (s : Session) (scope : Scope) (id : Identity) (parent : Feature) : Prop where
  | stored {scope' : Scope} {location : String} (owned : b.reactor.contains id.moduleKey = true)
    (located : b.Locates scope id scope' location) (named : parent.id = id)
    (found : (s.state id.moduleKey scope').assembled.get? location = some parent)
  | loaded (foreign : b.reactor.contains id.moduleKey = false) (loads : b.loader id = .ok parent)

theorem Supplied.mono {scope : Scope} {id : Identity} {parent : Feature}
    (h : b.Supplied s scope id parent) (hs : s.Retains s') : b.Supplied s' scope id parent := by
  cases h with
  | stored owned located named found => exact .stored owned located named (hs _ _ _ _ found)
  | loaded foreign loads => exact .loaded foreign loads

/-! ## The invariants -/

/-- **A scope is opened**: its raw features are those of the source, identities are distinct,
and assembled features are where their identities belong. -/
structure Opened (b : Build) (s : Session) (key : ModuleKey) (scope : Scope) : Prop where
  known : b.reactor.contains key = true
  raw : (s.state key scope).raw = b.prepared key scope
  distinct : b.Distinct key scope
  bears : ∀ {location : String} {g : Feature},
    (s.state key scope).assembled.get? location = some g → b.Bears key scope location g.id

/-- **What holds of every session**, also after a failure. -/
structure Valid (b : Build) (s : Session) : Prop where
  opened : ∀ key scope, b.Opened s key scope ∨ (s.state key scope).assembled = .empty
  entries : ∀ {n : Site} {f g : Feature}, (b.prepared n.module n.scope).get? n.location = some f →
    (s.state n.module n.scope).assembled.get? n.location = some g →
    f.Assembles (b.Supplied s n.scope) g ∧ b.Grounded n
  cycles : ∀ d ∈ s.diagnostics, d.kind = .cycleDetected → ∃ id, d.subject = id.text ∧ b.Closes id

/-- **What holds while nothing has failed**, on behalf of a scope, with one scope perhaps that
is being opened. -/
structure Sound (b : Build) (scope : Scope) (pending : Option (ModuleKey × Scope)) (s : Session) :
    Prop extends Valid b s where
  unmarked : ∀ key scope', (s.state key scope').processed = false →
    (s.state key scope').assembled = .empty
  marked : ∀ key, ∀ scope' ∈ scope.visible, pending ≠ some (key, scope') →
    (s.state key scope').processed = true →
    b.Opened s key scope' ∧ ∀ scope'' ∈ scope'.visible, (s.state key scope'').processed = true
  waits : ∀ key scope', pending = some (key, scope') →
    (s.state key scope').processed = true ∧ (s.state key scope').assembled = .empty

/-- All that a scope can have is assembled. -/
def Completed (b : Build) (s : Session) (key : ModuleKey) (scope : Scope) : Prop :=
  ∀ location id, b.Bears key scope location id → ∃ g, (s.state key scope).assembled.get? location = some g

/-- Every scope that was marked in between is complete. -/
def Fills (b : Build) (s s' : Session) : Prop :=
  ∀ key scope, (s.state key scope).processed = false → (s'.state key scope).processed = true →
    b.Completed s' key scope

theorem Opened.of_state_eq {key : ModuleKey} {scope : Scope} (h : b.Opened s key scope)
    (hs : s'.state key scope = s.state key scope) : b.Opened s' key scope :=
  ⟨h.known, by rw [hs]; exact h.raw, h.distinct, fun hg => h.bears (by rw [← hs]; exact hg)⟩

theorem Completed.mono {key : ModuleKey} {scope : Scope} (h : b.Completed s key scope)
    (hs : s.Retains s') : b.Completed s' key scope := fun location id hb => by
  obtain ⟨g, hg⟩ := h location id hb
  exact ⟨g, hs key scope location g hg⟩

theorem Fills.of_marks (h : ∀ key scope, (s'.state key scope).processed = (s.state key scope).processed) :
    b.Fills s s' := fun key scope hn hp => by
  rw [h, hn] at hp
  cases hp

theorem Fills.trans {s'' : Session} (h : b.Fills s s') (h' : b.Fills s' s'')
    (hs : s'.Retains s'') : b.Fills s s'' := fun key scope hn hp => by
  cases hm : (s'.state key scope).processed with
  | false => exact h' key scope hm hp
  | true => exact (h key scope hn hm).mono hs

/-! ## Steps -/

namespace Valid

/-- A change that leaves the features alone, and reports closed chains only. -/
theorem keep (h : b.Valid s) (hs : ∀ key scope, s'.state key scope = s.state key scope)
    (hd : ∀ d ∈ s'.diagnostics, d ∈ s.diagnostics ∨
      (d.kind = .cycleDetected → ∃ id, d.subject = id.text ∧ b.Closes id)) : b.Valid s' where
  opened key scope := by
    rw [hs]
    exact (h.opened key scope).imp_left fun ho => ho.of_state_eq (hs key scope)
  entries hf hg := by
    rw [hs] at hg
    refine (h.entries hf hg).imp_left fun ha => ha.mono fun _ _ hp => hp.mono fun key scope _ _ hl => ?_
    rw [hs]
    exact hl
  cycles d hm hk := (hd d hm).elim (fun hm => h.cycles d hm hk) fun hc => hc hk

/-- A diagnostic is reported, and if it is a cycle then a closed chain. -/
theorem report (h : b.Valid s) {d : Diagnostic}
    (hd : d.kind = .cycleDetected → ∃ id, d.subject = id.text ∧ b.Closes id) :
    b.Valid (s.report d) := by
  refine h.keep (fun _ _ => rfl) fun d' hm => ?_
  rcases List.mem_append.1 hm with hm | hm
  · exact .inl hm
  · rw [List.mem_singleton.1 hm]
    exact .inr hd

/-- A change of a scope that has nothing assembled. -/
theorem modify {key : ModuleKey} {scope : Scope} {f : ScopeState → ScopeState} (h : b.Valid s)
    (hn : (s.state key scope).assembled = .empty)
    (hf : (f (s.state key scope)).assembled = (s.state key scope).assembled) :
    b.Valid (s.modifyStore key fun t => t.modify scope f) := by
  have assembled := s.view_modifyStore ScopeState.assembled hf
  refine ⟨fun key' scope' => ?_, fun hp hg => ?_, h.cycles⟩
  · by_cases hk : key' = key ∧ scope' = scope
    · exact .inr (by rw [assembled, hk.1, hk.2]; exact hn)
    · rw [assembled]
      exact (h.opened key' scope').imp_left fun ho => ho.of_state_eq (s.state_modifyStore_of_ne f hk)
  · rw [assembled] at hg
    refine (h.entries hp hg).imp_left fun ha => ha.mono fun _ _ hp => hp.mono fun key scope _ _ hl => ?_
    rw [assembled]
    exact hl

/-- An assembled feature is recorded where it belongs. -/
theorem recordAssembled {key : ModuleKey} {scope : Scope} {location : String} {g : Feature}
    (h : b.Valid s) (ho : b.Opened s key scope) (hb : b.Bears key scope location g.id)
    (he : ∀ f, (b.prepared key scope).get? location = some f →
      f.Assembles (b.Supplied s scope) g ∧ b.Grounded ⟨key, scope, location⟩) :
    b.Opened (s.modifyStore key fun t => t.recordAssembled scope location g) key scope ∧
      b.Valid (s.modifyStore key fun t => t.recordAssembled scope location g) := by
  have retains := ((Session.Extends.refl scope s).recordAssembled key location g).retains
  have opened : b.Opened (s.modifyStore key fun t => t.recordAssembled scope location g) key scope := by
    refine ⟨ho.known, ?_, ho.distinct, fun hg => ?_⟩
    · exact (congrArg ScopeState.raw (s.state_modifyStore_self key scope _)).trans ho.raw
    · rcases s.assembled_recordAssembled key key scope scope hg with old | ⟨-, -, rfl, rfl⟩
      · exact ho.bears old
      · exact hb
  refine ⟨opened, fun key' scope' => ?_, fun {n f g'} hf hg => ?_, h.cycles⟩
  · by_cases hk : key' = key ∧ scope' = scope
    · rw [hk.1, hk.2]; exact .inl opened
    · have same := s.state_modifyStore_of_ne
        (fun t => { t with assembled := t.assembled.insertIfNew location g }) hk
      refine (h.opened key' scope').imp (fun ho => ho.of_state_eq same) fun empty => ?_
      exact (congrArg ScopeState.assembled same).trans empty
  · have made : f.Assembles (b.Supplied s n.scope) g' ∧ b.Grounded n := by
      obtain ⟨key', scope', location'⟩ := n
      rcases s.assembled_recordAssembled key key' scope scope' hg with old | ⟨rfl, rfl, rfl, rfl⟩
      · exact h.entries hf old
      · exact he f hf
    exact made.imp_left fun ha => ha.mono fun _ _ hp => hp.mono retains

end Valid

namespace Sound

variable {scope scope' : Scope} {pending : Option (ModuleKey × Scope)}

theorem keep (h : b.Sound scope pending s) (hs : ∀ key scope, s'.state key scope = s.state key scope)
    (hd : ∀ d ∈ s'.diagnostics, d ∈ s.diagnostics ∨
      (d.kind = .cycleDetected → ∃ id, d.subject = id.text ∧ b.Closes id)) :
    b.Sound scope pending s' where
  toValid := h.toValid.keep hs hd
  unmarked key scope' := by rw [hs]; exact h.unmarked key scope'
  marked key scope' hv hn hp := by
    rw [hs] at hp
    refine (h.marked key scope' hv hn hp).imp (fun ho => ho.of_state_eq (hs _ _)) fun hm s'' hv => ?_
    rw [hs]
    exact hm s'' hv
  waits key scope' hw := by rw [hs]; exact h.waits key scope' hw

/-- A diagnostic is reported, and if it is a cycle then a closed chain. -/
theorem report (h : b.Sound scope pending s) {d : Diagnostic}
    (hd : d.kind = .cycleDetected → ∃ id, d.subject = id.text ∧ b.Closes id) :
    b.Sound scope pending (s.report d) where
  toValid := h.toValid.report hd
  unmarked := h.unmarked
  marked key scope' hv hn hp :=
    (h.marked key scope' hv hn hp).imp_left fun ho => ho.of_state_eq rfl
  waits := h.waits

/-- A marked scope is opened. -/
theorem opened_of_marked (h : b.Sound scope none s) {key : ModuleKey} (hv : scope' ∈ scope.visible)
    (hp : (s.state key scope').processed = true) : b.Opened s key scope' :=
  (h.marked key scope' hv (by simp) hp).1

/-- What is seen from a marked scope is marked. -/
theorem seen_of_marked (h : b.Sound scope none s) {key : ModuleKey} (hv : scope' ∈ scope.visible)
    (hp : (s.state key scope').processed = true) :
    ∀ scope'' ∈ scope'.visible, (s.state key scope'').processed = true :=
  (h.marked key scope' hv (by simp) hp).2

/-- What holds on behalf of a scope holds on behalf of those that it sees. -/
theorem narrow (h : b.Sound scope pending s) (hv : scope' ∈ scope.visible)
    (hw : ∀ key, ∀ s'' ∈ scope'.visible, pending ≠ some (key, s'')) : b.Sound scope' none s where
  toValid := h.toValid
  unmarked := h.unmarked
  marked key s'' hs _ := h.marked key s'' (visible_trans hv hs) (hw key s'' hs)
  waits _ _ hn := nomatch hn

theorem inner (h : b.Sound scope none s) (hv : scope' ∈ scope.visible) : b.Sound scope' none s :=
  h.narrow hv fun _ _ _ => by simp

/-- Back from main: test is as it was. -/
theorem widen (h : b.Sound .test pending s) (h' : b.Sound .main none s') (he : s.Extends .main s')
    (hw : ∀ key, pending ≠ some (key, .main)) : b.Sound .test pending s' where
  toValid := h'.toValid
  unmarked := h'.unmarked
  marked key s'' _ hn hp := by
    cases s'' with
    | main => exact h'.marked key .main (mem_visible_self _) nofun hp
    | test =>
      have same := he.test rfl key
      rw [same] at hp
      obtain ⟨ho, hm⟩ := h.marked key .test (mem_visible_self _) hn hp
      exact ⟨ho.of_state_eq same, fun s'' hs => (he.state key s'').processed (hm s'' hs)⟩
  waits key s'' hn := by
    cases s'' with
    | main => exact absurd hn (hw key)
    | test => rw [he.test rfl key]; exact h.waits key .test hn

/-- A scope is marked. -/
theorem mark {key : ModuleKey} (h : b.Sound scope none s)
    (hn : (s.state key scope).processed = false) :
    b.Sound scope (some (key, scope)) (s.modifyStore key fun t => t.markProcessed scope) := by
  have here : (s.modifyStore key fun t => t.markProcessed scope).state key scope =
      { s.state key scope with processed := true } :=
    s.state_modifyStore_self key scope _
  have there : ∀ {key' scope'}, ¬ (key' = key ∧ scope' = scope) →
      (s.modifyStore key fun t => t.markProcessed scope).state key' scope' =
        s.state key' scope' := fun hk => s.state_modifyStore_of_ne _ hk
  have grows := (Session.Extends.refl scope s).markProcessed key
  have empty := h.unmarked key scope hn
  refine ⟨h.toValid.modify empty rfl, fun key' scope' hp => ?_, fun key' scope' hv hne hp => ?_,
    fun key' scope' hw => ?_⟩
  · by_cases hk : key' = key ∧ scope' = scope
    · rw [hk.1, hk.2, here] at hp; cases hp
    · rw [there hk] at hp ⊢
      exact h.unmarked key' scope' hp
  · have hk : ¬ (key' = key ∧ scope' = scope) := fun hk => hne (by rw [hk.1, hk.2])
    rw [there hk] at hp
    refine ⟨(h.opened_of_marked hv hp).of_state_eq (there hk), fun s'' hs => ?_⟩
    exact (grows.state key' s'').processed (h.seen_of_marked hv hp s'' hs)
  · cases hw
    rw [here]
    exact ⟨rfl, empty⟩

/-- The scope that is being opened is read. -/
theorem setRaw {key : ModuleKey} (h : b.Sound scope (some (key, scope)) s) (features : FeatureMap) :
    b.Sound scope (some (key, scope)) (s.modifyStore key fun t => t.setRaw scope features) := by
  obtain ⟨waiting, empty⟩ := h.waits key scope rfl
  refine ⟨h.toValid.modify empty rfl, fun key' scope' hp => ?_, fun key' scope' hv hne hp => ?_,
    fun key' scope' hw => ?_⟩
  · rw [Session.processed_setRaw] at hp
    rw [Session.assembled_setRaw]
    exact h.unmarked key' scope' hp
  · have hk : ¬ (key' = key ∧ scope' = scope) := fun hk => hne (by rw [hk.1, hk.2])
    rw [Session.processed_setRaw] at hp
    obtain ⟨opened, seen⟩ := h.marked key' scope' hv hne hp
    refine ⟨opened.of_state_eq (s.state_modifyStore_of_ne _ hk), fun s'' hs => ?_⟩
    rw [Session.processed_setRaw]
    exact seen s'' hs
  · cases hw
    simp [waiting, empty]

/-- The scope that is being opened is opened. -/
theorem opens {key : ModuleKey} (h : b.Sound scope (some (key, scope)) s)
    (hk : b.reactor.contains key = true) (hr : (s.state key scope).raw = b.prepared key scope)
    (hd : b.Distinct key scope)
    (hv : ∀ scope' ∈ scope.visible, (s.state key scope').processed = true) :
    b.Sound scope none s where
  toValid := h.toValid
  unmarked := h.unmarked
  marked key' scope' hs _ hp := by
    by_cases hk : (key, scope) = (key', scope')
    · cases hk
      refine ⟨⟨hk, hr, hd, fun hg => ?_⟩, hv⟩
      rw [(h.waits key scope rfl).2] at hg
      cases hg
    · exact h.marked key' scope' hs (fun he => hk (Option.some.inj he)) hp
  waits _ _ hn := nomatch hn

/-- An assembled feature is recorded where it belongs. -/
theorem recordAssembled {key : ModuleKey} {location : String} {g : Feature}
    (h : b.Sound scope none s) (hm : (s.state key scope').processed = true)
    (hv : scope' ∈ scope.visible) (hb : b.Bears key scope' location g.id)
    (he : ∀ f, (b.prepared key scope').get? location = some f →
      f.Assembles (b.Supplied s scope') g ∧ b.Grounded ⟨key, scope', location⟩) :
    b.Sound scope none (s.modifyStore key fun t => t.recordAssembled scope' location g) := by
  have here := h.opened_of_marked hv hm
  have seen := h.seen_of_marked hv hm
  obtain ⟨opened, valid⟩ := h.toValid.recordAssembled here hb he
  have there : ∀ {key' s''}, ¬ (key' = key ∧ s'' = scope') →
      (s.modifyStore key fun t => t.recordAssembled scope' location g).state key' s'' =
        s.state key' s'' := fun hk => s.state_modifyStore_of_ne _ hk
  refine ⟨valid, fun key' s'' hp => ?_, fun key' s'' hs _ hp => ?_, by simp⟩
  · rw [Session.processed_recordAssembled] at hp
    have hk : ¬ (key' = key ∧ s'' = scope') := by
      rintro ⟨rfl, rfl⟩
      rw [hm] at hp
      cases hp
    rw [there hk]
    exact h.unmarked key' s'' hp
  · simp only [Session.processed_recordAssembled] at hp ⊢
    by_cases hk : key' = key ∧ s'' = scope'
    · obtain ⟨rfl, rfl⟩ := hk
      exact ⟨opened, seen⟩
    · exact ⟨(h.opened_of_marked hs hp).of_state_eq (there hk), h.seen_of_marked hs hp⟩

end Sound

/-! ## Before a build -/

theorem state_start (r : Reactor) (key : ModuleKey) (scope : Scope) :
    (Session.start r).state key scope = .empty := by
  cases scope <;> rfl

/-- Everything holds before a build. -/
theorem sound_start (b : Build) (r : Reactor) : b.Sound .test none (Session.start r) where
  opened key scope := .inr (by rw [state_start]; rfl)
  entries _ hg := by rw [state_start] at hg; cases hg
  cycles _ hd := nomatch hd
  unmarked key scope _ := by rw [state_start]; rfl
  marked key scope _ _ hp := by rw [state_start] at hp; cases hp
  waits _ _ hn := nomatch hn

end Build

end FeatureAssembly
