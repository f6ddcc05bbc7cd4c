import FeatureAssembly.Proofs.Paths

/-!
# How assembled features come about

What an assembled feature was made of, as the session itself shows it at any later time.

**The law** (`Build.Move.formed`): at every stage that a build comes to, each assembled feature was
merged from the raw feature at its location, with what the lookup rule supplies; or there is no raw
feature at its location, and it was put together from the features of its scope, as a declared
aggregate, when all raw features of that scope were assembled (`Build.Formation`).

A move makes at most one feature, of what is there before it (`Build.Move.forms`). What it was made
of stays, and an aggregate takes no aggregates; so it is what it would be made of later.

What it does not establish: which features there are. A feature that was made is described, and a
missing one is not.
-/

set_option autoImplicit false

namespace FeatureAssembly

/-! ## Aggregate keys -/

theorem isAggregateKey_aggregateKey (classifier : String) :
    isAggregateKey (aggregateKey classifier) = true := by
  rw [isAggregateKey, Text.startsWith, aggregateKey, Text.stripLeading?_append]
  rfl

theorem aggregateKey_injective {classifier classifier' : String}
    (h : aggregateKey classifier = aggregateKey classifier') : classifier = classifier' := by
  have chars := congrArg String.toList h
  rw [aggregateKey, aggregateKey, String.toList_append, String.toList_append] at chars
  exact String.toList_injective (List.append_cancel_left chars)

/-- Declared aggregates with the same key are the same. -/
theorem Build.Distinct.eq_of_aggregateKey {b : Build} {key : ModuleKey} {scope : Scope} {d d' : AggregateDecl}
    (h : b.Distinct key scope) (m : Module) (hd : d ∈ b.config.aggregatesOf key)
    (hd' : d' ∈ b.config.aggregatesOf key) (keyed : aggregateKey d.classifier = aggregateKey d'.classifier) :
    d = d' := by
  have identity : aggregateIdentity m d = aggregateIdentity m d' := by
    rw [aggregateIdentity, aggregateKey_injective keyed]
    rfl
  exact h.eq_of_aggregateIdentity hd hd' identity

namespace Feature.Assembles

/-- **What is made of a raw feature is determined** by what its prototype is supplied as. -/
theorem unique {supplies supplies' : Identity → Feature → Prop} {f g g' : Feature}
    (h : f.Assembles supplies g) (h' : f.Assembles supplies' g')
    (same : ∀ id parent parent', supplies id parent → supplies' id parent' → parent = parent') :
    g = g' := by
  cases h with
  | final marked =>
    cases h' with
    | final => rfl
    | alone unmarked | inheriting unmarked => cases marked.symm.trans unmarked
  | alone unmarked original =>
    cases h' with
    | final marked => cases marked.symm.trans unmarked
    | alone => rfl
    | inheriting _ derived => cases original.symm.trans derived
  | inheriting unmarked derived supplied =>
    cases h' with
    | final marked => cases marked.symm.trans unmarked
    | alone _ original => cases original.symm.trans derived
    | inheriting _ derived' supplied' =>
      cases derived.symm.trans derived'
      rw [same _ _ _ supplied supplied']

end Feature.Assembles

namespace Build

variable {b : Build} {s s' : Session} {key : ModuleKey} {scope : Scope} {location : String}
  {g g' : Feature}

/-! ## Formation -/

/-- **What an assembled feature was made of.** -/
inductive Formation (b : Build) (s : Session) (key : ModuleKey) (scope : Scope) (location : String)
    (g : Feature) : Prop where
  /-- It was merged from the raw feature at its location. -/
  | merged {f : Feature} (prepared : (b.prepared key scope).get? location = some f)
    (made : f.Assembles (b.Supplied s scope) g)
  /-- There is no raw feature at its location, and it was put together from those of its scope. -/
  | aggregated {m : Module} {d : AggregateDecl} (known : b.reactor.get? key = some m)
    (declared : d ∈ b.config.aggregatesOf key) (inScope : d.scope = scope)
    (keyed : aggregateKey d.classifier = location)
    (free : (b.prepared key scope).get? location = none) (raw : b.RawDone s key scope)
    (made : g = b.merger.aggregate (aggregateIdentity m d) (aggregateParts (s.store key) d))
    (selected : aggregateParts (s.store key) d ≠ [])

/-- Every assembled feature has been made of something. -/
def Formed (b : Build) (s : Session) : Prop := ∀ key scope location g,
  (s.state key scope).assembled.get? location = some g → b.Formation s key scope location g

namespace Formation

/-- What is made is where its identity belongs. -/
theorem bears (h : b.Formation s key scope location g) : ∃ id, b.Bears key scope location id := by
  cases h with
  | merged prepared made => exact ⟨_, .raw prepared rfl⟩
  | aggregated known declared inScope keyed => exact ⟨_, .aggregate known declared inScope keyed rfl⟩

/-- What is not at an aggregate key was merged. -/
theorem prepared_of_not_key (h : b.Formation s key scope location g)
    (hl : isAggregateKey location = false) : ∃ f, (b.prepared key scope).get? location = some f := by
  cases h with
  | merged prepared made => exact ⟨_, prepared⟩
  | aggregated known declared inScope keyed =>
    rw [← keyed, isAggregateKey_aggregateKey] at hl
    cases hl

end Formation

/-- **What an aggregate selects** are features that are not at the key of one, whatever is there. -/
theorem aggregateParts_congr {t t' : FeatureStore} (d : AggregateDecl)
    (same : ∀ location, isAggregateKey location = false →
      (t.assembled d.scope).get? location = (t'.assembled d.scope).get? location) :
    aggregateParts t d = aggregateParts t' d := by
  refine congrArg (List.map Prod.snd) (SortedMap.filter_entries_eq fun location g picked => ?_)
  rw [Bool.and_eq_true, Bool.not_eq_true'] at picked
  rw [same location picked.1]

/-- **The parts of an aggregate** are those of any session that has the raw features of its scope
assembled in the same way. -/
theorem RawDone.aggregateParts_eq {d : AggregateDecl} (raw : b.RawDone s key d.scope)
    (held : ∀ location g, (s.state key d.scope).assembled.get? location = some g →
      (s'.state key d.scope).assembled.get? location = some g)
    (merged : ∀ location g, (s'.state key d.scope).assembled.get? location = some g →
      isAggregateKey location = false → ∃ f, (b.prepared key d.scope).get? location = some f) :
    aggregateParts (s.store key) d = aggregateParts (s'.store key) d := by
  refine aggregateParts_congr d fun location plain => Option.ext fun g => ⟨held location g, fun there => ?_⟩
  obtain ⟨f, hf⟩ := merged location g there plain
  obtain ⟨g₀, here⟩ := raw location f hf
  cases there.symm.trans (held location g₀ here)
  exact here

/-- **What was formed stays formed** while a session grows by what is formed as well. -/
theorem Formed.of_retains (retains : s.Retains s')
    (each : ∀ key scope location g, (s'.state key scope).assembled.get? location = some g →
      b.Formation s key scope location g) : b.Formed s' := by
  intro key scope location g hg
  cases each key scope location g hg with
  | merged prepared made => exact .merged prepared (made.mono fun _ _ supplied => supplied.mono retains)
  | aggregated known declared inScope keyed free raw made selected =>
    subst inScope
    have parts := raw.aggregateParts_eq (retains key _) fun location g hg hl =>
      (each key _ location g hg).prepared_of_not_key hl
    exact .aggregated known declared rfl keyed free (raw.mono retains) (parts ▸ made) (parts ▸ selected)

/-! ## Moves -/

/-- **A move makes features of what is there before it.** -/
theorem Move.forms {c c' : Stage} (hm : b.Move c c') (h : b.Formed c.session) :
    ∀ key scope location g, (c'.session.state key scope).assembled.get? location = some g →
      b.Formation c.session key scope location g := by
  intro key scope location g hg
  have kept : (c'.session.state key scope).assembled = (c.session.state key scope).assembled →
      b.Formation c.session key scope location g := fun same =>
    h key scope location g (same ▸ hg)
  cases hm with
  | mark => exact kept (Session.view_modifyStore _ ScopeState.assembled rfl key scope)
  | read _ _ reads => exact kept (reads.assembled key scope)
  | @record s t a n f g' ready prepared made referred =>
    rcases s.assembled_recordAssembled _ _ _ _ hg with old | ⟨rfl, rfl, rfl, rfl⟩
    · exact h key scope location g old
    · exact .merged prepared made
  | @aggregate s t a m d ready known declared raw fresh selected =>
    rcases s.assembled_recordAssembled _ _ _ _ hg with old | ⟨rfl, rfl, rfl, rfl⟩
    · exact h key scope location g old
    · refine .aggregated known declared rfl rfl ?_ raw rfl selected
      cases hp : (b.prepared m.key d.scope).get? (aggregateKey d.classifier) with
      | none => rfl
      | some f =>
        obtain ⟨g, hg⟩ := raw _ f hp
        exact nomatch fresh.symm.trans hg
  | complete => exact kept (congrArg _ (Session.state_eq_of_store_eq (b.store_augmented _ _ _) key scope))
  | supply => exact kept (congrArg _ (Session.state_eq_of_store_eq (store_withReference _ _ _) key scope))
  | begin | fetch | refuse | miss => exact kept rfl

theorem Move.formed {c c' : Stage} (hm : b.Move c c') (h : b.Formed c.session) :
    b.Formed c'.session :=
  .of_retains hm.retains (hm.forms h)

theorem formed_start (b : Build) (r : Reactor) : b.Formed (.start r) := fun key scope location g hg => by
  rw [state_start] at hg
  cases hg

end Build

end FeatureAssembly
