import FeatureAssembly.Proofs.Runs

/-!
# What is in the store

The assembled features of a session that a build comes to, read off the session alone.

**The law** (`Build.assembled_store_correct`): in the place of a raw feature stands what the
merger makes of it and of its prototype, and the prototype is the feature that the lookup
rule finds in the same session, however early it was assembled and by whom. After a success
the scopes that are processed have all their raw features assembled and all their declared
aggregates, and nothing else.

The content of aggregates is not described here.
-/

set_option autoImplicit false

namespace FeatureAssembly

/-- **The lookup rule for assembled features**: the one with an identity that its owner keeps
in the scope that asks, or else, if that is test, in main. -/
def Session.stored? (s : Session) (scope : Scope) (id : Identity) : Option Feature :=
  scope.visible.findSome? fun scope =>
    ((s.store id.moduleKey).findAssembled? scope id).map (·.2)

namespace Build

variable {b : Build} {s : Session} {scope : Scope}

/-- **What a session supplies**: the assembled feature of the owner, or what the loader has
if no module owns the identity. -/
def Supplies (b : Build) (s : Session) (scope : Scope) (id : Identity) (parent : Feature) : Prop :=
  if b.reactor.contains id.moduleKey then s.stored? scope id = some parent
  else b.loader id = .ok parent

/-- **An identity names one assembled feature** of a scope. -/
theorem Valid.location_unique (h : b.Valid s) {key : ModuleKey} {location location' : String}
    {g g' : Feature} (hg : (s.state key scope).assembled.get? location = some g)
    (hg' : (s.state key scope).assembled.get? location' = some g') (hid : g.id = g'.id) :
    location = location' := by
  rcases h.opened key scope with opened | empty
  · exact opened.distinct.location_unique (opened.bears hg) (hid ▸ opened.bears hg')
  · rw [empty] at hg
    cases hg

theorem findAssembled?_eq_some (h : b.Valid s) {key : ModuleKey} {location : String} {g : Feature}
    (hg : (s.state key scope).assembled.get? location = some g) :
    (s.store key).findAssembled? scope g.id = some (location, g) := by
  have hm := SortedMap.get?_eq_some_iff.1 hg
  cases hf : (s.store key).findAssembled? scope g.id with
  | none => exact absurd (List.find?_eq_none.1 hf _ hm) (by simp)
  | some e =>
    have named : e.2.id = g.id := by simpa using List.find?_some hf
    have there : (s.state key scope).assembled.get? e.1 = some e.2 :=
      SortedMap.get?_of_mem (List.mem_of_find?_eq_some hf)
    cases h.location_unique hg there named.symm
    cases hg.symm.trans there
    rfl

/-- What the lookup supplied is still what the session supplies. -/
theorem Supplied.supplies (h : b.Valid s) {id : Identity} {parent : Feature}
    (hs : b.Supplied s scope id parent) : b.Supplies s scope id parent := by
  unfold Supplies
  cases hs with
  | loaded foreign loads =>
    rw [foreign]
    exact loads
  | stored owned located named found =>
    rename_i scope' location
    rw [if_pos owned]
    have here : ((s.store id.moduleKey).findAssembled? scope' id).map (·.2) = some parent := by
      rw [← named] at found ⊢
      rw [findAssembled?_eq_some h found]
      rfl
    unfold Session.stored?
    rcases located.nearest with rfl | none
    · cases scope' <;> simp [Scope.visible, here]
    · have absent : (s.store id.moduleKey).findAssembled? scope id = Option.none := by
        refine List.find?_eq_none.2 fun e he hid => ?_
        have there : (s.state id.moduleKey scope).assembled.get? e.1 = some e.2 := SortedMap.get?_of_mem he
        have hid : e.2.id = id := by simpa using hid
        rcases h.opened id.moduleKey scope with opened | empty
        · exact none _ (hid ▸ opened.bears there)
        · rw [empty] at there
          cases there
      obtain ⟨rfl, rfl⟩ := main_of_mem_visible located.visible fun he => none _ (he ▸ located.bears)
      simp [Scope.visible, here, absent]

/-- Every assembled feature in the place of a raw one is made of it. -/
theorem Valid.assembles (h : b.Valid s) {key : ModuleKey} {location : String} {f g : Feature}
    (hf : ((s.store key).raw scope).get? location = some f)
    (hg : ((s.store key).assembled scope).get? location = some g) :
    f.Assembles (b.Supplies s scope) g := by
  rcases h.opened key scope with opened | empty
  · have hf : (b.prepared key scope).get? location = some f := by
      rw [← opened.raw]
      exact hf
    exact (h.entries (n := ⟨key, scope, location⟩) hf hg).1.mono fun _ _ hs => hs.supplies h
  · rw [show (s.store key).assembled scope = .empty from empty] at hg
    cases hg

/-- A scope that is complete has its raw features, its aggregates and nothing else. -/
theorem Steady.isAssembled_iff (h : b.Steady s) {key : ModuleKey}
    (hp : (s.store key).isProcessed scope = true) (location : String) :
    (s.store key).isAssembled scope location = true ↔
      ((s.store key).raw scope).contains location = true ∨
        ∃ d ∈ b.config.aggregatesOf key, d.scope = scope ∧ aggregateKey d.classifier = location := by
  have opened := h.opened hp
  have raw : (s.store key).raw scope = b.prepared key scope := opened.raw
  obtain ⟨m, hm⟩ := Option.isSome_iff_exists.1 opened.known
  rw [raw]
  constructor
  · intro ha
    obtain ⟨g, hg⟩ := SortedMap.contains_iff.1 ha
    cases opened.bears hg with
    | raw found named => exact .inl (SortedMap.contains_iff.2 ⟨_, found⟩)
    | aggregate module declared inScope keyed named => exact .inr ⟨_, declared, inScope, keyed⟩
  · intro hc
    refine SortedMap.contains_iff.2 ?_
    rcases hc with hc | ⟨d, declared, inScope, keyed⟩
    · obtain ⟨f, hf⟩ := SortedMap.contains_iff.1 hc
      exact h.complete key scope hp location f.id (.raw hf rfl)
    · exact h.complete key scope hp location _ (.aggregate hm declared inScope keyed rfl)

/-- **The assembled store is correct**, after any scopes processed in turn, the last one
perhaps with a failure: each assembled feature in the place of a raw one is made of it as the
merger does, with a prototype that the session supplies; it is final, and has no prototype if
it was merged; and an identity names one assembled feature of a scope. If all went well,
processed scopes have exactly their raw features and their aggregates assembled. -/
theorem assembled_store_correct (b : Build) (hb : b.merger = .byPrototype)
    (targets : List (ModuleKey × Scope)) :
    ∃ o, b.processEach (.start b.reactor) targets = some o ∧
      (∀ key scope location f g, ((o.session.store key).raw scope).get? location = some f →
        ((o.session.store key).assembled scope).get? location = some g →
        f.Assembles (b.Supplies o.session scope) g ∧ g.assembled = true ∧
          (f.assembled = false → g.prototype = none)) ∧
      (∀ key scope location location' g g',
        ((o.session.store key).assembled scope).get? location = some g →
        ((o.session.store key).assembled scope).get? location' = some g' → g.id = g'.id →
        location = location') ∧
      (o.result = .ok () → ∀ key scope, (o.session.store key).isProcessed scope = true →
        ∀ location, (o.session.store key).isAssembled scope location = true ↔
          ((o.session.store key).raw scope).contains location = true ∨
            ∃ d ∈ b.config.aggregatesOf key, d.scope = scope ∧ aggregateKey d.classifier = location) := by
  obtain ⟨o, ho⟩ := exists_processEach hb targets (.start b.reactor)
  obtain ⟨⟨valid, steady⟩, -⟩ := processEach_steady (regular_asAnswered hb o.events)
    (steady_start _ b.reactor) (processEach_asAnswered hb .start ho)
  refine ⟨o, ho, fun key scope location f g hf hg => ?_, fun key scope _ _ g g' hg hg' hid => ?_,
    fun hok key scope hp location => ?_⟩
  · have made := valid.assembles hf hg
    exact ⟨made, made.finished⟩
  · exact valid.location_unique hg hg' hid
  · exact (steady hok).1.isAssembled_iff hp location

/-- In `siblings`, with `lib` processed first, `a` is made of what the session supplies. -/
theorem siblings_store_correct : ∃ o f g,
    siblings.processEach (.start siblings.reactor) [(⟨"g:lib"⟩, .main), (⟨"g:app"⟩, .main)] = some o ∧
      ((o.session.store ⟨"g:app"⟩).raw .main).get? "a.json" = some f ∧
      ((o.session.store ⟨"g:app"⟩).assembled .main).get? "a.json" = some g ∧
      f.Assembles (siblings.Supplies o.session .main) g := by
  obtain ⟨o, ho, made, -⟩ := assembled_store_correct siblings rfl
    [(⟨"g:lib"⟩, .main), (⟨"g:app"⟩, .main)]
  have run : (siblings.processEach (.start siblings.reactor)
      [(⟨"g:lib"⟩, .main), (⟨"g:app"⟩, .main)]).map (fun o =>
        (((o.session.store ⟨"g:app"⟩).raw .main).contains "a.json",
          ((o.session.store ⟨"g:app"⟩).assembled .main).contains "a.json")) = some (true, true) := by
    decide +kernel
  rw [ho] at run
  have here := Option.some.inj run
  obtain ⟨f, hf⟩ := SortedMap.contains_iff.1 (congrArg Prod.fst here)
  obtain ⟨g, hg⟩ := SortedMap.contains_iff.1 (congrArg Prod.snd here)
  exact ⟨o, f, g, ho, hf, hg, (made _ _ _ f g hf hg).1⟩

end Build

end FeatureAssembly
