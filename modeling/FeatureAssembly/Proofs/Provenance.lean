import FeatureAssembly.Proofs.Formation
import FeatureAssembly.Proofs.Parts

/-!
# Where the parts of assembled features come from

**The law** (`Build.processAll_gives`): every identity and every document in an assembled feature is
in a raw feature or in a feature from outside, or it is an identity that the build puts together
from the texts of a module and its configuration: that of a packaged unit or that of an aggregate.

The parts come along with a move: what is made is made of what is there before it
(`Build.Move.forms`), and merging makes nothing up.

What it does not establish: that every part that is given is found in an assembled feature.
-/

set_option autoImplicit false

namespace FeatureAssembly.Build

open Relation

variable {b : Build} {s : Session} {key : ModuleKey} {scope : Scope} {location : String} {f g : Feature}
  {part : Part}

/-! ## What a build is given -/

/-- **Identities that a build puts together**, of texts that nothing has checked. -/
inductive Composes (b : Build) : Identity → Prop where
  | unit {m : Module} (known : m ∈ b.reactor.modules) (attached : b.config.attachPackagedUnit = true)
      (built : m.hasPackagedUnit = true) : b.Composes (b.packagedUnit m).id
  | aggregate {m : Module} {d : AggregateDecl} (known : m ∈ b.reactor.modules)
      (declared : d ∈ b.config.aggregatesOf m.key) : b.Composes (aggregateIdentity m d)

/-- **The parts that a build can use.** -/
inductive Gives (b : Build) : Part → Prop where
  | raw {key : ModuleKey} {scope : Scope} {location : String} {f : Feature} {part : Part}
      (sourced : (b.sourced key scope).get? location = some f) (within : part ∈ f.parts) : b.Gives part
  | outside {id : Identity} {f : Feature} {part : Part} (loads : b.loader id = .ok f)
      (within : part ∈ f.parts) : b.Gives part
  | composed {id : Identity} (composes : b.Composes id) : b.Gives (.identity id)

/-- Every part of an assembled feature was given. -/
def Given (b : Build) (s : Session) : Prop := ∀ key scope location g,
  (s.state key scope).assembled.get? location = some g → ∀ part ∈ g.parts, b.Gives part

/-! ## Raw features as they are assembled -/

/-- The features of a module with the packaged unit, if it is attached. -/
theorem mem_withUnit {m : Module} {features : FeatureMap} {e : String × Feature}
    (h : e ∈ (b.withUnit m features).entries) : e ∈ features.entries ∨
      b.config.attachPackagedUnit = true ∧ m.hasPackagedUnit = true ∧
        ∃ f ∈ features.values, e.2 = { f with bundles := f.bundles.insert (b.packagedUnit m) } := by
  unfold withUnit at h
  split at h
  · next attach =>
    obtain ⟨attached, built⟩ := Bool.and_eq_true_iff.1 attach
    split at h
    · next location f entries =>
      rcases SortedMap.of_mem_insertEntry h with value | h
      · refine .inr ⟨attached, built, f, ?_, value⟩
        rw [SortedMap.values, entries]
        exact List.mem_cons_self
      · exact .inl h
    · exact .inl h
  · exact .inl h

theorem gives_of_withUnit {m : Module} (known : m ∈ b.reactor.modules) {features : FeatureMap}
    (given : ∀ f ∈ features.values, ∀ part ∈ f.parts, b.Gives part) :
    ∀ f ∈ (b.withUnit m features).values, ∀ part ∈ f.parts, b.Gives part := by
  intro f hf part hp
  obtain ⟨e, he, rfl⟩ := List.mem_map.1 hf
  rcases mem_withUnit he with he | ⟨attached, built, f, hf, with_unit⟩
  · exact given e.2 (List.mem_map_of_mem he) part hp
  · rw [with_unit] at hp
    rcases Feature.mem_parts_iff.1 hp with rfl | hp | ⟨e, he, hp⟩ | ⟨p, hproto, hp⟩
    · exact given f hf _ f.part_of_id
    · rcases Artifacts.part_of_insert hp with rfl | hp
      · exact .composed (.unit known attached built)
      · exact given f hf part (Feature.part_of_bundles hp)
    · exact given f hf part (Feature.part_of_extension he hp)
    · exact given f hf part (Feature.part_of_prototype hproto hp)

theorem gives_of_prepared (h : (b.prepared key scope).get? location = some f) :
    ∀ part ∈ f.parts, b.Gives part := by
  have sourced : ∀ f ∈ (b.sourced key scope).values, ∀ part ∈ f.parts, b.Gives part := by
    intro f hf part hp
    obtain ⟨location, there⟩ := SortedMap.exists_get?_of_mem_values hf
    exact .raw there hp
  refine fun part hp => ?_
  have listed := SortedMap.mem_values_of_get? h
  unfold prepared at listed
  split at listed
  · next m known =>
    exact gives_of_withUnit (mem_modules_of_get? known).1 sourced f listed part hp
  · exact sourced f listed part hp

/-! ## What is made -/

theorem Given.supplied (given : b.Given s) {id : Identity} (h : b.Supplied s scope id f) :
    ∀ part ∈ f.parts, b.Gives part := by
  cases h with
  | stored owned located named found => exact given _ _ _ f found
  | loaded foreign loads => exact fun part hp => .outside loads hp

theorem Given.merged (given : b.Given s) (raw : ∀ part ∈ f.parts, b.Gives part)
    (made : f.Assembles (b.Supplied s scope) g) : ∀ part ∈ g.parts, b.Gives part := by
  intro part hp
  cases made with
  | final marked => exact raw part hp
  | alone unmarked original =>
    rcases Feature.part_of_overlay (Feature.part_of_finished hp) with hp | hp
    · cases Feature.part_of_of hp
      exact raw _ f.part_of_id
    · exact raw part hp
  | inheriting unmarked derived supplied =>
    rcases Feature.part_of_overlay (Feature.part_of_finished hp) with hp | hp
    · rcases Feature.part_of_inherited hp with rfl | hp
      · exact raw _ f.part_of_id
      · exact given.supplied supplied part hp
    · exact raw part hp

theorem Given.formed (hb : b.merger = .byPrototype) (given : b.Given s)
    (h : b.Formation s key scope location g) : ∀ part ∈ g.parts, b.Gives part := by
  cases h with
  | merged prepared made => exact given.merged (gives_of_prepared prepared) made
  | @aggregated m d known declared inScope keyed free raw made =>
    obtain ⟨listed, rfl⟩ := mem_modules_of_get? known
    intro part hp
    rw [made, hb] at hp
    change part ∈ (Feature.layered (aggregateIdentity m d) _).parts at hp
    rcases Feature.part_of_layered hp with rfl | ⟨f, hf, hp⟩
    · exact .composed (.aggregate listed declared)
    · obtain ⟨e, he, rfl⟩ := List.mem_map.1 hf
      have there := SortedMap.get?_of_mem (List.mem_filter.1 he).1
      exact given m.key d.scope e.1 e.2 there part hp

/-! ## Moves -/

/-- A move keeps it that every part was given. -/
theorem Move.given {c c' : Stage} (hb : b.merger = .byPrototype) (hm : b.Move c c')
    (formed : b.Formed c.session) (given : b.Given c.session) : b.Given c'.session :=
  fun key scope location g hg => given.formed hb (hm.forms formed key scope location g hg)

/-- **Every part of an assembled feature was given**, after a build that succeeds. -/
theorem processAll_gives (hb : b.Regular) {o : Outcome}
    (ho : b.processAll (.start b.reactor) = some o) (hok : o.result = .ok ()) : b.Given o.session := by
  unfold processAll at ho
  split at ho
  · cases ho
    cases hok
  · have path := (processEach_follows hb (b.steady_start b.reactor) ho []).path hok
    have keep : ∀ c c', b.Move c c' → b.Formed c.session ∧ b.Given c.session →
        b.Formed c'.session ∧ b.Given c'.session :=
      fun c c' hm h => ⟨hm.formed h.1, hm.given hb.merger h.1 h.2⟩
    have start : b.Formed (.start b.reactor) ∧ b.Given (.start b.reactor) := by
      refine ⟨b.formed_start b.reactor, fun key scope location g hg => ?_⟩
      rw [state_start] at hg
      cases hg
    exact (Path.keeps keep path start).2

end FeatureAssembly.Build
