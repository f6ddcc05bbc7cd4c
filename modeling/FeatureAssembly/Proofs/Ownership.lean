import FeatureAssembly.Proofs.AddedDependencies
import FeatureAssembly.Proofs.Changes
import FeatureAssembly.Proofs.Coordinates
import Mathlib.Data.List.TakeDrop
import Mathlib.Data.List.TakeWhile

/-!
# Ownership

When a module takes an identity for its own, and what a build makes of it.

**The law** (`Build.ownership_respected`): the owner of an identity is the module with its key, and a
module knows it for its own exactly then, unless the group has a colon in it. So a build adds to the
dependencies of a module, and to what it referred to, nothing of its own but such identities.

A key is group and name joined by a colon. Features are looked for by the key as a whole, but a module
cuts its key again to compare the halves, and cuts it at the first colon. With a colon in the group
that is too early, and the module takes its own features and artifacts for those of another
(`Build.divided_depends_on_itself`). No identity that was read has such a group, but that of a packaged
unit or of an aggregate has the group of its module, which nothing has checked.

What it does not establish: that a module knows all that it was built of for its own. Identities of one
module may have the key of another, where the colon between group and name is not the only one.
-/

set_option autoImplicit false

namespace FeatureAssembly

/-! ## Keys cut again -/

namespace Text

variable {separator : Char} {s before after : String}

theorem bne_of_not_mem {l : List Char} (free : separator ∉ l) : ∀ c ∈ l, (c != separator) = true :=
  fun c hc => bne_iff_ne.2 (List.forall_mem_ne'.2 free c hc)

theorem splitFirst?_append (free : separator ∉ before.toList) :
    splitFirst? separator (before ++ String.ofList [separator] ++ after) = some (before, after) := by
  have inside := bne_of_not_mem free
  have list : (before ++ String.ofList [separator] ++ after).toList =
      before.toList ++ separator :: after.toList := by
    simp
  unfold splitFirst?
  rw [list, List.span_eq_takeWhile_dropWhile, List.takeWhile_append_of_pos inside,
    List.dropWhile_append_of_pos inside]
  simp

theorem splitFirst?_eq_none (free : separator ∉ s.toList) : splitFirst? separator s = none := by
  have nothing : s.toList.dropWhile (· != separator) = [] :=
    List.dropWhile_eq_nil_iff.2 (bne_of_not_mem free)
  unfold splitFirst?
  rw [List.span_eq_takeWhile_dropWhile, nothing]

/-- **What a text is cut to**: the part before the first separator has none in it, and the rest comes
behind. -/
theorem splitFirst?_eq_some_iff : splitFirst? separator s = some (before, after) ↔
    s = before ++ String.ofList [separator] ++ after ∧ separator ∉ before.toList := by
  constructor
  · intro cut
    -- Cut at the first separator, if there is one, the text gives only this.
    by_cases there : separator ∈ s.toList
    · obtain ⟨left, right, list, free⟩ := List.eq_append_cons_of_mem there
      have whole : s = String.ofList left ++ String.ofList [separator] ++ String.ofList right := by
        apply String.toList_injective
        simp [list]
      have free : separator ∉ (String.ofList left).toList := by
        rwa [String.toList_ofList]
      rw [whole, splitFirst?_append free] at cut
      obtain ⟨rfl, rfl⟩ := Prod.mk.inj (Option.some.inj cut)
      exact ⟨whole, free⟩
    · rw [splitFirst?_eq_none there] at cut
      cases cut
  · rintro ⟨rfl, free⟩
    exact splitFirst?_append free

end Text

namespace Identity

variable {id : Identity} {key : ModuleKey}

/-- **An identity whose key is cut too early**: the group has a colon before the one that stands between
group and name. -/
def CutEarly (id : Identity) : Prop := ':' ∈ id.group.toList

instance (id : Identity) : Decidable id.CutEarly := inferInstanceAs (Decidable (_ ∈ _))

/-- **A module knows an identity for its own** if it has its key, and that is not cut too early. -/
theorem isOwnedBy_iff : id.isOwnedBy key = true ↔ id.moduleKey = key ∧ ¬ id.CutEarly := by
  obtain ⟨text⟩ := key
  have named : id.isOwnedBy ⟨text⟩ = true ↔ Text.splitFirst? ':' text = some (id.group, id.name) := by
    unfold isOwnedBy ModuleKey.names
    cases cut : Text.splitFirst? ':' text with
    | none => simp
    | some halves => simp [Prod.ext_iff]
  have joined : id.moduleKey = ⟨text⟩ ↔ text = id.group ++ ":" ++ id.name := by
    rw [moduleKey, ModuleKey.of, ModuleKey.mk.injEq, eq_comm]
  rw [named, joined]
  exact Text.splitFirst?_eq_some_iff

theorem isOwnedBy_eq_false_iff : id.isOwnedBy key = false ↔ id.moduleKey ≠ key ∨ id.CutEarly := by
  rw [← Bool.not_eq_true, isOwnedBy_iff, not_and_or, not_not]

/-- No identity that was read is cut too early. -/
theorem not_cutEarly_of_parse {input : String} (h : parse input = .ok id) : ¬ id.CutEarly := by
  have legible := legible_of_parse h id.group List.mem_cons_self
  exact Text.hasChar_eq_false.1 (isSegment_iff.1 legible).2

/-- Nor is one with the key of a module with no colon but that between group and name. -/
theorem not_cutEarly_of_moduleKey_eq {m : Module} (group : ':' ∉ m.group.toList)
    (name : ':' ∉ m.name.toList) (owned : id.moduleKey = m.key) : ¬ id.CutEarly := by
  have text : id.group ++ ":" ++ id.name = m.group ++ ":" ++ m.name := congrArg ModuleKey.text owned
  -- The key has one colon only, and that is not in the group.
  have colons := congrArg (fun s : String => s.toList.count ':') text
  have own : m.group.toList.count ':' = 0 := List.count_eq_zero.2 group
  have own' : m.name.toList.count ':' = 0 := List.count_eq_zero.2 name
  simp only [String.toList_append, List.count_append, own, own'] at colons
  exact List.count_eq_zero.1 (by omega)

end Identity

namespace Build

variable {b : Build} {s : Session} {p q : Progress} {key owner : ModuleKey} {scope : Scope} {id : Identity}

/-- **What a build has added to a session** for a module is nothing that the module knows for its own:
dependencies behind those that it had, and references to the features that were found for it. -/
structure Respects (s : Session) (p : Progress) : Prop where
  dependencies : ∀ owner, ∃ added,
    p.session.dependenciesOf owner = s.dependenciesOf owner ++ added ∧
      ∀ d ∈ added, d.id.isOwnedBy owner = false
  references : ∀ owner id, (p.session.referencesOf owner).contains id = true ↔
    (s.referencesOf owner).contains id = true ∨
      (∃ scope f, Event.answered owner scope id (.ok (some f)) ∈ p.trace) ∧ id.isOwnedBy owner = false

theorem respects_start (s : Session) : Respects s ⟨s, .empty, []⟩ where
  dependencies owner := ⟨[], (List.append_nil _).symm, fun _ => nofun⟩
  references owner id := by simp

/-- What a scope refers to is ensured behind the dependencies that are there. -/
theorem exists_dependenciesOf_augmented (b : Build) (key : ModuleKey) (scope : Scope) (s : Session)
    (owner : ModuleKey) :
    ∃ added, (b.augmented key scope s).dependenciesOf owner = s.dependenciesOf owner ++ added ∧
      ∀ d ∈ added, d.id.isOwnedBy owner = false := by
  unfold Session.dependenciesOf
  rw [get?_augmented]
  split
  next same =>
    subst same
    cases s.dependencies.get? owner with
    | none => exact ⟨[], rfl, fun _ => nofun⟩
    | some listed =>
      simp only [Option.map_some, Option.getD_some, enlarged]
      split
      · exact ⟨[], (List.append_nil _).symm, fun _ => nofun⟩
      · refine ⟨_, Dependency.foldl_ensure owner _ _ listed, fun d hd => ?_⟩
        obtain ⟨id, lacking, rfl⟩ := List.mem_map.1 hd
        exact (Dependency.mem_lacking.1 lacking).2.1
  · exact ⟨[], (List.append_nil _).symm, fun _ => nofun⟩

namespace Respects

theorem of_eq (h : Respects s p) (dependencies : q.session.dependencies = p.session.dependencies)
    (references : q.session.references = p.session.references) (trace : q.trace = p.trace) :
    Respects s q where
  dependencies owner := by
    rw [Session.dependenciesOf, dependencies]
    exact h.dependencies owner
  references owner id := by
    rw [Session.referencesOf, references, trace]
    exact h.references owner id

theorem note (h : Respects s p) {e : Event} (quiet : HandsNothing e) : Respects s (p.note e) where
  dependencies := h.dependencies
  references owner id := by
    have same : ∀ scope f, Event.answered owner scope id (.ok (some f)) ∈ (p.note e).trace ↔
        Event.answered owner scope id (.ok (some f)) ∈ p.trace := by
      intro scope f
      refine List.mem_cons.trans (or_iff_right ?_)
      rintro rfl
      exact quiet
    simp only [same]
    exact h.references owner id

/-- A feature that was found is referred to, if the module does not know it for its own. -/
theorem answer (h : Respects s p) (key : ModuleKey) (scope : Scope) (id : Identity) (f : Feature) :
    Respects s ((p.onSession (withReference key id)).note (.answered key scope id (.ok (some f)))) where
  dependencies owner := by
    show ∃ added, (withReference key id p.session).dependenciesOf owner = _ ∧ _
    rw [Session.dependenciesOf, dependencies_withReference]
    exact h.dependencies owner
  references owner id' := by
    have found : (∃ scope' f', Event.answered owner scope' id' (.ok (some f')) ∈
        Event.answered key scope id (.ok (some f)) :: p.trace) ↔
        (∃ scope' f', Event.answered owner scope' id' (.ok (some f')) ∈ p.trace) ∨ owner = key ∧ id' = id := by
      constructor
      · rintro ⟨scope', f', there⟩
        rcases List.mem_cons.1 there with here | before
        · cases here
          exact .inr ⟨rfl, rfl⟩
        · exact .inl ⟨scope', f', before⟩
      · rintro (⟨scope', f', before⟩ | ⟨rfl, rfl⟩)
        · exact ⟨scope', f', List.mem_cons_of_mem _ before⟩
        · exact ⟨scope, f, List.mem_cons_self⟩
    have same : owner = key ∧ id' = id ∧ id.isOwnedBy key = false ↔
        (owner = key ∧ id' = id) ∧ id'.isOwnedBy owner = false := by
      constructor
      · rintro ⟨rfl, rfl, other⟩
        exact ⟨⟨rfl, rfl⟩, other⟩
      · rintro ⟨⟨rfl, rfl⟩, other⟩
        exact ⟨rfl, rfl, other⟩
    show ((withReference key id p.session).referencesOf owner).contains id' = true ↔
      _ ∨ (∃ scope' f', _ ∈ _) ∧ _
    rw [contains_withReference_iff, h.references, same, or_assoc, ← or_and_right]
    exact or_congr_right (and_congr_left' found.symm)

theorem augment (h : Respects s p) (key : ModuleKey) (scope : Scope) :
    Respects s (p.onSession (b.augmented key scope)) where
  dependencies owner := by
    obtain ⟨added, before, others⟩ := h.dependencies owner
    obtain ⟨more, behind, others'⟩ := b.exists_dependenciesOf_augmented key scope p.session owner
    refine ⟨added ++ more, ?_, fun d hd => ?_⟩
    · rw [← List.append_assoc, ← before]
      exact behind
    · exact (List.mem_append.1 hd).elim (others d) (others' d)
  references owner id := by
    show ((b.augmented key scope p.session).referencesOf owner).contains id = true ↔ _
    rw [Session.referencesOf, references_augmented]
    exact h.references owner id

end Respects

/-- Whatever changes, a module is given nothing that it knows for its own. -/
theorem Change.respects (h : b.Change p q) (hp : Respects s p) : Respects s q := by
  cases h with
  | note quiet => exact hp.note quiet
  | enter | leave | report | mark | record | aggregate => exact hp.of_eq rfl rfl rfl
  | read _ reads => exact hp.of_eq reads.dependencies reads.references rfl
  | answer key scope id f => exact hp.answer key scope id f
  | augment key scope => exact hp.augment key scope

/-- **Ownership is respected**: an identity that a module does not know for its own, though it has the key
of the module, is one whose key is cut too early. None that was read is of this kind, and none with the key
of a module whose group and name have no colon.

So the processing of a scope of any session that builds come to, however it ends, adds no other of its own
to the dependencies of a module. And a module refers to a feature that was found for it exactly if it was
looked for outside of the module, as it has the key of another, or else is one of these. -/
theorem ownership_respected (hb : b.merger = .byPrototype) (reached : s.Reached b.reactor (· = b))
    (key : ModuleKey) (scope : Scope) :
    ((∀ (id : Identity) (owner : ModuleKey),
        id.isOwnedBy owner = true ↔ id.moduleKey = owner ∧ ¬ id.CutEarly) ∧
      (∀ (input : String) (id : Identity), Identity.parse input = .ok id → ¬ id.CutEarly) ∧
      ∀ (m : Module) (id : Identity), ':' ∉ m.group.toList → ':' ∉ m.name.toList →
        id.moduleKey = m.key → ¬ id.CutEarly) ∧
    ∃ o, b.process s key scope = some o ∧ ∀ owner,
      (∃ added, o.session.dependenciesOf owner = s.dependenciesOf owner ++ added ∧
        ∀ d ∈ added, d.id.moduleKey ≠ owner ∨ d.id.CutEarly) ∧
      ∀ id, (o.session.referencesOf owner).contains id = true ↔
        (s.referencesOf owner).contains id = true ∨
          (∃ scope f, .answered owner scope id (.ok (some f)) ∈ o.events) ∧
            (id.moduleKey ≠ owner ∨ id.CutEarly) := by
  refine ⟨⟨fun id owner => Identity.isOwnedBy_iff, fun input id => Identity.not_cutEarly_of_parse,
    fun m id => Identity.not_cutEarly_of_moduleKey_eq⟩, ?_⟩
  obtain ⟨o, ho⟩ := exists_process hb s key scope
  refine ⟨o, ho, fun owner => ?_⟩
  -- The changes are told of the build with the answers that were given.
  obtain ⟨t, comes⟩ := exists_comes reached
  obtain ⟨comes', ho'⟩ := comes.process_asAnswered hb ho
  have regular := regular_asAnswered hb (t ++ o.events)
  have genuine := genuine_of_reached regular comes'.reached
  obtain ⟨held, changes⟩ := process_changes regular genuine ho'
  obtain ⟨-, kept⟩ :=
    changes.keeps (I := Respects s) (fun _ _ _ => Change.respects) genuine (respects_start s)
  constructor
  · obtain ⟨added, listed, others⟩ := kept.dependencies owner
    exact ⟨added, listed, fun d hd => Identity.isOwnedBy_eq_false_iff.1 (others d hd)⟩
  · intro id
    have recorded := kept.references owner id
    simpa only [List.mem_reverse, Identity.isOwnedBy_eq_false_iff] using recorded

/-- In `followers`, `app` refers to `lib`, which was found for it, and does not depend on itself. -/
theorem followers_ownership :
    let lib : Identity := (Identity.of "g" "lib" "1").withType featureType
    ∃ o, followers.process (.start followers.reactor) ⟨"g:app"⟩ .main = some o ∧
      (∃ scope f, .answered ⟨"g:app"⟩ scope lib (.ok (some f)) ∈ o.events) ∧
      o.session.dependenciesOf ⟨"g:app"⟩ ≠ [] ∧
      ∀ d ∈ o.session.dependenciesOf ⟨"g:app"⟩, d.id.moduleKey ≠ ⟨"g:app"⟩ := by
  intro lib
  obtain ⟨⟨-, -, uncut⟩, o, ho, owners⟩ :=
    ownership_respected (b := followers) rfl .start ⟨"g:app"⟩ .main
  have run : (followers.process (.start followers.reactor) ⟨"g:app"⟩ .main).map (fun o =>
      ((o.session.referencesOf ⟨"g:app"⟩).contains lib, (o.session.dependenciesOf ⟨"g:app"⟩).isEmpty)) =
        some (true, false) := by
    decide +kernel
  rw [ho, Option.map_some, Option.some.injEq] at run
  obtain ⟨refers, depends⟩ := Prod.mk.inj run
  obtain ⟨⟨added, listed, others⟩, references⟩ := owners ⟨"g:app"⟩
  refine ⟨o, ho, ?found, List.isEmpty_eq_false_iff.1 depends, fun d hd own => ?_⟩
  case found =>
    rcases (references lib).1 refers with before | ⟨found, -⟩
    · cases before
    · exact found
  · rw [listed] at hd
    rcases others d hd with other | cut
    · exact other own
    · exact uncut (.of "g" "app" "1") d.id (by decide) (by decide) own cut

/-- A build of one module, with a colon in its group, that attaches its unit to `a`. -/
def divided : Build :=
  let build := ofTable ⟨[.of "a:b" "c" "1"], by decide, by decide⟩
    [(⟨"a:b:c"⟩, .main, "a.json", .of ((Identity.of "x" "y" "1").withType featureType))]
  { build with config.attachPackagedUnit := true }

/-- **A module may depend on itself**: in `divided`, the unit has the key of the module, which does not know
it for its own and gets it as a dependency. -/
theorem divided_depends_on_itself : ∃ o,
    divided.process (.start divided.reactor) ⟨"a:b:c"⟩ .main = some o ∧ o.result = .ok () ∧
      o.session.dependenciesOf ⟨"a:b:c"⟩ = [⟨.of "a:b" "c" "1", "provided"⟩] ∧
      (Identity.of "a:b" "c" "1").moduleKey = ⟨"a:b:c"⟩ ∧
      (Identity.of "a:b" "c" "1").isOwnedBy ⟨"a:b:c"⟩ = false := by
  have run : (divided.process (.start divided.reactor) ⟨"a:b:c"⟩ .main).map (fun o =>
      (o.result, o.session.dependenciesOf ⟨"a:b:c"⟩)) =
        some (.ok (), [⟨.of "a:b" "c" "1", "provided"⟩]) := by
    decide +kernel
  obtain ⟨o, ho, run⟩ := Option.map_eq_some_iff.1 run
  obtain ⟨fine, depends⟩ := Prod.mk.inj run
  exact ⟨o, ho, fine, depends, by decide, by decide⟩

end Build

end FeatureAssembly
