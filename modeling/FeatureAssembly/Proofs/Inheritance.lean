import FeatureAssembly.Proofs.Overlay

/-!
# Inheritance

What the merger by prototype makes of a raw feature, field by field.

**The laws**: the merger asks for the prototype of a feature and for nothing else, and what it makes
of the answer is given in closed form (`Merger.assembles_by_prototype`, with `Feature.LaidOver`). What
a feature does not want of its prototype it does not get, unless the prototype has it more often than
it is unwanted (`Merger.leaves_out`).

The closed form of the lists is for prototypes that repeat no identity. A decoded list may repeat one,
and then a bundle that is left out once is still there (`Merger.not_always_left_out`). An extension is
left out with all it has.

What it does not establish: what a build answers to the question.
-/

set_option autoImplicit false

namespace FeatureAssembly

namespace Feature

variable {base parent : Feature} {prototype : Prototype} {id : Identity}

/-- **What a feature is laid over another**, without some of the bundles and extensions of that. -/
structure LaidOver (base parent : Feature) (removedBundles : List Identity)
    (removedExtensions : List String) (g : Feature) : Prop where
  id : g.id = base.id
  final : g.assembled = true
  original : g.prototype = none
  title : g.title = base.title
  description : g.description = base.description
  vendor : g.vendor = base.vendor.or parent.vendor
  license : g.license = base.license.or parent.license
  bundles : g.bundles.entries =
    Artifacts.combined (parent.bundles.entries.filter fun a => a.id ∉ removedBundles)
      base.bundles.entries
  extensions : ∀ name, g.extensions.get? name =
    Option.merge Extension.combined
      (if name ∈ removedExtensions then none else parent.extensions.get? name)
      (base.extensions.get? name)
  variableValues : ∀ key, g.variableValues.get? key =
    (base.variableValues.get? key).or (parent.variableValues.get? key)
  frameworkProperties : ∀ key, g.frameworkProperties.get? key =
    (base.frameworkProperties.get? key).or (parent.frameworkProperties.get? key)

/-- The extensions of a feature that is laid over what it inherits. -/
theorem get?_extensions_inherited (name : String) :
    ((inherited id parent prototype).overlay base).extensions.get? name =
      Option.merge Extension.overlay
        (if name ∈ prototype.removedExtensions then none else parent.extensions.get? name)
        (base.extensions.get? name) :=
  (get?_foldl_overlayExtension _ _ name).trans
    (congrArg (Option.merge _ · _) (SortedMap.get?_foldl_erase _ _ name))

/-- The bundles of a feature that is laid over what it inherits: its own, and those that are left. -/
theorem mem_bundles_inherited {a : Identity} :
    a ∈ ((inherited id parent prototype).overlay base).bundles.ids ↔
      a ∈ base.bundles.ids ∨ prototype.removedBundles.count a < parent.bundles.ids.count a := by
  have left : a ∈ (inherited id parent prototype).bundles.ids ↔
      prototype.removedBundles.count a < parent.bundles.ids.count a := by
    show a ∈ (prototype.removedBundles.foldl Artifacts.erase parent.bundles).ids ↔ _
    rw [Artifacts.ids_foldl_erase, ← List.count_pos_iff, List.count_diff, Nat.sub_pos_iff_lt]
  rw [← left, Or.comm]
  exact Artifacts.mem_ids_insertAll

/-- **A feature laid over what it inherits**, in closed form. -/
theorem laidOver_inherited (prototype : Prototype) (h : parent.Distinct) :
    LaidOver base parent prototype.removedBundles prototype.removedExtensions
      ((inherited base.id parent prototype).overlay base).finished where
  id := rfl
  final := rfl
  original := rfl
  title := Option.or_none
  description := Option.or_none
  vendor := rfl
  license := rfl
  bundles := by
    have distinct : (prototype.removedBundles.foldl Artifacts.erase parent.bundles).ids.Nodup :=
      Artifacts.nodup_ids_iff.2 fun id twice => Artifacts.nodup_ids_iff.1 h.1 id twice.of_erase
    refine (Artifacts.entries_insertAll distinct base.bundles.entries).trans ?_
    rw [Artifacts.entries_foldl_erase h.1]
  extensions name := by
    refine (get?_extensions_inherited name).trans ?_
    split
    · rw [Option.merge_none_left, Option.merge_none_left]
    · cases lower : parent.extensions.get? name with
      | none => rw [Option.merge_none_left, Option.merge_none_left]
      | some e =>
        cases base.extensions.get? name with
        | none => rfl
        | some e' =>
          exact congrArg some (Extension.overlay_eq_combined fun list => h.2 name e list lower)
  variableValues := SortedMap.get?_insertAll_entries _ _
  frameworkProperties := SortedMap.get?_insertAll_entries _ _

theorem distinct_of (id : Identity) : (of id).Distinct :=
  distinct_iff.2 fun _ _ => not_repeats_of id

/-- A feature without prototype is laid over nothing. -/
theorem laidOver_of : LaidOver base (of base.id) [] [] ((of base.id).overlay base).finished :=
  laidOver_inherited ⟨base.id, [], []⟩ (distinct_of base.id)

end Feature

namespace Merger

/-- **The merger by prototype**, with any provider: a final feature is what it was, and a feature
without prototype is laid over nothing, both without a question. For any other the provider is asked
once, for the prototype. Its error is the outcome, the prototype that it does not have is reported,
and the one that it has is what the feature is laid over, in closed form if it repeats nothing. -/
theorem assembles_by_prototype {m : Type → Type} [Monad m] (provide : Identity → m Answer)
    (note : String → m Unit) (base : Feature) :
    (base.assembled = true → (byPrototype.assemble base).run provide note = pure (.ok base)) ∧
    (base.assembled = false → base.prototype = none →
      ∃ g, (byPrototype.assemble base).run provide note = pure (.ok g) ∧
        Feature.LaidOver base (.of base.id) [] [] g) ∧
    ∀ prototype, base.assembled = false → base.prototype = some prototype →
      ∃ conclude : Answer → Except AssemblyError Feature,
        ((byPrototype.assemble base).run provide note =
          do return conclude (← provide prototype.id)) ∧
        (∀ e, conclude (.error e) = .error e) ∧
        conclude (.ok none) = .error (.unresolvedReference base.id prototype.id) ∧
        ∀ parent, parent.Distinct → ∃ g, conclude (.ok (some parent)) = .ok g ∧
          Feature.LaidOver base parent prototype.removedBundles prototype.removedExtensions g := by
  have same : byPrototype.assemble base = assembleByPrototype base := rfl
  rw [same, assembleByPrototype]
  refine ⟨fun final => ?final, fun raw alone => ?alone, fun prototype raw derived => ?derived⟩
  case final => rw [if_pos final, Inquiry.run]
  case alone =>
    rw [if_neg (by simp [raw]), alone]
    exact ⟨_, rfl, Feature.laidOver_of⟩
  case derived =>
    rw [if_neg (by simp [raw]), derived]
    exact ⟨onPrototype base prototype, rfl, fun _ => rfl, rfl, fun parent distinct =>
      ⟨_, rfl, Feature.laidOver_inherited prototype distinct⟩⟩

/-! A feature that lists `core` twice and leaves out `util`, and its prototype with both. -/

def stock : Feature :=
  { Feature.of ((Identity.of "org.other" "base" "1").withType featureType) with
    vendor := some "stock"
    bundles := ⟨[.of (.of "org.other" "core" "1"), .of (.of "org.other" "util" "1"),
      .of (.of "org.other" "log" "1")]⟩ }

def variant : Feature :=
  { Feature.of ((Identity.of "g" "app" "1").withType featureType) with
    bundles := ⟨[.of (.of "g" "shell" "1"), .of (.of "org.other" "core" "1"),
      ⟨.of "org.other" "core" "1", some 5, .empty⟩]⟩
    prototype := some ⟨stock.id, [.of "org.other" "util" "1"], []⟩ }

/-- One question is asked for `variant`. Its last `core` is in the place of the inherited one, and
`shell` behind what is left. -/
theorem variant_assembled : ∃ g,
    ((byPrototype.assemble variant).run (m := StateM (List Identity))
      (fun id => do modify (id :: ·); return .ok (some stock)) (fun _ => return)).run [] =
        (.ok g, [stock.id]) ∧
      g.vendor = some "stock" ∧
      g.bundles.entries = [⟨.of "org.other" "core" "1", some 5, .empty⟩,
        .of (.of "org.other" "log" "1"), .of (.of "g" "shell" "1")] := by
  obtain ⟨-, -, asks⟩ := assembles_by_prototype (m := StateM (List Identity))
    (fun id => do modify (id :: ·); return .ok (some stock)) (fun _ => return) variant
  obtain ⟨conclude, run, -, -, inherits⟩ := asks _ rfl rfl
  obtain ⟨g, answer, laid⟩ := inherits stock ⟨by decide, nofun⟩
  refine ⟨g, ?_, laid.vendor, laid.bundles.trans (by decide +kernel)⟩
  rw [run, ← answer]
  rfl

/-! ## What is left out -/

section LeavingOut

variable {m : Type → Type} [Monad m] [LawfulMonad m]

/-- **What a feature leaves out of its prototype**, whatever the provider has for that: a bundle is in
what is made of the two if the feature lists it, or if the prototype has it more often than it is left
out; an extension that is left out is the feature's own, or is not there. So where the prototype has a
bundle once, it is left out. -/
theorem leaves_out (provide : Identity → m Answer) (note : String → m Unit) {base parent : Feature}
    {prototype : Prototype} (raw : base.assembled = false) (derived : base.prototype = some prototype)
    (answered : provide prototype.id = pure (.ok (some parent))) :
    ∃ g, (byPrototype.assemble base).run provide note = pure (.ok g) ∧
      (∀ id, id ∈ g.bundles.ids ↔ id ∈ base.bundles.ids ∨
        prototype.removedBundles.count id < parent.bundles.ids.count id) ∧
      (∀ name ∈ prototype.removedExtensions, g.extensions.get? name = base.extensions.get? name) ∧
      (parent.bundles.ids.Nodup → ∀ id ∈ prototype.removedBundles, id ∈ g.bundles.ids →
        id ∈ base.bundles.ids) := by
  have made : (assembleByPrototype base).run provide note =
      pure (.ok ((Feature.inherited base.id parent prototype).overlay base).finished) := by
    rw [assembleByPrototype, if_neg (by simp [raw]), derived]
    show (do return onPrototype base prototype (← provide prototype.id)) = _
    rw [answered, pure_bind]
    rfl
  refine ⟨_, made, fun id => Feature.mem_bundles_inherited, fun name unwanted => ?extensions,
    fun distinct id unwanted there => ?bundles⟩
  case extensions =>
    refine (Feature.get?_extensions_inherited name).trans ?_
    rw [if_pos unwanted, Option.merge_none_left]
  case bundles =>
    refine (Feature.mem_bundles_inherited.1 there).resolve_right ?_
    have once := List.nodup_iff_count_le_one.1 distinct id
    have unwanted := List.count_pos_iff.2 unwanted
    omega

end LeavingOut

/-- `variant` without `util`. -/
theorem variant_leaves_out : ∃ g,
    (byPrototype.assemble variant).run (m := Id) (fun _ => .ok (some stock)) (fun _ => ()) = .ok g ∧
      .of "org.other" "util" "1" ∉ g.bundles.ids := by
  obtain ⟨g, made, -, -, gone⟩ := leaves_out (m := Id) (fun _ => .ok (some stock)) (fun _ => ())
    (rfl : variant.assembled = false) rfl (rfl : _ = (.ok (some stock) : Answer))
  have absent : Identity.of "org.other" "util" "1" ∉ variant.bundles.ids := by decide
  exact ⟨g, made, fun there => absent (gone (by decide) _ (by decide) there)⟩

/-- The prototype has `core` twice, and it is left out once. -/
def disowning : Feature :=
  { Build.heir with prototype := some ⟨Build.twins.id, [.of "org.other" "core" "1"], []⟩ }

def disowningText : String :=
  "\x7b\"id\":\"g:app:feature:1\",\"prototype\":\x7b\"id\":\"org.other:base:feature:1\"," ++
    "\"removed_bundles\":[\"org.other:core:1\"]\x7d\x7d"

/-- **What a feature leaves out is not always left out**, though the feature and its prototype are
decoded. -/
theorem not_always_left_out : ¬ ∀ (base parent g : Feature) (prototype : Prototype),
    (∃ text, Feature.codec.decode text = .ok base) → (∃ text, Feature.codec.decode text = .ok parent) →
      base.assembled = false → base.prototype = some prototype →
        (byPrototype.assemble base).run (m := Id) (fun _ => .ok (some parent)) (fun _ => ()) = .ok g →
          ∀ id ∈ prototype.removedBundles, id ∈ g.bundles.ids → id ∈ base.bundles.ids := by
  intro h
  have there := h disowning Build.twins _ _ ⟨disowningText, Json.ok_of_toOption (by decide +kernel)⟩
    ⟨Build.twinsText, Json.ok_of_toOption (by decide +kernel)⟩ rfl rfl rfl
    (.of "org.other" "core" "1") (by decide) (by decide)
  exact absurd there (by decide)

end Merger

end FeatureAssembly
