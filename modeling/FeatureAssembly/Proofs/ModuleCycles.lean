import FeatureAssembly.Proofs.Components

/-!
# Reported cycles

Which modules are reported when there is no build order.

**The law** (`Reactor.reported_cycle_is_component`): the modules that are reported are one strongly
connected component of the declared dependencies that has a cycle in it. Each of them reaches each of
them, no other module is reached from one of them and reaches it, and they stand in the order of their
declaration.

That there is no order is seen from the modules that are never ready, and among them are modules that
only wait for a cycle without being on it. What is reported comes from the components instead; as
without cycles all modules are taken, one of these has a cycle. Whether one does is told from its
members alone (`Reactor.IsComponent.isCyclic_iff`): if there are two, they lead to each other.

What it does not establish: which component is reported if there are several.
-/

set_option autoImplicit false

namespace FeatureAssembly.Reactor

open Relation

variable {r : Reactor} {p q : Nat} {members : List Nat}

/-! ## Positions and keys -/

theorem reaches_of_counts {m n : Module} (hm : r.modules[p]? = some m) (hn : r.modules[q]? = some n)
    (path : TransGen r.Counts p q) : r.Reaches m.key n.key := by
  induction path generalizing n with
  | single edge =>
    exact .single ⟨m, List.mem_of_getElem? hm, rfl, (mem_dependencyPositions_iff hm hn).1 edge⟩
  | tail _ edge ih =>
    have there := List.getElem?_eq_getElem (lt_of_counts edge)
    exact (ih there).tail ⟨_, List.mem_of_getElem? there, rfl, (mem_dependencyPositions_iff there hn).1 edge⟩

theorem counts_of_reaches {m n : Module} (hm : r.modules[p]? = some m) (hn : r.modules[q]? = some n)
    (path : r.Reaches m.key n.key) : TransGen r.Counts p q := by
  obtain ⟨key, named⟩ : ∃ key, m.key = key := ⟨_, rfl⟩
  rw [named] at path
  induction path using TransGen.head_induction_on generalizing p m with
  | single depends =>
    obtain ⟨m', mem, named', depends⟩ := depends
    obtain ⟨p', here⟩ := List.mem_iff_getElem?.1 mem
    obtain rfl := position_unique hm here (named.trans named'.symm)
    exact .single ((mem_dependencyPositions_iff here hn).2 depends)
  | head depends _ ih =>
    obtain ⟨m', mem, named', depends⟩ := depends
    obtain ⟨p', here⟩ := List.mem_iff_getElem?.1 mem
    obtain rfl := position_unique hm here (named.trans named'.symm)
    obtain ⟨d, edge, n', there, named⟩ := exists_dependencyPosition here depends
    exact .head edge (ih there named)

/-- **Modules reach each other as their positions do.** -/
theorem reaches_iff {m n : Module} (hm : r.modules[p]? = some m) (hn : r.modules[q]? = some n) :
    r.Reaches m.key n.key ↔ TransGen r.Counts p q :=
  ⟨counts_of_reaches hm hn, reaches_of_counts hm hn⟩

/-- What reaches something is a module. -/
theorem exists_position_of_reaches {key key' : ModuleKey} (h : r.Reaches key key') :
    ∃ (p : Nat) (m : Module), r.modules[p]? = some m ∧ m.key = key := by
  obtain ⟨_, ⟨m, mem, named, -⟩, -⟩ := TransGen.head'_iff.1 h
  obtain ⟨p, here⟩ := List.mem_iff_getElem?.1 mem
  exact ⟨p, m, here, named⟩

/-! ## Components with a cycle -/

namespace IsComponent

/-- **A component has a cycle** just if there is one that a member is on. -/
theorem isCyclic_iff (h : r.IsComponent members) (nodup : members.Nodup) :
    r.isCyclic members = true ↔ ∃ p ∈ members, TransGen r.Counts p p := by
  match members, h, nodup with
  | [], h, _ => exact absurd rfl h.nonempty
  | [p], h, _ =>
    -- What a member alone leads to and is led to from is that member.
    have own : TransGen r.Counts p p ↔ r.Counts p p := by
      refine ⟨fun circle => ?_, .single⟩
      obtain ⟨d, edge, path⟩ := TransGen.head'_iff.1 circle
      have back := (h.connected p List.mem_cons_self d).2 ⟨.single edge, path⟩
      exact List.mem_singleton.1 back ▸ edge
    simp [isCyclic, own]
  | p :: q :: rest, h, nodup =>
    have other : p ≠ q := fun same => (List.nodup_cons.1 nodup).1 (same ▸ List.mem_cons_self)
    have inside : q ∈ p :: q :: rest := List.mem_cons_of_mem p List.mem_cons_self
    obtain ⟨there, back⟩ := (h.connected p List.mem_cons_self q).1 inside
    have leaves := (reflTransGen_iff_eq_or_transGen.1 there).resolve_left other.symm
    have circle := leaves.trans_left back
    exact iff_of_true (by simp [isCyclic]) ⟨p, List.mem_cons_self, circle⟩

/-- In a component with a cycle, each member reaches each one, and what a member reaches and is reached
from is a member. -/
theorem mem_iff (h : r.IsComponent members) (cyclic : ∃ x ∈ members, TransGen r.Counts x x)
    (hp : p ∈ members) : q ∈ members ↔ TransGen r.Counts p q ∧ TransGen r.Counts q p := by
  obtain ⟨x, hx, circle⟩ := cyclic
  -- From one member to another one there is a path by way of the cycle.
  have round : ∀ {y z}, y ∈ members → z ∈ members → TransGen r.Counts y z := fun hy hz =>
    .trans_left (.trans_right ((h.connected _ hy x).1 hx).1 circle) ((h.connected x hx _).1 hz).1
  constructor
  · exact fun hq => ⟨round hp hq, round hq hp⟩
  · rintro ⟨there, back⟩
    exact (h.connected p hp q).2 ⟨there.to_reflTransGen, back.to_reflTransGen⟩

end IsComponent

/-! ## The order of the members -/

theorem perm_ascending (members : List Nat) : (ascending members).Perm members := by
  induction members with
  | nil => exact .nil
  | cons p rest ih => exact (perm_insertAscending p (ascending rest)).trans (ih.cons p)

theorem mem_ascending : p ∈ ascending members ↔ p ∈ members := (perm_ascending members).mem_iff

theorem ascending_ascending (members : List Nat) : (ascending members).Pairwise (· ≤ ·) := by
  induction members with
  | nil => exact .nil
  | cons p rest ih => exact ascending_insertAscending ih

/-- **Different positions are put in ascending order.** -/
theorem pairwise_ascending (nodup : members.Nodup) : (ascending members).Pairwise (· < ·) := by
  have distinct := (perm_ascending members).nodup_iff.2 nodup
  exact ((ascending_ascending members).and distinct).imp fun ⟨le, ne⟩ => Nat.lt_of_le_of_ne le ne

/-! ## The reported modules -/

/-- **The reported modules are a component with a cycle**, if there is no build order. -/
theorem exists_cycleMembers (failed : r.takeable.length < r.modules.length) :
    ∃ members, r.IsComponent members ∧ members.Nodup ∧ (∃ p ∈ members, TransGen r.Counts p p) ∧
      r.cycleMembers = ascending members := by
  have nodup : ∀ members ∈ r.components, members.Nodup := (List.nodup_flatten.1 r.found_components.nodup).1
  have tells : ∀ members ∈ r.components,
      (r.isCyclic members = true ↔ ∃ p ∈ members, TransGen r.Counts p p) := fun members hm =>
    (isComponent_of_mem hm).isCyclic_iff (nodup members hm)
  have cyclic : ¬ r.Acyclic := fun acyclic => Nat.ne_of_lt failed acyclic.length_takeable
  obtain ⟨key, reaches⟩ := Classical.not_forall_not.1 cyclic
  obtain ⟨q, n, hn, rfl⟩ := exists_position_of_reaches reaches
  obtain ⟨around, ha, hq⟩ := exists_component (List.getElem?_eq_some_iff.1 hn).1
  have circles := (tells around ha).2 ⟨q, hq, (reaches_iff hn hn).1 reaches⟩
  cases found : r.components.find? r.isCyclic with
  | none => exact absurd circles (List.find?_eq_none.1 found around ha)
  | some members =>
    have hm := List.mem_of_find?_eq_some found
    refine ⟨members, isComponent_of_mem hm, nodup members hm, ?_, by rw [cycleMembers, found]; rfl⟩
    exact (tells members hm).1 (List.find?_some found)

/-- The key of a module stands at its position. -/
theorem idxOf_key {m : Module} (hm : r.modules[p]? = some m) : r.keys.idxOf m.key = p := by
  have here : r.keys[p]? = some m.key := by rw [keys, List.getElem?_map, hm, Option.map_some]
  obtain ⟨lt, there⟩ := List.getElem?_eq_some_iff.1 here
  rw [← there]
  exact r.distinct.idxOf_getElem p lt

/-- The keys at ascending positions are in the order of their declaration. -/
theorem pairwise_keysAt {l : List Nat} (h : l.Pairwise (· < ·)) :
    (r.keysAt l).Pairwise fun key key' => r.keys.idxOf key < r.keys.idxOf key' := by
  refine h.filterMap _ fun p q lt key hp key' hq => ?_
  obtain ⟨m, hm, rfl⟩ := Option.map_eq_some_iff.1 hp
  obtain ⟨n, hn, rfl⟩ := Option.map_eq_some_iff.1 hq
  rw [idxOf_key hm, idxOf_key hn]
  exact lt

/-- **The keys of a component with a cycle**, seen from one of its modules: what that one reaches and is
reached from. -/
theorem mem_keysAt_component (h : r.IsComponent members) (cyclic : ∃ x ∈ members, TransGen r.Counts x x)
    {m : Module} (hm : r.modules[p]? = some m) (hp : p ∈ members) {key : ModuleKey} :
    key ∈ r.keysAt (ascending members) ↔ r.Reaches m.key key ∧ r.Reaches key m.key := by
  constructor
  · intro hk
    obtain ⟨q, hq, named⟩ := List.mem_filterMap.1 hk
    obtain ⟨n, hn, rfl⟩ := Option.map_eq_some_iff.1 named
    rw [reaches_iff hm hn, reaches_iff hn hm]
    exact (h.mem_iff cyclic hp).1 (mem_ascending.1 hq)
  · rintro ⟨there, back⟩
    obtain ⟨q, n, hn, rfl⟩ := exists_position_of_reaches back
    have paths := And.intro ((reaches_iff hm hn).1 there) ((reaches_iff hn hm).1 back)
    exact mem_keysAt (mem_ascending.2 ((h.mem_iff cyclic hp).2 paths)) hn

/-- **What is reported is a component with a cycle in it**: if modules have no build order, the error
names modules, in the order of their declaration, that are exactly those that one of them reaches and is
reached from, whichever one is taken; and a module that is named alone declares that it depends on
itself. -/
theorem reported_cycle_is_component (r : Reactor) (e : ReactorError) (failed : r.buildOrder = .error e) :
    ∃ members, e = .cycle members ∧ members ≠ [] ∧
      members.Pairwise (fun key key' => r.keys.idxOf key < r.keys.idxOf key') ∧
      (∀ key ∈ members, key ∈ r.keys ∧
        ∀ key', key' ∈ members ↔ r.Reaches key key' ∧ r.Reaches key' key) ∧
      ∀ key, members = [key] → r.DependsOn key key := by
  unfold buildOrder at failed
  split at failed
  case isFalse => cases failed
  case isTrue short =>
    cases failed
    obtain ⟨positions, component, nodup, cyclic, reported⟩ := exists_cycleMembers short
    have same : ∀ key ∈ r.keysAt (ascending positions), ∀ key',
        key' ∈ r.keysAt (ascending positions) ↔ r.Reaches key key' ∧ r.Reaches key' key := by
      intro key hk key'
      obtain ⟨p, hp, named⟩ := List.mem_filterMap.1 hk
      obtain ⟨m, hm, rfl⟩ := Option.map_eq_some_iff.1 named
      exact mem_keysAt_component component cyclic hm (mem_ascending.1 hp)
    rw [reported]
    refine ⟨_, rfl, ?nonempty, ?ascending, fun key hk => ⟨?declared, same key hk⟩, ?alone⟩
    case nonempty =>
      obtain ⟨p, hp⟩ := List.exists_mem_of_ne_nil positions component.nonempty
      have hm := List.getElem?_eq_getElem (component.positions p hp)
      exact List.ne_nil_of_mem (mem_keysAt (mem_ascending.2 hp) hm)
    case ascending => exact pairwise_keysAt (pairwise_ascending nodup)
    case declared =>
      obtain ⟨p, n, hn, rfl⟩ := exists_position_of_reaches ((same key hk key).1 hk).1
      exact List.mem_map_of_mem (List.mem_of_getElem? hn)
    case alone =>
      intro key alone
      have listed : key ∈ r.keysAt (ascending positions) := alone ▸ List.mem_singleton_self key
      obtain ⟨d, depends, path⟩ := TransGen.head'_iff.1 ((same key listed key).1 listed).1
      rcases reflTransGen_iff_eq_or_transGen.1 path with here | back
      · exact here ▸ depends
      · have other := (same key listed d).2 ⟨.single depends, back⟩
        rw [alone, List.mem_singleton] at other
        exact other ▸ depends

/-- Two knots, `solo` with itself and `lib` with `app`, and `tool`, which waits for the second one
without being in it. -/
def knots : Reactor :=
  let depending (name : String) (on : List String) : Module :=
    { Module.of "g" name "1" with dependsOn := on.map (.of "g") }
  { modules := [depending "solo" ["solo"], depending "tool" ["app"], depending "lib" ["app"],
      depending "app" ["lib", "free"], depending "free" []]
    distinct := by decide
    closed := by decide }

/-- In `knots` there is no build order; `lib` and `app` are reported, which reach each other, and `tool`
is not, which is not reached. -/
theorem knots_report_component :
    knots.buildOrder = .error (.cycle [⟨"g:lib"⟩, ⟨"g:app"⟩]) ∧
      knots.Reaches ⟨"g:lib"⟩ ⟨"g:app"⟩ ∧ knots.Reaches ⟨"g:app"⟩ ⟨"g:lib"⟩ ∧
      ¬ (knots.Reaches ⟨"g:app"⟩ ⟨"g:tool"⟩ ∧ knots.Reaches ⟨"g:tool"⟩ ⟨"g:app"⟩) := by
  have failed : knots.buildOrder = .error (.cycle [⟨"g:lib"⟩, ⟨"g:app"⟩]) := by decide +kernel
  obtain ⟨members, reported, -, -, component, -⟩ := reported_cycle_is_component knots _ failed
  cases reported
  have same := (component ⟨"g:app"⟩ (by decide)).2
  obtain ⟨back, there⟩ := (same ⟨"g:lib"⟩).1 (by decide)
  exact ⟨failed, there, back, fun h => absurd ((same ⟨"g:tool"⟩).2 h) (by decide)⟩

end FeatureAssembly.Reactor
