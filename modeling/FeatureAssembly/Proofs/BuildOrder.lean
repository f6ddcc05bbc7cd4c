import FeatureAssembly.Reactor.BuildOrder
import Mathlib.Data.List.Nodup
import Mathlib.Data.List.Range
import Mathlib.Data.List.Perm.Subperm
import Mathlib.Logic.Relation

/-!
# What the build order counts

While modules are taken into the build order, the count of a module is the number of its
dependencies that are not taken, and ready are the modules that are not taken and whose count
is zero (`Reactor.Tally`). Each module is released once by each of its dependencies, so no
module becomes ready twice.

**The law**: a build order that is found lists every module (`Reactor.mem_of_buildOrder`), once
(`Reactor.nodup_of_buildOrder`) and behind all that it depends on
(`Reactor.mem_before_of_reaches`).

What it does not establish: which of the modules that are ready is taken next, and that there is a
build order where modules do not wait for each other.
-/

set_option autoImplicit false

namespace FeatureAssembly.Reactor

variable {r : Reactor}

/-! ## Positions -/

theorem nodup_eraseDups {α : Type} [BEq α] [LawfulBEq α] : (l : List α) → l.eraseDups.Nodup
  | [] => by simp
  | a :: rest => by
    rw [List.eraseDups_cons, List.nodup_cons]
    exact ⟨by simp [List.mem_eraseDups], nodup_eraseDups (rest.filter fun b => !b == a)⟩
termination_by l => l.length
decreasing_by exact Nat.lt_succ_of_le (List.length_filter_le _ _)

theorem nodup_dependencyPositions (r : Reactor) (p : Nat) : (r.dependencyPositions p).Nodup := by
  unfold dependencyPositions
  split
  · exact .nil
  · exact nodup_eraseDups _

theorem mem_positions {p : Nat} : p ∈ r.positions ↔ p < r.modules.length := List.mem_range

/-- Dependents are those that have the position among their dependencies. -/
theorem mem_dependentPositions {p q : Nat} :
    q ∈ r.dependentPositions p ↔ q < r.modules.length ∧ p ∈ r.dependencyPositions q := by
  unfold dependentPositions
  rw [List.mem_filter, mem_positions, List.contains_iff_mem]

theorem nodup_dependentPositions (r : Reactor) (p : Nat) : (r.dependentPositions p).Nodup :=
  List.nodup_range.filter _

theorem mem_keysAt {l : List Nat} {m : Module} {p : Nat} (hp : p ∈ l) (hm : r.modules[p]? = some m) :
    m.key ∈ r.keysAt l :=
  List.mem_filterMap.2 ⟨p, hp, by rw [hm, Option.map_some]⟩

/-! ## Releasing -/

/-- **A position is put among others**, and nothing else happens to them. -/
theorem perm_insertAscending (p : Nat) (l : List Nat) : (insertAscending p l).Perm (p :: l) := by
  induction l with
  | nil => exact .refl _
  | cons q rest ih =>
    rw [insertAscending]
    split
    · exact .refl _
    · exact (ih.cons q).trans (.swap p q rest)

theorem mem_insertAscending {p q : Nat} {l : List Nat} : q ∈ insertAscending p l ↔ q = p ∨ q ∈ l :=
  (perm_insertAscending p l).mem_iff.trans List.mem_cons

theorem getD_waiting_release {s : Pending} {p : Nat} (bound : p < s.waiting.length) (q : Nat) :
    (s.release p).waiting.getD q 0 = if q = p then s.waiting.getD p 0 - 1 else s.waiting.getD q 0 := by
  simp only [Pending.release, List.getD_eq_getElem?_getD, List.getElem?_set]
  by_cases hq : q = p
  · simp [hq, bound]
  · simp [hq, Ne.symm hq]

theorem mem_ready_release {s : Pending} {p q : Nat} :
    q ∈ (s.release p).ready ↔ q ∈ s.ready ∨ q = p ∧ s.waiting.getD p 0 - 1 = 0 := by
  simp only [Pending.release]
  split
  · next zero => rw [mem_insertAscending, and_iff_left zero, or_comm]
  · next positive => exact ⟨.inl, fun h => h.resolve_right fun hq => positive hq.2⟩

theorem nodup_ready_release {s : Pending} {p : Nat} (ready : s.ready.Nodup) (fresh : p ∉ s.ready) :
    (s.release p).ready.Nodup := by
  simp only [Pending.release]
  split
  · exact (perm_insertAscending p s.ready).nodup_iff.2 (List.nodup_cons.2 ⟨fresh, ready⟩)
  · exact ready

/-- **What releasing some positions does**: their counts fall by one, and those that come to
zero become ready. -/
theorem foldl_release {l : List Nat} {s : Pending} (distinct : l.Nodup)
    (bounded : ∀ q ∈ l, q < s.waiting.length) (fresh : ∀ q ∈ l, q ∉ s.ready) (ready : s.ready.Nodup) :
    let s' := l.foldl Pending.release s
    s'.waiting.length = s.waiting.length ∧
      (∀ q, s'.waiting.getD q 0 = if q ∈ l then s.waiting.getD q 0 - 1 else s.waiting.getD q 0) ∧
      (∀ q, q ∈ s'.ready ↔ q ∈ s.ready ∨ q ∈ l ∧ s.waiting.getD q 0 - 1 = 0) ∧ s'.ready.Nodup := by
  induction l generalizing s with
  | nil => simp [ready]
  | cons p rest ih =>
    obtain ⟨hp, hrest⟩ := List.nodup_cons.1 distinct
    have waiting := getD_waiting_release (bounded p List.mem_cons_self)
    have length : (s.release p).waiting.length = s.waiting.length := List.length_set
    have fresh' : ∀ q ∈ rest, q ∉ (s.release p).ready := by
      intro q hq hr
      rcases mem_ready_release.1 hr with hr | ⟨rfl, -⟩
      · exact fresh q (List.mem_cons_of_mem _ hq) hr
      · exact hp hq
    obtain ⟨length', waiting', members', nodup'⟩ := ih (s := s.release p) hrest
      (fun q hq => length ▸ bounded q (List.mem_cons_of_mem _ hq)) fresh'
      (nodup_ready_release ready (fresh p List.mem_cons_self))
    refine ⟨length'.trans length, fun q => ?_, fun q => ?_, nodup'⟩
    · rw [List.foldl_cons, waiting', waiting]
      by_cases hq : q = p
      · subst hq
        rw [if_neg hp, if_pos rfl, if_pos List.mem_cons_self]
      · simp [hq]
    · rw [List.foldl_cons, members', mem_ready_release, waiting]
      by_cases hq : q = p
      · subst hq
        simp [hp]
      · simp [hq]

/-! ## Counting -/

/-- The dependencies of a module that are not among those taken. -/
def untaken (r : Reactor) (taken : List Nat) (p : Nat) : List Nat :=
  (r.dependencyPositions p).filter fun d => !taken.contains d

/-- **The counts are right**: of each module it is counted what it waits for, and ready are those
that are not taken and wait for nothing. Those that are taken wait for nothing. -/
structure Tally (r : Reactor) (taken : List Nat) (s : Pending) : Prop where
  closed : ∀ p ∈ taken, r.untaken taken p = []
  length : s.waiting.length = r.modules.length
  counts : ∀ p < r.modules.length, s.waiting.getD p 0 = (r.untaken taken p).length
  ready : ∀ p, p ∈ s.ready ↔ p < r.modules.length ∧ p ∉ taken ∧ r.untaken taken p = []
  nodup : s.ready.Nodup

theorem tally_pending (r : Reactor) : r.Tally [] r.pending := by
  have all : ∀ p, r.untaken [] p = r.dependencyPositions p := fun p => by simp [untaken]
  have counts : ∀ p < r.modules.length,
      (r.positions.map fun p => (r.dependencyPositions p).length).getD p 0 =
        (r.dependencyPositions p).length := fun p hp => by
    simp [positions, hp]
  refine ⟨nofun, by simp [pending, positions], fun p hp => ?_, fun p => ?_, List.nodup_range.filter _⟩
  · rw [all]
    exact counts p hp
  · simp only [pending, List.mem_filter, mem_positions, beq_iff_eq, all]
    constructor
    · rintro ⟨hp, h⟩
      rw [counts p hp] at h
      exact ⟨hp, nofun, List.length_eq_zero_iff.1 h⟩
    · rintro ⟨hp, -, h⟩
      exact ⟨hp, by rw [counts p hp, h]; rfl⟩

/-- What a module waits for once another one is taken. -/
theorem untaken_cons (r : Reactor) (taken : List Nat) (p q : Nat) :
    r.untaken (p :: taken) q = (r.untaken taken q).erase p := by
  rw [untaken, untaken, ((r.nodup_dependencyPositions q).filter _).erase_eq_filter, List.filter_filter]
  refine List.filter_congr fun d _ => ?_
  simp only [List.contains_cons, Bool.not_or]
  rfl

theorem mem_untaken {taken : List Nat} {p d : Nat} :
    d ∈ r.untaken taken p ↔ d ∈ r.dependencyPositions p ∧ d ∉ taken := by
  simp [untaken]

/-- **A ready module is taken**: its dependents are released, and the counts are right again. -/
theorem Tally.take {taken rest : List Nat} {p : Nat} {s : Pending} (h : r.Tally taken s)
    (hs : s.ready = p :: rest) :
    r.Tally (p :: taken) ((r.dependentPositions p).foldl Pending.release { s with ready := rest }) := by
  obtain ⟨-, free, done⟩ := (h.ready p).1 (hs ▸ List.mem_cons_self)
  obtain ⟨away, distinct⟩ := List.nodup_cons.1 (hs ▸ h.nodup)
  have others : ∀ q, q ∈ rest ↔ q ≠ p ∧ q ∈ s.ready := fun q => by
    rw [hs, List.mem_cons]
    exact ⟨fun hq => ⟨fun he => away (he ▸ hq), .inr hq⟩, fun hq => hq.2.resolve_left hq.1⟩
  -- A module that waits for the one that is taken is neither taken nor ready.
  have waits : ∀ q ∈ r.dependentPositions p, r.untaken taken q ≠ [] := fun q hq empty => by
    have : p ∈ r.untaken taken q := mem_untaken.2 ⟨(mem_dependentPositions.1 hq).2, free⟩
    rw [empty] at this
    cases this
  obtain ⟨length, counts, ready, nodup⟩ := foldl_release (s := { s with ready := rest })
    (r.nodup_dependentPositions p) (fun q hq => h.length ▸ (mem_dependentPositions.1 hq).1)
    (fun q hq hm => waits q hq ((h.ready q).1 ((others q).1 hm).2).2.2) distinct
  have count : ∀ q < r.modules.length, (r.untaken (p :: taken) q).length =
      if q ∈ r.dependentPositions p then s.waiting.getD q 0 - 1 else s.waiting.getD q 0 := by
    intro q hq
    rw [h.counts q hq, untaken_cons, List.length_erase]
    refine if_congr ?_ rfl rfl
    rw [mem_untaken, mem_dependentPositions]
    exact ⟨fun hm => ⟨hq, hm.1⟩, fun hm => ⟨hm.2, free⟩⟩
  refine ⟨fun q hq => ?_, length.trans h.length, fun q hq => by rw [counts, count q hq],
    fun q => ?_, nodup⟩
  · have empty : r.untaken taken q = [] := (List.mem_cons.1 hq).elim (· ▸ done) (h.closed q)
    rw [untaken_cons, empty]
    rfl
  rw [ready, others, h.ready, List.mem_cons, not_or]
  constructor
  · rintro (⟨ne, hq, hn, empty⟩ | ⟨hq, zero⟩)
    · exact ⟨hq, ⟨ne, hn⟩, by rw [untaken_cons, empty]; rfl⟩
    · have bound := (mem_dependentPositions.1 hq).1
      refine ⟨bound, ⟨fun he => waits q hq (he ▸ done), fun hm => waits q hq (h.closed q hm)⟩, ?_⟩
      rw [← List.length_eq_zero_iff, count q bound, if_pos hq]
      exact zero
  · rintro ⟨hq, ⟨ne, hn⟩, empty⟩
    have zero := count q hq
    rw [empty] at zero
    by_cases hd : q ∈ r.dependentPositions p
    · rw [if_pos hd] at zero
      exact .inr ⟨hd, zero.symm⟩
    · rw [if_neg hd, h.counts q hq] at zero
      exact .inl ⟨ne, hq, hn, List.length_eq_zero_iff.1 zero.symm⟩

/-! ## The order -/

/-- **What is taken** is taken once, and was not taken before. -/
theorem Tally.takeReady (bound : Nat) {taken : List Nat} {s : Pending} (h : r.Tally taken s) :
    (Reactor.takeReady r.dependentPositions bound s).Nodup ∧
      ∀ p ∈ Reactor.takeReady r.dependentPositions bound s, p < r.modules.length ∧ p ∉ taken := by
  induction bound generalizing taken s with
  | zero => exact ⟨.nil, nofun⟩
  | succ bound ih =>
    rw [Reactor.takeReady]
    split
    · exact ⟨.nil, nofun⟩
    · next p rest hs =>
      obtain ⟨nodup, later⟩ := ih (h.take hs)
      obtain ⟨lt, free, -⟩ := (h.ready p).1 (hs ▸ List.mem_cons_self)
      refine ⟨List.nodup_cons.2 ⟨fun hm => (later p hm).2 List.mem_cons_self, nodup⟩, fun q hq => ?_⟩
      rcases List.mem_cons.1 hq with rfl | hq
      · exact ⟨lt, free⟩
      · exact ⟨(later q hq).1, fun hm => (later q hq).2 (List.mem_cons_of_mem _ hm)⟩

/-- **What is taken waits for nothing**: all that it depends on was taken before it. -/
theorem Tally.mem_before_of_takeReady (bound : Nat) {taken : List Nat} {s : Pending}
    (h : r.Tally taken s) {before after : List Nat} {p : Nat}
    (split : Reactor.takeReady r.dependentPositions bound s = before ++ p :: after) :
    ∀ d ∈ r.dependencyPositions p, d ∈ taken ∨ d ∈ before := by
  induction bound generalizing taken s before with
  | zero => simp [Reactor.takeReady] at split
  | succ bound ih =>
    intro d hd
    rw [Reactor.takeReady] at split
    split at split
    · simp at split
    · next q rest hs =>
      cases before with
      | nil =>
        obtain ⟨rfl, -⟩ := List.cons.inj split
        have done := ((h.ready q).1 (hs ▸ List.mem_cons_self)).2.2
        by_cases ht : d ∈ taken
        · exact .inl ht
        · have waits : d ∈ r.untaken taken q := mem_untaken.2 ⟨hd, ht⟩
          rw [done] at waits
          cases waits
      | cons first before =>
        rw [List.cons_append] at split
        obtain ⟨rfl, later⟩ := List.cons.inj split
        rcases ih (h.take hs) later d hd with taken | earlier
        · rcases List.mem_cons.1 taken with rfl | taken
          · exact .inr List.mem_cons_self
          · exact .inl taken
        · exact .inr (List.mem_cons_of_mem _ earlier)

/-- **A build order that is found lists every module.** -/
theorem mem_of_buildOrder {order : List ModuleKey} (h : r.buildOrder = .ok order) :
    ∀ m ∈ r.modules, m.key ∈ order := by
  unfold buildOrder at h
  split at h
  · cases h
  · next all =>
    cases h
    intro m hm
    obtain ⟨nodup, bounded⟩ := r.tally_pending.takeReady r.modules.length
    have within : r.takeable ⊆ r.positions := fun p hp => mem_positions.2 (bounded p hp).1
    have enough : r.positions.length ≤ r.takeable.length := by
      rw [positions, List.length_range]
      exact Nat.le_of_not_lt all
    have every : r.takeable.Perm r.positions :=
      (List.subperm_of_subset nodup within).perm_of_length_le enough
    obtain ⟨p, hp, here⟩ := List.mem_iff_getElem.1 hm
    exact mem_keysAt (every.mem_iff.2 (mem_positions.2 hp)) (by rw [← here]; exact List.getElem?_eq_getElem hp)

theorem keysAt_takeable_of_buildOrder {order : List ModuleKey} (h : r.buildOrder = .ok order) :
    r.keysAt r.takeable = order := by
  unfold buildOrder at h
  split at h
  · cases h
  · exact Except.ok.inj h

/-- A build order has modules of the reactor only. -/
theorem contains_of_mem_buildOrder {order : List ModuleKey} {key : ModuleKey}
    (h : r.buildOrder = .ok order) (hk : key ∈ order) : r.contains key = true := by
  rw [← keysAt_takeable_of_buildOrder h] at hk
  obtain ⟨p, -, here⟩ := List.mem_filterMap.1 hk
  obtain ⟨m, hm, named⟩ := Option.map_eq_some_iff.1 here
  refine List.find?_isSome.2 ⟨m, List.mem_of_getElem? hm, ?_⟩
  rw [named]
  exact BEq.rfl

/-- Modules at two positions have two keys. -/
theorem position_unique {p q : Nat} {m n : Module} (hp : r.modules[p]? = some m)
    (hq : r.modules[q]? = some n) (same : m.key = n.key) : p = q := by
  have lt : p < (r.modules.map Module.key).length := by
    rw [List.length_map]
    exact (List.getElem?_eq_some_iff.1 hp).1
  refine (List.getElem?_inj lt r.distinct).1 ?_
  rw [List.getElem?_map, List.getElem?_map, hp, hq, Option.map_some, Option.map_some, same]

/-- **A build order lists no module twice.** -/
theorem nodup_of_buildOrder {order : List ModuleKey} (h : r.buildOrder = .ok order) : order.Nodup := by
  rw [← keysAt_takeable_of_buildOrder h]
  refine (r.tally_pending.takeReady r.modules.length).1.filterMap fun p q key hp hq => ?_
  obtain ⟨m, hm, rfl⟩ := Option.map_eq_some_iff.1 hp
  obtain ⟨n, hn, same⟩ := Option.map_eq_some_iff.1 hq
  exact position_unique hm hn same.symm

/-! ## Behind dependencies -/

/-- A module declares that it depends on another one. -/
def DependsOn (r : Reactor) (key dependency : ModuleKey) : Prop :=
  ∃ m ∈ r.modules, m.key = key ∧ dependency ∈ m.dependsOn

/-- **One module reaches another** along declared dependencies. -/
abbrev Reaches (r : Reactor) : ModuleKey → ModuleKey → Prop := Relation.TransGen r.DependsOn

/-- What a module depends on has a position, and it is counted. -/
theorem exists_dependencyPosition {p : Nat} {m : Module} {dependency : ModuleKey}
    (hm : r.modules[p]? = some m) (hd : dependency ∈ m.dependsOn) :
    ∃ q ∈ r.dependencyPositions p, ∃ n, r.modules[q]? = some n ∧ n.key = dependency := by
  obtain ⟨n, hn, named⟩ := List.mem_map.1 (r.closed m (List.mem_of_getElem? hm) dependency hd)
  have found : (r.modules.findIdx? fun n => n.key == dependency).isSome = true :=
    List.findIdx?_isSome.trans (List.any_eq_true.2 ⟨n, hn, beq_iff_eq.2 named⟩)
  obtain ⟨q, hq⟩ := Option.isSome_iff_exists.1 found
  obtain ⟨lt, here, -⟩ := List.findIdx?_eq_some_iff_getElem.1 hq
  refine ⟨q, ?_, r.modules[q], List.getElem?_eq_getElem lt, by simpa using here⟩
  simp only [dependencyPositions, hm]
  exact List.mem_eraseDups.2 (List.mem_filterMap.2 ⟨dependency, hd, hq⟩)

/-- A module stands behind what it depends on. -/
theorem mem_before_of_dependsOn {before after : List ModuleKey} {key dependency : ModuleKey}
    (h : r.buildOrder = .ok (before ++ key :: after)) (hd : r.DependsOn key dependency) :
    dependency ∈ before := by
  obtain ⟨taken, rest, split, rfl, later⟩ := List.filterMap_eq_append_iff.1 (keysAt_takeable_of_buildOrder h)
  obtain ⟨skipped, p, left, rfl, none, here, rfl⟩ := List.filterMap_eq_cons_iff.1 later
  obtain ⟨m, hm, named⟩ := Option.map_eq_some_iff.1 here
  obtain ⟨m', mem, named', depends⟩ := hd
  obtain ⟨p', lt, rfl⟩ := List.mem_iff_getElem.1 mem
  have there := List.getElem?_eq_getElem lt
  obtain rfl := position_unique there hm (named'.trans named.symm)
  obtain ⟨q, hq, n, hn, rfl⟩ := exists_dependencyPosition there depends
  have split : r.takeable = (taken ++ skipped) ++ p' :: left := by
    rw [split, List.append_assoc]
  rcases r.tally_pending.mem_before_of_takeReady r.modules.length split q hq with none | earlier
  · cases none
  · have listed : n.key ∈ r.keysAt (taken ++ skipped) := mem_keysAt earlier hn
    rw [keysAt, List.filterMap_append, List.filterMap_eq_nil_iff.2 none, List.append_nil] at listed
    exact listed

/-- **A module stands behind all that it reaches.** -/
theorem mem_before_of_reaches {order before after : List ModuleKey} {key dependency : ModuleKey}
    (h : r.buildOrder = .ok order) (split : order = before ++ key :: after)
    (reaches : r.Reaches key dependency) : dependency ∈ before := by
  induction reaches using Relation.TransGen.head_induction_on generalizing before after with
  | single depends => exact mem_before_of_dependsOn (split ▸ h) depends
  | @head key next depends _ ih =>
    have there := mem_before_of_dependsOn (split ▸ h) depends
    obtain ⟨first, rest, rfl⟩ := List.append_of_mem there
    have split' : order = first ++ next :: (rest ++ key :: after) := by
      rw [split, List.append_assoc, List.cons_append]
    exact List.mem_append_left _ (ih split')

end FeatureAssembly.Reactor
