import FeatureAssembly.Proofs.BuildOrder
import Mathlib.Data.Fintype.Card
import Mathlib.Data.Fintype.EquivFin
import Mathlib.Order.WellFounded

/-!
# The greedy build order

Which modules the build order lists, and which one comes next.

**The law** (`Reactor.buildOrder_greedy`): there is a build order exactly if no module reaches itself
along declared dependencies. It lists all modules, and at each place stands the one that is declared
first among those that are not listed yet and depend on listed modules only (`Reactor.next?`). No
count falls below zero on the way: a walk that gives up there takes the same modules
(`Reactor.takeChecked?`).

What is ready is kept in ascending order, so its first position is the least. When nothing is ready
and modules are left, each of them waits for another one that is left, and as they are finitely many
there is one that reaches itself.

What it does not establish: which modules are reported when there is no order.
-/

set_option autoImplicit false

namespace FeatureAssembly.Reactor

variable {r : Reactor}

/-! ## The first module that can come next -/

/-- Whether a module can come next behind those that are listed: it is not listed, and all that it
depends on is. -/
def canFollow (listed : List ModuleKey) (m : Module) : Bool :=
  !listed.contains m.key && m.dependsOn.all fun d => listed.contains d

/-- **The module that comes next**: of those that can, the one that is declared first. -/
def next? (r : Reactor) (listed : List ModuleKey) : Option Module := r.modules.find? (canFollow listed)

theorem canFollow_iff {listed : List ModuleKey} {m : Module} :
    canFollow listed m = true ↔ m.key ∉ listed ∧ ∀ d ∈ m.dependsOn, d ∈ listed := by
  simp [canFollow]

/-! ## Keys at positions -/

/-- What stands among the keys at some positions has one of them. -/
theorem mem_keysAt_iff {l : List Nat} {p : Nat} {m : Module} (hm : r.modules[p]? = some m) :
    m.key ∈ r.keysAt l ↔ p ∈ l := by
  constructor
  · intro hk
    obtain ⟨q, hq, named⟩ := List.mem_filterMap.1 hk
    obtain ⟨n, hn, same⟩ := Option.map_eq_some_iff.1 named
    rwa [position_unique hm hn same.symm]
  · exact fun hp => mem_keysAt hp hm

/-- A list of keys is split where the list of their positions is. -/
theorem split_keysAt {l : List Nat} {before after : List ModuleKey} {key : ModuleKey}
    (h : r.keysAt l = before ++ key :: after) :
    ∃ front p back m, l = front ++ p :: back ∧ r.keysAt front = before ∧
      r.modules[p]? = some m ∧ m.key = key := by
  obtain ⟨front, rest, rfl, rfl, later⟩ := List.filterMap_eq_append_iff.1 h
  obtain ⟨skipped, p, back, rfl, none, here, -⟩ := List.filterMap_eq_cons_iff.1 later
  obtain ⟨m, hm, named⟩ := Option.map_eq_some_iff.1 here
  refine ⟨front ++ skipped, p, back, m, by rw [List.append_assoc], ?_, hm, named⟩
  rw [keysAt, List.filterMap_append, List.filterMap_eq_nil_iff.2 none, List.append_nil]

/-- **A dependency is counted** at the position of a module that is declared to be one. -/
theorem mem_dependencyPositions_iff {p q : Nat} {m n : Module} (hm : r.modules[p]? = some m)
    (hn : r.modules[q]? = some n) : q ∈ r.dependencyPositions p ↔ n.key ∈ m.dependsOn := by
  constructor
  · intro hq
    simp only [dependencyPositions, hm, List.mem_eraseDups, List.mem_filterMap] at hq
    obtain ⟨d, hd, found⟩ := hq
    obtain ⟨lt, here, -⟩ := List.findIdx?_eq_some_iff_getElem.1 found
    have there : r.modules[q] = n := (List.getElem?_eq_some_iff.1 hn).2
    rw [there, beq_iff_eq] at here
    rwa [here]
  · intro hd
    obtain ⟨q', hq', n', hn', same⟩ := exists_dependencyPosition hm hd
    rwa [position_unique hn hn' same.symm]

/-- What is counted as a dependency is a position. -/
theorem lt_of_mem_dependencyPositions {p q : Nat} (hq : q ∈ r.dependencyPositions p) :
    q < r.modules.length := by
  unfold dependencyPositions at hq
  split at hq
  · cases hq
  · obtain ⟨d, -, found⟩ := List.mem_filterMap.1 (List.mem_eraseDups.1 hq)
    exact (List.findIdx?_eq_some_iff_getElem.1 found).1

/-- **What waits for nothing can come next**, behind the modules that are taken. -/
theorem canFollow_iff_untaken {taken : List Nat} {p : Nat} {m : Module} (hm : r.modules[p]? = some m) :
    canFollow (r.keysAt taken) m = true ↔ p ∉ taken ∧ r.untaken taken p = [] := by
  rw [canFollow_iff, mem_keysAt_iff hm]
  refine and_congr_right fun _ => ⟨fun all => ?_, fun none d hd => ?_⟩
  · refine List.eq_nil_iff_forall_not_mem.2 fun q hq => ?_
    obtain ⟨counted, free⟩ := mem_untaken.1 hq
    have hn := List.getElem?_eq_getElem (lt_of_mem_dependencyPositions counted)
    exact free ((mem_keysAt_iff hn).1 (all _ ((mem_dependencyPositions_iff hm hn).1 counted)))
  · obtain ⟨q, hq, n, hn, rfl⟩ := exists_dependencyPosition hm hd
    refine (mem_keysAt_iff hn).2 (Decidable.byContradiction fun free => ?_)
    have waits : q ∈ r.untaken taken p := mem_untaken.2 ⟨hq, free⟩
    rw [none] at waits
    cases waits

/-! ## Positions in order -/

theorem ascending_insertAscending {p : Nat} {l : List Nat} (h : l.Pairwise (· ≤ ·)) :
    (insertAscending p l).Pairwise (· ≤ ·) := by
  induction l with
  | nil => exact List.pairwise_singleton _ p
  | cons a rest ih =>
    obtain ⟨least, later⟩ := List.pairwise_cons.1 h
    rw [insertAscending]
    split
    · next lt =>
      refine List.pairwise_cons.2 ⟨fun q hq => ?_, h⟩
      rcases List.mem_cons.1 hq with rfl | hq
      · exact Nat.le_of_lt lt
      · exact Nat.le_trans (Nat.le_of_lt lt) (least q hq)
    · next ge =>
      refine List.pairwise_cons.2 ⟨fun q hq => ?_, ih later⟩
      rcases mem_insertAscending.1 hq with rfl | hq
      · exact Nat.le_of_not_lt ge
      · exact least q hq

theorem ascending_release {s : Pending} (p : Nat) (h : s.ready.Pairwise (· ≤ ·)) :
    (s.release p).ready.Pairwise (· ≤ ·) := by
  simp only [Pending.release]
  split
  · exact ascending_insertAscending h
  · exact h

theorem ascending_releases {l : List Nat} {s : Pending} (h : s.ready.Pairwise (· ≤ ·)) :
    (l.foldl Pending.release s).ready.Pairwise (· ≤ ·) := by
  induction l generalizing s with
  | nil => exact h
  | cons p rest ih => exact ih (ascending_release p h)

/-- **The counts are right, and what is ready is in order.** -/
structure Sorted (r : Reactor) (taken : List Nat) (s : Pending) : Prop extends Tally r taken s where
  ascending : s.ready.Pairwise (· ≤ ·)

theorem sorted_pending (r : Reactor) : r.Sorted [] r.pending where
  toTally := r.tally_pending
  ascending := List.pairwise_le_range.filter _

theorem Sorted.take {taken rest : List Nat} {p : Nat} {s : Pending} (h : r.Sorted taken s)
    (hs : s.ready = p :: rest) :
    r.Sorted (p :: taken) ((r.dependentPositions p).foldl Pending.release { s with ready := rest }) where
  toTally := h.toTally.take hs
  ascending := ascending_releases (List.pairwise_cons.1 (hs ▸ h.ascending)).2

/-! ## Taking -/

/-- **Where a position is taken** it is the first that is ready, behind those taken before. -/
theorem Sorted.at_take (bound : Nat) {taken : List Nat} {s : Pending} (h : r.Sorted taken s)
    {before after : List Nat} {p : Nat}
    (split : takeReady r.dependentPositions bound s = before ++ p :: after) :
    ∃ s' rest, r.Sorted (before.reverse ++ taken) s' ∧ s'.ready = p :: rest := by
  induction bound generalizing taken s before with
  | zero => simp [takeReady] at split
  | succ bound ih =>
    rw [takeReady] at split
    split at split
    · simp at split
    · next q rest hs =>
      cases before with
      | nil =>
        obtain ⟨rfl, -⟩ := List.cons.inj split
        exact ⟨s, rest, h, hs⟩
      | cons first before =>
        obtain ⟨rfl, later⟩ := List.cons.inj split
        obtain ⟨s', rest', sorted, ready⟩ := ih (h.take hs) later
        refine ⟨s', rest', ?_, ready⟩
        rw [List.reverse_cons, List.append_assoc]
        exact sorted

/-- **Where taking ends** nothing is ready, or the bound is reached. -/
theorem Tally.at_end (bound : Nat) {taken : List Nat} {s : Pending} (h : r.Tally taken s) :
    (Reactor.takeReady r.dependentPositions bound s).length = bound ∨
      ∃ s', r.Tally ((Reactor.takeReady r.dependentPositions bound s).reverse ++ taken) s' ∧ s'.ready = [] := by
  induction bound generalizing taken s with
  | zero => exact .inl rfl
  | succ bound ih =>
    rw [Reactor.takeReady]
    split
    · next none => exact .inr ⟨s, h, none⟩
    · next p rest hs =>
      rcases ih (h.take hs) with all | ⟨s', tally, none⟩
      · exact .inl (congrArg (· + 1) all)
      · refine .inr ⟨s', ?_, none⟩
        rw [List.reverse_cons, List.append_assoc]
        exact tally

/-- **The position that is taken is the least of those that wait for nothing.** -/
theorem next?_of_takeable {before after : List Nat} {p : Nat} {m : Module}
    (split : r.takeable = before ++ p :: after) (hm : r.modules[p]? = some m) :
    r.next? (r.keysAt before) = some m := by
  obtain ⟨s, rest, sorted, ready⟩ := r.sorted_pending.at_take r.modules.length split
  rw [List.append_nil] at sorted
  have untaken : ∀ q, r.untaken before.reverse q = r.untaken before q := fun q => by
    simp only [Reactor.untaken, List.contains_reverse]
  have waits : ∀ q, q ∈ s.ready ↔ q < r.modules.length ∧ q ∉ before ∧ r.untaken before q = [] := fun q => by
    rw [sorted.ready, List.mem_reverse, untaken]
  have least : ∀ q ∈ s.ready, p ≤ q := fun q hq => by
    rw [ready] at hq
    rcases List.mem_cons.1 hq with rfl | hq
    · exact Nat.le_refl _
    · exact (List.pairwise_cons.1 (ready ▸ sorted.ascending)).1 q hq
  obtain ⟨lt, here⟩ := List.getElem?_eq_some_iff.1 hm
  refine List.find?_eq_some_iff_getElem.2 ⟨?_, p, lt, here, fun q hq => ?_⟩
  · exact (canFollow_iff_untaken hm).2 ((waits p).1 (ready ▸ List.mem_cons_self)).2
  · have hn : r.modules[q]? = some r.modules[q] := List.getElem?_eq_getElem _
    rw [Bool.not_eq_true', ← Bool.not_eq_true]
    intro follows
    have free := (waits q).2 ⟨Nat.lt_trans hq lt, (canFollow_iff_untaken hn).1 follows⟩
    exact absurd (least q free) (Nat.not_le_of_lt hq)

/-! ## Counts that stay above zero -/

/-- One dependency of a module is taken, if the module waits for one. -/
def Pending.release? (s : Pending) (position : Nat) : Option Pending :=
  if s.waiting.getD position 0 = 0 then none else some (s.release position)

/-- Take modules while one is ready, and give up if a count would fall below zero. -/
def takeReady? (dependents : Nat → List Nat) : Nat → Pending → Option (List Nat)
  | 0, _ => some []
  | bound + 1, s =>
    match s.ready with
    | [] => some []
    | p :: rest =>
      ((dependents p).foldlM Pending.release? { s with ready := rest }).bind fun s =>
        (takeReady? dependents bound s).map (p :: ·)

/-- **The positions that can be taken** without a count that falls below zero. -/
def takeChecked? (r : Reactor) : Option (List Nat) :=
  takeReady? r.dependentPositions r.modules.length r.pending

/-- Positions that wait can be released, each once. -/
theorem foldlM_release? {l : List Nat} {s : Pending} (distinct : l.Nodup)
    (bounded : ∀ q ∈ l, q < s.waiting.length) (wait : ∀ q ∈ l, s.waiting.getD q 0 ≠ 0) :
    l.foldlM Pending.release? s = some (l.foldl Pending.release s) := by
  induction l generalizing s with
  | nil => rfl
  | cons p rest ih =>
    obtain ⟨hp, hrest⟩ := List.nodup_cons.1 distinct
    have length : (s.release p).waiting.length = s.waiting.length := List.length_set
    have here : s.release? p = some (s.release p) := if_neg (wait p List.mem_cons_self)
    rw [List.foldlM_cons, here]
    refine ih hrest (fun q hq => length ▸ bounded q (List.mem_cons_of_mem _ hq)) fun q hq => ?_
    have other : q ≠ p := fun he => hp (he ▸ hq)
    rw [getD_waiting_release (bounded p List.mem_cons_self), if_neg other]
    exact wait q (List.mem_cons_of_mem _ hq)

/-- Where the counts are right, none falls below zero. -/
theorem Tally.takeReady? (bound : Nat) {taken : List Nat} {s : Pending} (h : r.Tally taken s) :
    Reactor.takeReady? r.dependentPositions bound s =
      some (Reactor.takeReady r.dependentPositions bound s) := by
  induction bound generalizing taken s with
  | zero => rfl
  | succ bound ih =>
    rw [Reactor.takeReady?, Reactor.takeReady]
    cases hs : s.ready with
    | nil => rfl
    | cons p rest =>
      obtain ⟨-, free, -⟩ := (h.ready p).1 (hs ▸ List.mem_cons_self)
      have released := foldlM_release? (s := { s with ready := rest }) (r.nodup_dependentPositions p)
        (fun q hq => h.length ▸ (mem_dependentPositions.1 hq).1) fun q hq => ?wait
      case wait =>
        -- A dependent waits at least for the module that is taken now.
        obtain ⟨lt, counted⟩ := mem_dependentPositions.1 hq
        have waits : p ∈ r.untaken taken q := mem_untaken.2 ⟨counted, free⟩
        show s.waiting.getD q 0 ≠ 0
        rw [h.counts q lt]
        exact Nat.ne_of_gt (List.length_pos_of_mem waits)
      dsimp only
      rw [released, Option.bind_some, ih (h.take hs), Option.map_some]

/-! ## Cycles -/

/-- **No module depends on itself**, also not through others. -/
def Acyclic (r : Reactor) : Prop := ∀ key, ¬ r.Reaches key key

/-- Of some positions without cycles there is one that depends on none of them. -/
theorem Acyclic.exists_minimal (h : r.Acyclic) (left : Nat → Prop) {p : Nat} (hp : left p)
    (bounded : ∀ q, left q → q < r.modules.length) :
    ∃ q, left q ∧ ∀ d ∈ r.dependencyPositions q, ¬ left d := by
  let below (d q : Fin r.modules.length) : Prop := r.Reaches r.modules[q].key r.modules[d].key
  have founded : WellFounded below := by
    have : IsTrans _ below := ⟨fun _ _ _ hd hq => hq.trans hd⟩
    have : Std.Irrefl below := ⟨fun q => h _⟩
    exact Finite.wellFounded_of_trans_of_irrefl below
  obtain ⟨q, hq, least⟩ := founded.has_min { q | left q.1 } ⟨⟨p, bounded p hp⟩, hp⟩
  refine ⟨q, hq, fun d hd hl => least ⟨d, bounded d hl⟩ hl (.single ?_)⟩
  have depends := (mem_dependencyPositions_iff (List.getElem?_eq_getElem q.2)
    (List.getElem?_eq_getElem (bounded d hl))).1 hd
  exact ⟨_, List.getElem_mem q.2, rfl, depends⟩

/-- **Without cycles all modules are taken.** -/
theorem Acyclic.length_takeable (h : r.Acyclic) : r.takeable.length = r.modules.length := by
  rcases r.tally_pending.at_end r.modules.length with all | ⟨s, tally, none⟩
  · exact all
  have nodup : r.takeable.Nodup := (r.tally_pending.takeReady r.modules.length).1
  rw [List.append_nil] at tally
  have every : ∀ p ∈ r.positions, p ∈ r.takeable := by
    intro p hp
    refine Decidable.byContradiction fun left => ?_
    obtain ⟨q, ⟨lt, free⟩, waits⟩ := h.exists_minimal (fun q => q < r.modules.length ∧ q ∉ r.takeable)
      ⟨mem_positions.1 hp, left⟩ fun _ hq => hq.1
    have ready : q ∈ s.ready := by
      refine (tally.ready q).2 ⟨lt, fun hm => free (List.mem_reverse.1 hm), ?_⟩
      refine List.eq_nil_iff_forall_not_mem.2 fun d hd => ?_
      obtain ⟨counted, untaken⟩ := mem_untaken.1 hd
      exact waits d counted ⟨lt_of_mem_dependencyPositions counted, fun hm => untaken (List.mem_reverse.2 hm)⟩
    rw [none] at ready
    cases ready
  have bounded : r.takeable ⊆ r.positions := fun p hp =>
    mem_positions.2 ((r.tally_pending.takeReady r.modules.length).2 p hp).1
  have perm : r.takeable.Perm r.positions :=
    (List.perm_ext_iff_of_nodup nodup List.nodup_range).2 fun p => ⟨fun hp => bounded hp, every p⟩
  rw [perm.length_eq, positions, List.length_range]

/-! ## The order -/

/-- A build order lists the modules of the reactor. -/
theorem perm_of_buildOrder {order : List ModuleKey} (h : r.buildOrder = .ok order) : order.Perm r.keys := by
  refine (List.perm_ext_iff_of_nodup (nodup_of_buildOrder h) r.distinct).2 fun key => ?_
  constructor
  · intro hk
    obtain ⟨m, hm⟩ := Option.isSome_iff_exists.1 (contains_of_mem_buildOrder h hk)
    have named : m.key = key := by simpa using List.find?_some hm
    exact List.mem_map.2 ⟨m, List.mem_of_find?_eq_some hm, named⟩
  · intro hk
    obtain ⟨m, hm, rfl⟩ := List.mem_map.1 hk
    exact mem_of_buildOrder h m hm

/-- Where there is a build order there are no cycles. -/
theorem acyclic_of_buildOrder {order : List ModuleKey} (h : r.buildOrder = .ok order) : r.Acyclic := by
  intro key reaches
  obtain ⟨-, ⟨m, hm, rfl, -⟩, -⟩ := Relation.TransGen.head'_iff.1 reaches
  obtain ⟨before, after, split⟩ := List.append_of_mem (mem_of_buildOrder h m hm)
  have earlier := mem_before_of_reaches h split reaches
  have nodup := nodup_of_buildOrder h
  rw [split] at nodup
  exact (List.nodup_append.1 nodup).2.2 _ earlier _ List.mem_cons_self rfl

/-- **The build order is the greedy one.** There is one exactly if no module reaches itself along
declared dependencies. It lists every module once, and next is always the first one declared of those
that are not listed and depend on listed modules only. And whether there is an order or not, no count
falls below zero. -/
theorem buildOrder_greedy (r : Reactor) :
    ((∃ order, r.buildOrder = .ok order) ↔ r.Acyclic) ∧
      (∀ order, r.buildOrder = .ok order → order.Perm r.keys ∧
        ∀ before key after, order = before ++ key :: after →
          (r.next? before).map Module.key = some key) ∧
      r.takeChecked? = some r.takeable := by
  refine ⟨⟨fun ⟨order, h⟩ => acyclic_of_buildOrder h, fun acyclic => ?found⟩,
    fun order h => ⟨perm_of_buildOrder h, fun before key after split => ?next⟩,
    r.tally_pending.takeReady? r.modules.length⟩
  case found =>
    refine ⟨r.keysAt r.takeable, ?_⟩
    rw [buildOrder, acyclic.length_takeable, if_neg (Nat.lt_irrefl _)]
  case next =>
    obtain ⟨front, p, back, m, positions, rfl, hm, rfl⟩ :=
      split_keysAt ((keysAt_takeable_of_buildOrder h).trans split)
    rw [next?_of_takeable positions hm, Option.map_some]

/-- When `lib` is listed, `app`, which waited for it, comes before `util`, which waits for nothing. -/
example :
    let app : Module := { Module.of "g" "app" "1" with dependsOn := [⟨"g:lib"⟩] }
    let r : Reactor := ⟨[app, .of "g" "lib" "1", .of "g" "util" "1"], by decide, by decide⟩
    r.buildOrder = .ok [⟨"g:lib"⟩, ⟨"g:app"⟩, ⟨"g:util"⟩] := by
  decide +kernel

end FeatureAssembly.Reactor
