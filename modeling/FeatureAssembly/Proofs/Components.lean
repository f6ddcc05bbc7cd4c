import FeatureAssembly.Proofs.GreedyOrder

/-!
# Components

How the modules that depend on each other are found.

**The law** (`Reactor.components_found`): the components that are found have all positions, each
once, and the members of a component are exactly the positions that are connected with one of them.

There are two walks, and a walk that has enough depth meets what it can reach and nothing else
(`Walk.Meets`). The first one, along the dependencies, leaves positions behind in an order: if one
leads to another one that does not lead back, then something that the first one is connected with is
left behind later than the other one (`Walk.InOrder`). The second walk goes against the
dependencies and starts where the first one ended. So from a position it meets what leads there; but
whatever does not belong to the component of that position was found with an earlier one.

What it does not establish: in which order the members of a component are found.
-/

set_option autoImplicit false

namespace FeatureAssembly.Reactor

open Relation

variable {r : Reactor} {edges : Nat → List Nat} {bound depth p q n : Nat} {starts starts' : List Nat}
  {w w' w'' : Walk}

/-! ## Paths -/

/-- One position leads to another one along edges. -/
abbrev Leads (edges : Nat → List Nat) : Nat → Nat → Prop := ReflTransGen fun p q => q ∈ edges p

/-- **Two positions are connected**: each of them leads to the other one. -/
def Connected (edges : Nat → List Nat) (p q : Nat) : Prop := Leads edges p q ∧ Leads edges q p

namespace Connected

theorem refl (edges : Nat → List Nat) (p : Nat) : Connected edges p p := ⟨.refl, .refl⟩

theorem symm (h : Connected edges p q) : Connected edges q p := ⟨h.2, h.1⟩

theorem trans (h : Connected edges p q) (h' : Connected edges q n) : Connected edges p n :=
  ⟨h.1.trans h'.1, h'.2.trans h.2⟩

end Connected

/-- Where a path leaves some positions, it comes to one that their edges lead to. -/
theorem exists_exit {inside met : List Nat} (closed : ∀ x ∈ inside, edges x ⊆ met) (start : p ∈ inside)
    (path : Leads edges p q) (out : q ∉ inside) : ∃ g ∈ met, g ∉ inside ∧ Leads edges p g := by
  induction path with
  | refl => exact absurd start out
  | @tail x q path edge ih =>
    by_cases hx : x ∈ inside
    · exact ⟨q, closed x hx edge, out, path.tail edge⟩
    · exact ih hx

/-! ## The order of a walk -/

namespace Walk

/-- A position is at work while it is met and not left behind. -/
def AtWork (w : Walk) (p : Nat) : Prop := p ∈ w.met ∧ p ∉ w.left

/-- **A walk leaves positions behind in order**: what leads from there to somewhere else is connected
with something that is still at work, and what leads to a position is led to from there, or else it is
connected with something that is left behind later. -/
structure InOrder (edges : Nat → List Nat) (w : Walk) : Prop where
  within : w.left ⊆ w.met
  closed : ∀ p ∈ w.left, edges p ⊆ w.met
  waits : ∀ p ∈ w.left, ∀ q ∉ w.left, Leads edges p q → ∃ g, w.AtWork g ∧ Connected edges g p
  later : ∀ before p after, w.left = before ++ p :: after → ∀ q, Leads edges q p →
    Leads edges p q ∨ ∃ g, (g ∈ before ∨ g ∉ w.left) ∧ Connected edges g q

namespace InOrder

theorem nothing (edges : Nat → List Nat) : InOrder edges ⟨[], []⟩ where
  within := List.nil_subset _
  closed := nofun
  waits := nofun
  later before _ _ split := by cases before <;> cases split

/-- A position is met, and is at work from then on. -/
theorem enter (h : w.InOrder edges) (p : Nat) : InOrder edges ⟨p :: w.met, w.left⟩ where
  within := List.Subset.trans h.within (List.subset_cons_self _ _)
  closed q hq := List.Subset.trans (h.closed q hq) (List.subset_cons_self _ _)
  waits q hq n hn path := by
    obtain ⟨g, ⟨met, unleft⟩, connected⟩ := h.waits q hq n hn path
    exact ⟨g, ⟨List.mem_cons_of_mem _ met, unleft⟩, connected⟩
  later := h.later

/-- **A position is left behind** when its edges lead to what is met, and all that is at work leads
to it. -/
theorem leave (h : w.InOrder edges) (works : w.AtWork p) (arrives : edges p ⊆ w.met)
    (stack : ∀ g, w.AtWork g → Leads edges g p) : InOrder edges ⟨w.met, p :: w.left⟩ := by
  have closed : ∀ q ∈ p :: w.left, edges q ⊆ w.met := fun q hq =>
    (List.mem_cons.1 hq).elim (fun he => he ▸ arrives) (h.closed q)
  have remains : ∀ {g}, w.AtWork g → g ≠ p → AtWork ⟨w.met, p :: w.left⟩ g := fun hg other =>
    ⟨hg.1, fun hm => (List.mem_cons.1 hm).elim other hg.2⟩
  -- What the position itself leads to by a way out is at work, and so leads back.
  have own : ∀ q ∉ p :: w.left, Leads edges p q →
      ∃ g, AtWork ⟨w.met, p :: w.left⟩ g ∧ Connected edges g p := by
    intro q hq path
    obtain ⟨g, met, out, there⟩ := exists_exit closed List.mem_cons_self path hq
    have back := stack g ⟨met, fun hm => out (List.mem_cons_of_mem p hm)⟩
    exact ⟨g, ⟨met, out⟩, back, there⟩
  refine ⟨List.cons_subset.2 ⟨works.1, h.within⟩, closed, fun q hq n hn path => ?waits,
    fun before q after split n path => ?later⟩
  case waits =>
    rcases List.mem_cons.1 hq with rfl | hq
    · exact own n hn path
    · obtain ⟨g, hg, connected⟩ := h.waits q hq n (fun hm => hn (List.mem_cons_of_mem p hm)) path
      by_cases here : g = p
      · subst here
        obtain ⟨g', hg', connected'⟩ := own n hn (connected.1.trans path)
        exact ⟨g', hg', connected'.trans connected⟩
      · exact ⟨g, remains hg here, connected⟩
  case later =>
    cases before with
    | nil =>
      obtain ⟨rfl, rfl⟩ := List.cons.inj split
      by_cases same : n = p
      · exact .inl (same ▸ .refl)
      by_cases left : n ∈ w.left
      · obtain ⟨g, hg, connected⟩ := h.waits n left p works.2 path
        by_cases here : g = p
        · exact .inl (here ▸ connected.1)
        · exact .inr ⟨g, .inr (remains hg here).2, connected⟩
      · exact .inr ⟨n, .inr fun hm => (List.mem_cons.1 hm).elim same left, .refl edges n⟩
    | cons first before =>
      obtain ⟨rfl, rest⟩ := List.cons.inj split
      refine (h.later before q after rest n path).imp_right fun ⟨g, stands, connected⟩ => ?_
      by_cases here : g = p
      · exact ⟨g, .inl (here ▸ List.mem_cons_self), connected⟩
      · refine ⟨g, stands.imp (List.mem_cons_of_mem p) fun unleft hm => ?_, connected⟩
        exact (List.mem_cons.1 hm).elim here unleft

end InOrder

end Walk

/-! ## Walks -/

/-- The positions below a bound that a walk has not met. -/
def Walk.unmet (w : Walk) (bound : Nat) : List Nat :=
  (List.range bound).filter fun p => !w.met.contains p

theorem Walk.mem_unmet : p ∈ w.unmet bound ↔ p < bound ∧ p ∉ w.met := by
  simp [unmet]

theorem Walk.length_unmet_lt_succ (w : Walk) (bound : Nat) : (w.unmet bound).length < bound + 1 := by
  have le := List.length_filter_le (fun p => !w.met.contains p) (List.range bound)
  rw [List.length_range] at le
  exact Nat.lt_succ_of_le le

theorem Walk.length_unmet_le (h : w.met ⊆ w'.met) : (w'.unmet bound).length ≤ (w.unmet bound).length := by
  refine List.Subperm.length_le (List.subperm_of_subset (List.nodup_range.filter _) fun p hp => ?_)
  obtain ⟨lt, unmet⟩ := mem_unmet.1 hp
  exact mem_unmet.2 ⟨lt, fun met => unmet (h met)⟩

/-- Once a position is met, less is left. -/
theorem Walk.length_unmet_lt (lt : p < bound) (unmet : p ∉ w.met) (h : w.met ⊆ w'.met) (met : p ∈ w'.met) :
    (w'.unmet bound).length < (w.unmet bound).length := by
  have here : p ∈ w.unmet bound := mem_unmet.2 ⟨lt, unmet⟩
  have gone : p ∉ w'.unmet bound := fun hp => (mem_unmet.1 hp).2 met
  have fewer : (p :: w'.unmet bound).Subperm (w.unmet bound) := by
    refine List.subperm_of_subset (List.nodup_cons.2 ⟨gone, List.nodup_range.filter _⟩) fun q hq => ?_
    rcases List.mem_cons.1 hq with rfl | hq
    · exact here
    · obtain ⟨lt, unmet⟩ := mem_unmet.1 hq
      exact mem_unmet.2 ⟨lt, fun met => unmet (h met)⟩
  exact fewer.length_le

/-- **What a walk meets** on its way from some positions: these, all that can be reached from what is
new, and nothing that cannot be reached from them. What is new is left behind, in order if what is at
work leads to all of them. -/
structure Walk.Meets (edges : Nat → List Nat) (starts : List Nat) (w w' : Walk) : Prop where
  keeps : w.met ⊆ w'.met
  arrives : starts ⊆ w'.met
  closed : ∀ p ∈ w'.met, p ∉ w.met → edges p ⊆ w'.met
  reached : ∀ q ∈ w'.met, q ∈ w.met ∨ ∃ p ∈ starts, Leads edges p q
  left : ∃ new, w'.left = new ++ w.left ∧ new.Nodup ∧ ∀ p, p ∈ new ↔ p ∈ w'.met ∧ p ∉ w.met
  order : (∀ g, w.AtWork g → ∀ p ∈ starts, Leads edges g p) → w.InOrder edges → w'.InOrder edges

namespace Walk.Meets

/-- A walk that meets nothing new. -/
theorem same (met : starts ⊆ w.met) : Walk.Meets edges starts w w where
  keeps := List.Subset.refl _
  arrives := met
  closed _ met unmet := absurd met unmet
  reached _ met := .inl met
  left := ⟨[], rfl, .nil, fun _ => by simp⟩
  order _ := id

/-- What is at work in the end was so before. -/
theorem atWork (h : Walk.Meets edges starts w w') (works : w'.AtWork p) : w.AtWork p := by
  obtain ⟨met, unleft⟩ := works
  obtain ⟨new, left, -, mem⟩ := h.left
  rw [left, List.mem_append, not_or] at unleft
  exact ⟨Decidable.byContradiction fun unmet => unleft.1 ((mem p).2 ⟨met, unmet⟩), unleft.2⟩

/-- A walk that goes on from further positions. -/
theorem append (h : Walk.Meets edges starts w w') (h' : Walk.Meets edges starts' w' w'') :
    Walk.Meets edges (starts ++ starts') w w'' where
  keeps := List.Subset.trans h.keeps h'.keeps
  arrives := List.append_subset.2 ⟨List.Subset.trans h.arrives h'.keeps, h'.arrives⟩
  closed p met unmet := by
    by_cases early : p ∈ w'.met
    · exact List.Subset.trans (h.closed p early unmet) h'.keeps
    · exact h'.closed p met early
  reached q met := by
    rcases h'.reached q met with early | ⟨p, hp, path⟩
    · rcases h.reached q early with old | ⟨p, hp, path⟩
      · exact .inl old
      · exact .inr ⟨p, List.mem_append_left _ hp, path⟩
    · exact .inr ⟨p, List.mem_append_right _ hp, path⟩
  left := by
    obtain ⟨new, left, nodup, mem⟩ := h.left
    obtain ⟨new', left', nodup', mem'⟩ := h'.left
    refine ⟨new' ++ new, by rw [left', left, List.append_assoc], ?_, fun p => ?_⟩
    · exact List.nodup_append'.2 ⟨nodup', nodup, fun p hp' hp => ((mem' p).1 hp').2 ((mem p).1 hp).1⟩
    · rw [List.mem_append, mem, mem']
      constructor
      · rintro (⟨met, unmet⟩ | ⟨met, unmet⟩)
        · exact ⟨met, fun old => unmet (h.keeps old)⟩
        · exact ⟨h'.keeps met, unmet⟩
      · rintro ⟨met, unmet⟩
        by_cases early : p ∈ w'.met
        · exact .inr ⟨early, unmet⟩
        · exact .inl ⟨met, early⟩
  order stack h₀ := by
    refine h'.order (fun g works p hp => stack g (h.atWork works) p (List.mem_append_right _ hp)) ?_
    exact h.order (fun g works p hp => stack g works p (List.mem_append_left _ hp)) h₀

/-- **A position is met** together with what is met from its neighbours. -/
theorem visit (unmet : p ∉ w.met) (h : Walk.Meets edges (edges p) ⟨p :: w.met, w.left⟩ w') :
    Walk.Meets edges [p] w ⟨w'.met, p :: w'.left⟩ where
  keeps q met := h.keeps (List.mem_cons_of_mem p met)
  arrives := by simpa using h.keeps List.mem_cons_self
  closed q met unmet := by
    by_cases here : q = p
    · exact here ▸ h.arrives
    · exact h.closed q met (by simp [here, unmet])
  reached q met := by
    rcases h.reached q met with early | ⟨d, edge, path⟩
    · rcases List.mem_cons.1 early with rfl | old
      · exact .inr ⟨q, List.mem_singleton_self q, .refl⟩
      · exact .inl old
    · exact .inr ⟨p, List.mem_singleton_self p, .head edge path⟩
  left := by
    obtain ⟨new, left, nodup, mem⟩ := h.left
    have fresh : p ∉ new := fun hp => ((mem p).1 hp).2 List.mem_cons_self
    refine ⟨p :: new, by rw [left]; rfl, List.nodup_cons.2 ⟨fresh, nodup⟩, fun q => ?_⟩
    rw [List.mem_cons, mem]
    constructor
    · rintro (rfl | ⟨met, new⟩)
      · exact ⟨h.keeps List.mem_cons_self, unmet⟩
      · exact ⟨met, fun old => new (List.mem_cons_of_mem p old)⟩
    · rintro ⟨met, old⟩
      by_cases here : q = p
      · exact .inl here
      · exact .inr ⟨met, by simp [here, old]⟩
  order stack h₀ := by
    have leads : ∀ g, Walk.AtWork ⟨p :: w.met, w.left⟩ g → Leads edges g p := by
      rintro g ⟨met, unleft⟩
      rcases List.mem_cons.1 met with rfl | met
      · exact .refl
      · exact stack g ⟨met, unleft⟩ p (List.mem_singleton_self p)
    have inner := h.order (fun g works q edge => (leads g works).tail edge) (h₀.enter p)
    obtain ⟨new, left, -, mem⟩ := h.left
    have unleft : p ∉ w'.left := by
      rw [left, List.mem_append, mem, not_or]
      exact ⟨fun hp => hp.2 List.mem_cons_self, fun hp => unmet (h₀.within hp)⟩
    exact inner.leave ⟨h.keeps List.mem_cons_self, unleft⟩ h.arrives fun g works => leads g (h.atWork works)

end Walk.Meets

/-- A walk from several positions, where walks from each of them have enough depth. -/
theorem meets_foldl_walkFrom (inside : ∀ p ∈ starts, p < bound)
    (each : ∀ w p, p < bound → (w.unmet bound).length < depth →
      Walk.Meets edges [p] w (walkFrom edges depth w p))
    (enough : (w.unmet bound).length < depth) :
    Walk.Meets edges starts w (starts.foldl (walkFrom edges depth) w) := by
  induction starts generalizing w with
  | nil => exact .same (List.nil_subset _)
  | cons p rest ih =>
    have first := each w p (inside p List.mem_cons_self) enough
    have enough' := Nat.lt_of_le_of_lt (Walk.length_unmet_le first.keeps) enough
    exact first.append (ih (fun q hq => inside q (List.mem_cons_of_mem p hq)) enough')

/-- **A walk with enough depth** meets all that can be reached. -/
theorem meets_walkFrom (inside : ∀ p, ∀ q ∈ edges p, q < bound) (depth : Nat) :
    ∀ w p, p < bound → (w.unmet bound).length < depth →
      Walk.Meets edges [p] w (walkFrom edges depth w p) := by
  induction depth with
  | zero => exact fun _ _ _ none => absurd none (Nat.not_lt_zero _)
  | succ depth ih =>
    intro w p lt enough
    rw [walkFrom]
    split
    · next met => exact .same (by simpa using met)
    · next unmet =>
      have unmet : p ∉ w.met := fun met => unmet (List.contains_iff_mem.2 met)
      have fewer : (Walk.unmet ⟨p :: w.met, w.left⟩ bound).length < (w.unmet bound).length :=
        Walk.length_unmet_lt lt unmet (List.subset_cons_self _ _) List.mem_cons_self
      exact (meets_foldl_walkFrom (inside p) ih (by omega)).visit unmet

/-! ## The first walk -/

/-- A module has another one counted among its dependencies. -/
abbrev Counts (r : Reactor) (p q : Nat) : Prop := q ∈ r.dependencyPositions p

/-- What has a dependency is a position. -/
theorem lt_of_counts (h : r.Counts p q) : p < r.modules.length := by
  refine Decidable.byContradiction fun beyond => ?_
  have none : r.dependencyPositions p = [] := by
    rw [dependencyPositions, List.getElem?_eq_none (Nat.le_of_not_lt beyond)]
  rw [Counts, none] at h
  cases h

/-- What leads to a position is a position. -/
theorem lt_of_leads (h : Leads r.dependencyPositions p q) (hq : q < r.modules.length) :
    p < r.modules.length := by
  rcases ReflTransGen.cases_head h with rfl | ⟨_, edge, -⟩
  · exact hq
  · exact lt_of_counts edge

theorem meets_walkOrder (r : Reactor) : Walk.Meets r.dependencyPositions r.positions ⟨[], []⟩
    (r.positions.foldl (walkFrom r.dependencyPositions (r.modules.length + 1)) ⟨[], []⟩) :=
  meets_foldl_walkFrom (fun _ => mem_positions.1)
    (meets_walkFrom (fun _ _ => lt_of_mem_dependencyPositions) _) (Walk.length_unmet_lt_succ _ _)

/-- What a position leads to is a position. -/
theorem lt_of_leads_from (h : Leads r.dependencyPositions p q) (hp : p < r.modules.length) :
    q < r.modules.length := by
  rcases ReflTransGen.cases_tail h with rfl | ⟨_, -, edge⟩
  · exact hp
  · exact lt_of_mem_dependencyPositions edge

/-- **The first walk leaves every position behind**, and nothing else. -/
theorem mem_walkOrder : p ∈ r.walkOrder ↔ p < r.modules.length := by
  obtain ⟨new, left, -, mem⟩ := r.meets_walkOrder.left
  rw [walkOrder, left, List.append_nil, mem]
  constructor
  · rintro ⟨met, -⟩
    obtain ⟨start, hs, path⟩ := (r.meets_walkOrder.reached p met).resolve_left List.not_mem_nil
    exact lt_of_leads_from path (mem_positions.1 hs)
  · exact fun hp => ⟨r.meets_walkOrder.arrives (mem_positions.2 hp), List.not_mem_nil⟩

/-- **What leads to a position, but not back**, is connected with something that stands before it. -/
theorem connected_before {before after : List Nat} (split : r.walkOrder = before ++ p :: after)
    (hp : p < r.modules.length) (there : Leads r.dependencyPositions q p) :
    Leads r.dependencyPositions p q ∨ ∃ g ∈ before, Connected r.dependencyPositions g q := by
  have order := r.meets_walkOrder.order (fun _ works => nomatch works.1) (.nothing _)
  refine (order.later before p after split q there).imp_right fun ⟨g, stands, connected⟩ => ?_
  have position := lt_of_leads connected.1 (lt_of_leads there hp)
  exact ⟨g, stands.resolve_right fun absent => absent (mem_walkOrder.2 position), connected⟩

/-! ## The second walk -/

/-- **A component of the dependencies**: some positions, and all that are connected with one of
them. -/
structure IsComponent (r : Reactor) (members : List Nat) : Prop where
  nonempty : members ≠ []
  positions : ∀ p ∈ members, p < r.modules.length
  connected : ∀ p ∈ members, ∀ q, q ∈ members ↔ Connected r.dependencyPositions p q

/-- **The components that were found** with some positions: they are components, apart from each
other, and have all these positions. -/
structure Found (r : Reactor) (before : List Nat) (found : List (List Nat)) : Prop where
  component : ∀ members ∈ found, r.IsComponent members
  nodup : found.flatten.Nodup
  covers : before ⊆ found.flatten

variable {before after : List Nat} {found : List (List Nat)}

/-- What is connected with something in a component is in that one. -/
theorem Found.mem_of_connected (h : r.Found before found) (hp : p ∈ found.flatten)
    (connected : Connected r.dependencyPositions p q) : q ∈ found.flatten := by
  obtain ⟨members, hm, hp⟩ := List.mem_flatten.1 hp
  exact List.mem_flatten.2 ⟨members, hm, ((h.component members hm).connected p hp q).2 connected⟩

/-- Against the dependencies, a position leads to what leads to it along them. -/
theorem leads_dependentPositions (path : Leads r.dependentPositions p q) :
    Leads r.dependencyPositions q p := by
  induction path with
  | refl => exact .refl
  | tail _ edge ih => exact .head (mem_dependentPositions.1 edge).2 ih

/-- **What is met from a position** is its component, if all is found that belongs to the positions
before it. -/
theorem Found.mem_walk (h : r.Found before found) (split : r.walkOrder = before ++ p :: after)
    (hp : p < r.modules.length) (fresh : p ∉ found.flatten)
    (meets : Walk.Meets r.dependentPositions [p] ⟨found.flatten, []⟩ w) :
    q ∈ w.met ∧ q ∉ found.flatten ↔ Connected r.dependencyPositions p q := by
  constructor
  · rintro ⟨met, new⟩
    obtain ⟨p', hp', path⟩ := (meets.reached q met).resolve_left new
    cases List.mem_singleton.1 hp'
    have back := leads_dependentPositions path
    refine ⟨(connected_before split hp back).resolve_right fun ⟨g, hg, connected⟩ => ?_, back⟩
    exact new (h.mem_of_connected (h.covers hg) connected)
  · rintro ⟨there, back⟩
    have unfound : ∀ {x}, Leads r.dependencyPositions p x → Leads r.dependencyPositions x p →
        x ∉ found.flatten := fun there back hx => fresh (h.mem_of_connected hx ⟨back, there⟩)
    refine ⟨?_, unfound there back⟩
    -- On the way from there to the position, the walk comes back from one to the one before.
    induction back using ReflTransGen.head_induction_on with
    | refl => exact meets.arrives (List.mem_singleton_self p)
    | @head x y edge back ih =>
      have there' := there.tail edge
      refine meets.closed y (ih there') (unfound there' back) ?_
      exact mem_dependentPositions.2 ⟨lt_of_counts edge, edge⟩

/-- **A position is added**, with its component if that is new. -/
theorem Found.addComponent (h : r.Found before found) (split : r.walkOrder = before ++ p :: after)
    (hp : p < r.modules.length) : r.Found (before ++ [p]) (r.addComponent found p) := by
  unfold Reactor.addComponent
  split
  · next there =>
    exact ⟨h.component, h.nodup, List.append_subset.2 ⟨h.covers, by simpa using there⟩⟩
  · next fresh =>
    have fresh : p ∉ found.flatten := fun there => fresh (List.contains_iff_mem.2 there)
    have meets : Walk.Meets r.dependentPositions [p] ⟨found.flatten, []⟩
        (walkFrom r.dependentPositions (r.modules.length + 1) ⟨found.flatten, []⟩ p) :=
      meets_walkFrom (fun _ _ hq => (mem_dependentPositions.1 hq).1) _ _ p hp (Walk.length_unmet_lt_succ _ _)
    obtain ⟨new, left, nodup, mem⟩ := meets.left
    have mem : ∀ q, q ∈ new ↔ Connected r.dependencyPositions p q := fun q =>
      (mem q).trans (h.mem_walk split hp fresh meets)
    have here : p ∈ new := (mem p).2 (.refl _ p)
    have component : r.IsComponent new := by
      refine ⟨List.ne_nil_of_mem here, fun q hq => lt_of_leads ((mem q).1 hq).2 hp, fun x hx q => ?_⟩
      rw [mem]
      exact ⟨fun hq => ((mem x).1 hx).symm.trans hq, fun hq => ((mem x).1 hx).trans hq⟩
    simp only [left, List.append_nil]
    refine ⟨fun members hm => ?_, ?_, ?_⟩
    · rcases List.mem_append.1 hm with hm | hm
      · exact h.component members hm
      · exact List.mem_singleton.1 hm ▸ component
    · rw [List.flatten_append, List.flatten_singleton]
      refine List.nodup_append'.2 ⟨h.nodup, nodup, fun q hq hn => fresh ?_⟩
      exact h.mem_of_connected hq ((mem q).1 hn).symm
    · rw [List.flatten_append, List.flatten_singleton]
      exact List.append_subset.2 ⟨List.subset_append_of_subset_left _ h.covers,
        by simpa using .inr here⟩

/-- **All positions that are left are added** one after the other. -/
theorem Found.foldl_addComponent (h : r.Found before found) (split : r.walkOrder = before ++ after) :
    r.Found r.walkOrder (after.foldl r.addComponent found) := by
  induction after generalizing before found with
  | nil =>
    rw [split, List.append_nil]
    exact h
  | cons p after ih =>
    have hp : p < r.modules.length := by
      rw [← mem_walkOrder, split]
      exact List.mem_append_right _ List.mem_cons_self
    exact ih (h.addComponent split hp) (by rw [split, List.append_assoc]; rfl)

theorem found_components (r : Reactor) : r.Found r.walkOrder r.components :=
  Found.foldl_addComponent ⟨nofun, .nil, List.nil_subset _⟩ rfl

theorem isComponent_of_mem {members : List Nat} (h : members ∈ r.components) : r.IsComponent members :=
  r.found_components.component members h

/-- Every position is in a component. -/
theorem exists_component (hp : p < r.modules.length) : ∃ members ∈ r.components, p ∈ members :=
  List.mem_flatten.1 (r.found_components.covers (mem_walkOrder.2 hp))

/-- **The components have all positions, each once**, and the members of a component are exactly the
positions that are connected with one of them. -/
theorem components_found (r : Reactor) :
    (∀ members ∈ r.components, members ≠ [] ∧
      ∀ p ∈ members, ∀ q, q ∈ members ↔ Connected r.dependencyPositions p q) ∧
    r.components.flatten.Perm r.positions := by
  refine ⟨fun members hm => ⟨(isComponent_of_mem hm).nonempty, (isComponent_of_mem hm).connected⟩, ?_⟩
  refine (List.perm_ext_iff_of_nodup r.found_components.nodup List.nodup_range).2 fun p => .trans ?_ mem_positions.symm
  constructor
  · intro hp
    obtain ⟨members, hm, hp⟩ := List.mem_flatten.1 hp
    exact (isComponent_of_mem hm).positions p hp
  · exact fun hp => List.mem_flatten.2 (exists_component hp)

end FeatureAssembly.Reactor
