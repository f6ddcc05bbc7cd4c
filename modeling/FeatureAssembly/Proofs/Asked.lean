import FeatureAssembly.Proofs.Extension

/-!
# What the source is asked for

A build asks its source for each scope once, with the dependencies that the module has by then.
So what the source answers in the course of a build can be written down: it is what another
source answers that ignores dependencies (`Build.asAnswered`).

**The law** (`Session.Asks.answers_alike`): that other source answers every question that was
asked like the first one. And main is asked for with the dependencies that the module started
with, for nothing is added to them before main is marked.
-/

set_option autoImplicit false

namespace FeatureAssembly

namespace Build

/-! ## Questions -/

/-- The scopes that the source was asked for. -/
def loads (l : List Event) : List (ModuleKey × Scope) :=
  l.filterMap fun
    | .loaded key _ scope => some (key, scope)
    | _ => none

theorem mem_loads_iff {l : List Event} {t : ModuleKey × Scope} :
    t ∈ loads l ↔ ∃ dependencies, .loaded t.1 dependencies t.2 ∈ l := by
  unfold loads
  rw [List.mem_filterMap]
  constructor
  · rintro ⟨e, he, h⟩
    cases e with
    | loaded key dependencies scope => cases h; exact ⟨dependencies, he⟩
    | _ => cases h
  · rintro ⟨dependencies, he⟩
    exact ⟨_, he, rfl⟩

theorem loads_append (l l' : List Event) : loads (l ++ l') = loads l ++ loads l' :=
  List.filterMap_append

/-! ## Between two traces -/

theorem since_append (new t : List Event) : since t (new ++ t) = new.reverse := by
  unfold since
  rw [List.length_append, Nat.add_sub_cancel, List.take_left]

@[simp] theorem since_nil (t : List Event) : since [] t = t.reverse := by
  simpa using since_append t []

@[simp] theorem since_self (t : List Event) : since t t = [] := since_append [] t

theorem since_cons (e : Event) {t t' : List Event} (h : t <:+ t') :
    since t (e :: t') = since t t' ++ [e] := by
  obtain ⟨new, rfl⟩ := h
  rw [← List.cons_append, since_append, since_append, List.reverse_cons]

theorem since_trans {t t' t'' : List Event} (h : t <:+ t') (h' : t' <:+ t'') :
    since t t'' = since t t' ++ since t' t'' := by
  obtain ⟨new, rfl⟩ := h
  obtain ⟨newer, rfl⟩ := h'
  rw [← List.append_assoc, since_append, since_append, List.append_assoc, since_append,
    List.reverse_append]

/-- What was done up to an event, the event, and what was done since. -/
theorem exists_since_eq {t before t' : List Event} {e : Event} (h : t <:+ before)
    (h' : e :: before <:+ t') : ∃ after, since t t' = since t before ++ e :: after := by
  refine ⟨since (e :: before) t', ?_⟩
  rw [since_trans (h.trans (List.suffix_cons e before)) h', since_cons e h, List.append_assoc]
  rfl

/-! ## Fixed answers -/

/-- The dependencies of the one question for a scope are those that it was first asked for with. -/
theorem handed_eq {l : List Event} (once : (loads l).Nodup) {key : ModuleKey}
    {dependencies : List Dependency} {scope : Scope} (h : .loaded key dependencies scope ∈ l) :
    handed l key scope = some dependencies := by
  induction l with
  | nil => cases h
  | cons e rest ih =>
    unfold handed at ih ⊢
    rw [List.findSome?_cons]
    rcases List.mem_cons.1 h with rfl | there
    · simp
    · have later : (key, scope) ∈ loads rest := mem_loads_iff.2 ⟨dependencies, there⟩
      cases e with
      | loaded key' dependencies' scope' =>
        have other : ¬ (key' = key ∧ scope' = scope) := by
          rintro ⟨rfl, rfl⟩
          exact (List.nodup_cons.1 once).1 later
        simp only [if_neg other]
        exact ih (List.nodup_cons.1 once).2 there
      | _ => exact ih once there

theorem handed_eq_none {l : List Event} {key : ModuleKey} {scope : Scope}
    (h : (key, scope) ∉ loads l) : handed l key scope = none := by
  unfold handed
  refine List.findSome?_eq_none_iff.2 fun e he => ?_
  cases e with
  | loaded key' dependencies scope' =>
    refine if_neg ?_
    rintro ⟨rfl, rfl⟩
    exact h (mem_loads_iff.2 ⟨dependencies, he⟩)
  | _ => rfl

variable {b : Build}

theorem declared_eq {m : Module} (hm : m ∈ b.reactor.modules) :
    b.reactor.declared m.key = m.dependencies := by
  unfold Reactor.declared
  rw [get?_of_mem_modules hm]
  rfl

/-- What was not asked for is answered for the declared dependencies. -/
theorem source_asAnswered_of_not_mem {l : List Event} {m : Module} (hm : m ∈ b.reactor.modules)
    {scope : Scope} (h : (m.key, scope) ∉ loads l) :
    (b.asAnswered l).source m scope = b.source m scope := by
  show b.source (m.dependingOn _) scope = _
  rw [handed_eq_none h, Option.getD_none, declared_eq hm]
  rfl

/-- The source of a build with fixed answers ignores dependencies. -/
theorem ignoresDependencies_asAnswered (b : Build) (l : List Event) :
    (b.asAnswered l).source.IgnoresDependencies := fun _ _ _ => rfl

/-- A source that ignores dependencies has nothing else to answer. -/
theorem asAnswered_eq (h : b.source.IgnoresDependencies) (l : List Event) : b.asAnswered l = b := by
  have same : (b.asAnswered l).source = b.source := funext fun m => funext fun scope => h m _ scope
  exact congrArg b.withSource same

/-- **Answers are alike** where something was asked once. -/
theorem answers_alike {l : List Event} (once : (loads l).Nodup) {m : Module}
    {dependencies : List Dependency} {scope : Scope}
    (asked : .loaded m.key dependencies scope ∈ l) :
    (b.asAnswered l).source (m.dependingOn dependencies) scope =
      b.source (m.dependingOn dependencies) scope := by
  show b.source ((m.dependingOn dependencies).dependingOn _) scope = _
  rw [Module.key_dependingOn, handed_eq once asked]
  rfl

theorem alike_asAnswered {l : List Event} (once : (loads l).Nodup) {e : Event} (he : e ∈ l) :
    ¬ b.Unlike (b.asAnswered l).source e := by
  cases e with
  | loaded key dependencies scope =>
    rintro ⟨m, hm, differ⟩
    obtain rfl : m.key = key := (mem_modules_of_get? hm).2
    exact differ (answers_alike once he)
  | _ => exact id

end Build

/-! ## Sessions in between -/

namespace Session

/-- A fresh session has the declared dependencies. -/
theorem get?_dependencies_start {r : Reactor} {m : Module} (hm : m ∈ r.modules) :
    (start r).dependencies.get? m.key = some m.dependencies := by
  have distinct : ((r.modules.map fun m => (m.key, m.dependencies)).map Prod.fst).Nodup := by
    rw [List.map_map]
    exact r.distinct
  exact SortedMap.get?_insertAll_of_mem distinct (List.mem_map_of_mem hm) .empty

theorem dependenciesOf_start {r : Reactor} {m : Module} (hm : m ∈ r.modules) :
    (start r).dependenciesOf m.key = m.dependencies := by
  rw [dependenciesOf, get?_dependencies_start hm]
  rfl

/-- What is marked stays marked. -/
def Marks (s s' : Session) : Prop :=
  ∀ key scope, (s.state key scope).processed = true → (s'.state key scope).processed = true

theorem Extends.marks {scope : Scope} {s s' : Session} (h : s.Extends scope s') : s.Marks s' :=
  fun key scope => (h.state key scope).processed

theorem Marks.trans {s s' s'' : Session} (h : s.Marks s') (h' : s'.Marks s'') : s.Marks s'' :=
  fun key scope hp => h' key scope (h key scope hp)

/-- What is not marked later was not marked before. -/
theorem Marks.unmarked {s s' : Session} (h : s.Marks s') {key : ModuleKey} {scope : Scope}
    (hn : (s'.state key scope).processed = false) : (s.state key scope).processed = false :=
  Bool.eq_false_iff.2 fun hp => Bool.eq_false_iff.1 hn (h key scope hp)

/-- **What is asked for between two sessions**, with what was done until then: only scopes of
modules, each once, which are marked in between, and main with the dependencies of the first
session. -/
structure Asks (r : Reactor) (s s' : Session) (t t' : List Event) : Prop where
  grows : t <:+ t'
  marks : s.Marks s'
  once : (Build.loads (Build.since t t')).Nodup
  asked : ∀ key dependencies scope, .loaded key dependencies scope ∈ Build.since t t' →
    r.contains key = true ∧ (s.state key scope).processed = false ∧
      (s'.state key scope).processed = true ∧ (scope = .main → dependencies = s.dependenciesOf key)
  /-- Nothing is added to the dependencies of a module before main is marked. -/
  dependencies : ∀ key, (s'.state key .main).processed = false →
    s'.dependenciesOf key = s.dependenciesOf key

namespace Asks

open Build

variable {r : Reactor} {s s' s'' : Session} {t t' t'' : List Event}

theorem refl (r : Reactor) (s : Session) (t : List Event) : s.Asks r s t t where
  grows := List.suffix_refl t
  marks _ _ hp := hp
  once := by rw [since_self]; exact .nil
  asked := by rw [since_self]; nofun
  dependencies _ _ := rfl

theorem trans (h : s.Asks r s' t t') (h' : s'.Asks r s'' t' t'') : s.Asks r s'' t t'' where
  grows := h.grows.trans h'.grows
  marks := h.marks.trans h'.marks
  once := by
    rw [since_trans h.grows h'.grows, loads_append]
    refine List.nodup_append'.2 ⟨h.once, h'.once, fun t ht ht' => ?_⟩
    obtain ⟨_, he⟩ := mem_loads_iff.1 ht
    obtain ⟨_, he'⟩ := mem_loads_iff.1 ht'
    obtain ⟨-, -, marked, -⟩ := h.asked _ _ _ he
    obtain ⟨-, unmarked, -⟩ := h'.asked _ _ _ he'
    exact Bool.eq_false_iff.1 unmarked marked
  asked key dependencies scope he := by
    rw [since_trans h.grows h'.grows] at he
    rcases List.mem_append.1 he with he | he
    · obtain ⟨known, unmarked, marked, same⟩ := h.asked _ _ _ he
      exact ⟨known, unmarked, h'.marks _ _ marked, same⟩
    · obtain ⟨known, unmarked, marked, same⟩ := h'.asked _ _ _ he
      refine ⟨known, h.marks.unmarked unmarked, marked, ?_⟩
      rintro rfl
      rw [same rfl, h.dependencies key unmarked]
  dependencies key hn := by
    rw [h'.dependencies key hn, h.dependencies key (h'.marks.unmarked hn)]

/-- A change to the session that marks what was marked, and adds to the dependencies of no module
whose main scope is not marked. -/
theorem onSession (h : s.Asks r s' t t') (hm : s'.Marks s'')
    (hd : ∀ key, (s''.state key .main).processed = false →
      s''.dependenciesOf key = s'.dependenciesOf key) : s.Asks r s'' t t' :=
  h.trans { refl r s' t' with marks := hm, asked := by rw [since_self]; nofun, dependencies := hd }

/-- Whatever was done before, the same is asked for. -/
theorem shift (h : s.Asks r s' [] t') (t : List Event) : s.Asks r s' t (t' ++ t) where
  grows := List.suffix_append t' t
  marks := h.marks
  once := by
    rw [since_append, ← since_nil]
    exact h.once
  asked := by
    rw [since_append, ← since_nil]
    exact h.asked
  dependencies := h.dependencies

/-- Something else is done. -/
theorem note (h : s.Asks r s' t t') {e : Event} (he : loads [e] = []) : s.Asks r s' t (e :: t') := by
  have one : since t' (e :: t') = [e] := by rw [since_cons e (List.suffix_refl t'), since_self]; rfl
  refine h.trans ⟨List.suffix_cons e t', fun _ _ hp => hp, ?_, fun key dependencies scope hm => ?_,
    fun _ _ => rfl⟩
  · rw [one, he]
    exact .nil
  · rw [one] at hm
    have asked : (key, scope) ∈ loads [e] := mem_loads_iff.2 ⟨dependencies, hm⟩
    rw [he] at asked
    cases asked

/-- A scope is asked for that was marked in between, and not asked for since. -/
theorem load (h : s.Asks r s' t t') {key : ModuleKey} {dependencies : List Dependency} {scope : Scope}
    (known : r.contains key = true) (unmarked : (s.state key scope).processed = false)
    (marked : (s'.state key scope).processed = true) (fresh : (key, scope) ∉ loads (since t t'))
    (same : scope = .main → dependencies = s.dependenciesOf key) :
    s.Asks r s' t (.loaded key dependencies scope :: t') where
  grows := h.grows.trans (List.suffix_cons _ _)
  marks := h.marks
  once := by
    rw [since_cons _ h.grows, loads_append]
    refine List.nodup_append'.2 ⟨h.once, List.nodup_singleton _, ?_⟩
    rintro t ht ht'
    cases List.mem_singleton.1 ht'
    exact fresh ht
  asked key' dependencies' scope' he := by
    rw [since_cons _ h.grows] at he
    rcases List.mem_append.1 he with he | he
    · exact h.asked _ _ _ he
    · cases List.mem_singleton.1 he
      exact ⟨known, unmarked, marked, same⟩
  dependencies := h.dependencies

end Asks

end Session

end FeatureAssembly
