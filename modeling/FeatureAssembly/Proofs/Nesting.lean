import FeatureAssembly.Proofs.Paths

/-!
# Scopes at work

How far scopes are at a stage of a build: marked and waiting to be read, read, or closed.

**The law** (`Build.Move.nested`): a scope has no raw features before it is read, no scope is
unfinished twice, and main is closed before test is read.

So whatever is done with the features of test, the features of main are done with before: what is
added to the dependencies of a module on behalf of main never depends on test.
-/

set_option autoImplicit false

namespace FeatureAssembly

open Relation Step

namespace Build

variable {b : Build} {c c' : Stage} {key : ModuleKey} {scope : Scope}

namespace Agenda

/-- The scopes that are marked and not complete. -/
def unfinished (a : Agenda) : List (ModuleKey × Scope) := a.waiting ++ a.scopes

theorem unfinished_await (a : Agenda) (key : ModuleKey) (scope : Scope) :
    (a.await key scope).unfinished = (key, scope) :: a.unfinished := rfl

theorem unfinished_workOn (a : Agenda) (key : ModuleKey) (scope : Scope) :
    (a.workOn key scope).unfinished.Perm ((key, scope) :: a.unfinished) :=
  List.perm_middle

end Agenda

namespace Stage

/-- A scope is marked and waits no longer to be read. -/
def Read (c : Stage) (key : ModuleKey) (scope : Scope) : Prop :=
  (c.session.state key scope).processed = true ∧ (key, scope) ∉ c.agenda.waiting

/-- **A scope is closed**: it is marked and finished. -/
def Closed (c : Stage) (key : ModuleKey) (scope : Scope) : Prop :=
  (c.session.state key scope).processed = true ∧ (key, scope) ∉ c.agenda.unfinished

instance (c : Stage) (key : ModuleKey) (scope : Scope) : Decidable (c.Closed key scope) :=
  inferInstanceAs (Decidable (_ ∧ _))

theorem Closed.read (h : c.Closed key scope) : c.Read key scope :=
  ⟨h.1, fun hw => h.2 (List.mem_append_left _ hw)⟩

/-- No scope is marked, read or finished from one stage to the other. -/
structure Still (c c' : Stage) : Prop where
  marks : ∀ key scope, (c'.session.state key scope).processed = (c.session.state key scope).processed
  waiting : c'.agenda.waiting = c.agenda.waiting
  scopes : c'.agenda.scopes = c.agenda.scopes

namespace Still

theorem unfinished (h : c.Still c') : c'.agenda.unfinished = c.agenda.unfinished := by
  rw [Agenda.unfinished, h.waiting, h.scopes]
  rfl

theorem read_iff (h : c.Still c') : c'.Read key scope ↔ c.Read key scope := by
  rw [Read, h.marks, h.waiting]
  rfl

theorem closed_iff (h : c.Still c') : c'.Closed key scope ↔ c.Closed key scope := by
  rw [Closed, h.marks, h.unfinished]
  rfl

end Still

end Stage

/-- **What a move does to the scopes at work**: it marks one, reads one or finishes one, or leaves
them alone. -/
inductive Turn (b : Build) (c c' : Stage) : Prop where
  | still (still : c.Still c') (dependencies : c'.session.dependencies = c.session.dependencies)
    (raw : ∀ key scope, (c'.session.state key scope).raw = (c.session.state key scope).raw)
  | mark {key : ModuleKey} {scope : Scope} (unmarked : (c.session.state key scope).processed = false)
    (session : c'.session = c.session.modifyStore key fun st => st.markProcessed scope)
    (agenda : c'.agenda = c.agenda.await key scope)
  | read {a : Agenda} {key : ModuleKey} {scope : Scope}
    (seen : ∀ scope' ∈ scope.visible, (c.session.state key scope').processed = true)
    (apart : a.Apart scope) (reads : RawSet key scope (b.prepared key scope) c.session c'.session)
    (before : c.agenda = a.await key scope) (after : c'.agenda = a.workOn key scope)
    (trace : ∃ dependencies, c'.trace = .loaded key dependencies scope :: c.trace)
  | finish {key : ModuleKey} {scope : Scope} (ready : b.Ready key scope c.session)
    (complete : b.Completed c.session key scope)
    (session : c'.session = b.augmented key scope c.session)
    (agenda : c.agenda = c'.agenda.workOn key scope)

theorem Move.turn (hm : b.Move c c') : b.Turn c c' := by
  have same : ∀ {s s' : Session} {t t' : List Event} {a : Agenda},
      (∀ key, s'.store key = s.store key) → s'.dependencies = s.dependencies →
      b.Turn ⟨s, t, a⟩ ⟨s', t', a⟩ := fun hs hd => by
    have states := Session.state_eq_of_store_eq hs
    exact .still ⟨fun key scope => congrArg _ (states key scope), rfl, rfl⟩ hd fun key scope =>
      congrArg _ (states key scope)
  cases hm with
  | mark known unmarked apart => exact .mark unmarked rfl rfl
  | read seen apart reads => exact .read seen apart reads rfl rfl ⟨_, rfl⟩
  | record | aggregate =>
    exact .still ⟨fun key scope => Session.processed_recordAssembled _ _ key _ scope _ _, rfl, rfl⟩ rfl
      fun key scope => Session.view_modifyStore _ ScopeState.raw rfl key scope
  | complete ready complete => exact .finish ready complete rfl rfl
  | begin => exact .still ⟨fun _ _ => rfl, rfl, rfl⟩ rfl fun _ _ => rfl
  | supply => exact same (store_withReference _ _ _) (dependencies_withReference _ _ _)
  | fetch | refuse | miss => exact same (fun _ => rfl) rfl

/-- **Scopes at work are nested**: what is unfinished is marked and is so once, there are no raw
features before a scope is read, and main is closed before test is read. -/
structure Nested (c : Stage) : Prop where
  unread : ∀ key scope, ¬ c.Read key scope → (c.session.state key scope).raw = .empty
  marked : ∀ t ∈ c.agenda.unfinished, (c.session.state t.1 t.2).processed = true
  nodup : c.agenda.unfinished.Nodup
  main_closed : ∀ key, c.Read key .test → c.Closed key .main

/-- A scope that is worked on is read. -/
theorem Nested.read_of_work (h : Nested c) {a : Agenda} (agenda : c.agenda = a.workOn key scope) :
    c.Read key scope := by
  have unfinished : c.agenda.unfinished.Perm ((key, scope) :: a.unfinished) := by
    rw [agenda]
    exact a.unfinished_workOn key scope
  refine ⟨h.marked (key, scope) (unfinished.mem_iff.2 List.mem_cons_self), fun hw => ?_⟩
  rw [agenda] at hw
  exact (List.nodup_cons.1 (unfinished.nodup_iff.1 h.nodup)).1 (List.mem_append_left _ hw)

namespace Turn

/-- Scopes that are read stay so. -/
theorem read_mono (ht : b.Turn c c') (h : c.Read key scope) : c'.Read key scope := by
  obtain ⟨marked, idle⟩ := h
  cases ht with
  | still still => exact still.read_iff.2 ⟨marked, idle⟩
  | mark unmarked session agenda =>
    rw [Stage.Read, session, agenda]
    refine ⟨(Session.processed_markProcessed ..).2 (.inr marked), fun hw => ?_⟩
    rcases List.mem_cons.1 hw with heq | hw
    · cases heq
      rw [marked] at unmarked
      cases unmarked
    · exact idle hw
  | read _ _ reads before after =>
    rw [before] at idle
    rw [Stage.Read, reads.processed, after]
    exact ⟨marked, fun hw => idle (List.mem_cons_of_mem _ hw)⟩
  | finish ready complete session agenda =>
    rw [agenda] at idle
    rw [Stage.Read, session, Session.state_eq_of_store_eq (b.store_augmented _ _ _)]
    exact ⟨marked, idle⟩

/-- A scope is read after all that it sees is marked, and the source is asked for it. -/
theorem read_cases (ht : b.Turn c c') (h : c'.Read key scope) : c.Read key scope ∨
    ∃ a : Agenda, c'.agenda = a.workOn key scope ∧ a.Apart scope ∧
      (∀ scope' ∈ scope.visible, (c'.session.state key scope').processed = true) ∧
      ∃ dependencies, c'.trace = .loaded key dependencies scope :: c.trace := by
  obtain ⟨marked, idle⟩ := h
  cases ht with
  | still still => exact .inl (still.read_iff.1 ⟨marked, idle⟩)
  | mark unmarked session agenda =>
    rw [agenda] at idle
    rw [session, Session.processed_markProcessed] at marked
    obtain ⟨other, idle⟩ := not_or.1 (mt List.mem_cons.2 idle)
    exact .inl ⟨marked.resolve_left other, idle⟩
  | @read a key' scope' seen apart reads before after trace =>
    by_cases heq : (key, scope) = (key', scope')
    · cases heq
      exact .inr ⟨a, after, apart, fun s hv => (reads.processed key s).trans (seen s hv), trace⟩
    · rw [after] at idle
      rw [reads.processed] at marked
      refine .inl ⟨marked, fun hw => ?_⟩
      rw [before] at hw
      exact (List.mem_cons.1 hw).elim heq idle
  | finish ready complete session agenda =>
    rw [session, Session.state_eq_of_store_eq (b.store_augmented _ _ _)] at marked
    exact .inl ⟨marked, fun hw => idle (by rw [agenda] at hw; exact hw)⟩

/-- **A move closes a scope** and gives its module the dependencies that it lacks, or it closes
none and leaves dependencies alone. -/
theorem closing (ht : b.Turn c c') (h : Nested c) :
    (c'.session.dependencies = c.session.dependencies ∧
      ∀ key scope, c'.Closed key scope ↔ c.Closed key scope) ∨
    ∃ key scope, b.Ready key scope c.session ∧ b.Completed c.session key scope ∧
      c'.session = b.augmented key scope c.session ∧ c.agenda = c'.agenda.workOn key scope ∧
      ∀ key' scope', c'.Closed key' scope' ↔ (key', scope') = (key, scope) ∨ c.Closed key' scope' := by
  cases ht with
  | still still dependencies => exact .inl ⟨dependencies, fun _ _ => still.closed_iff⟩
  | @mark key scope unmarked session agenda =>
    refine .inl ⟨by rw [session]; rfl, fun key' scope' => ?_⟩
    rw [Stage.Closed, session, Session.processed_markProcessed, agenda, Agenda.unfinished_await,
      List.mem_cons, not_or]
    refine ⟨fun ⟨hp, hne, hw⟩ => ⟨hp.resolve_left hne, hw⟩, fun ⟨hp, hw⟩ => ⟨.inr hp, fun heq => ?_, hw⟩⟩
    cases heq
    rw [hp] at unmarked
    cases unmarked
  | @read a key scope seen apart reads before after =>
    refine .inl ⟨reads.dependencies, fun key' scope' => ?_⟩
    rw [Stage.Closed, Stage.Closed, reads.processed, before, after, (a.unfinished_workOn key scope).mem_iff,
      Agenda.unfinished_await]
  | @finish key scope ready complete session agenda =>
    refine .inr ⟨key, scope, ready, complete, session, agenda, fun key' scope' => ?_⟩
    have unfinished := c'.agenda.unfinished_workOn key scope
    rw [← agenda] at unfinished
    have fresh := (List.nodup_cons.1 (unfinished.nodup_iff.1 h.nodup)).1
    have marked := ready.marked scope (mem_visible_self scope)
    rw [Stage.Closed, session, Session.state_eq_of_store_eq (b.store_augmented _ _ _), Stage.Closed,
      unfinished.mem_iff, List.mem_cons, not_or]
    constructor
    · rintro ⟨hp, hw⟩
      by_cases heq : (key', scope') = (key, scope)
      · exact .inl heq
      · exact .inr ⟨hp, heq, hw⟩
    · rintro (heq | ⟨hp, -, hw⟩)
      · cases heq
        exact ⟨marked, fresh⟩
      · exact ⟨hp, hw⟩

/-- Scopes that are closed stay so. -/
theorem closed_mono (ht : b.Turn c c') (h : Nested c) (hc : c.Closed key scope) : c'.Closed key scope := by
  rcases ht.closing h with ⟨-, closed⟩ | ⟨_, _, -, -, -, -, closed⟩
  · exact (closed key scope).2 hc
  · exact (closed key scope).2 (.inr hc)

/-- **Scopes at work stay nested.** -/
theorem nested (ht : b.Turn c c') (h : Nested c) : Nested c' where
  unread key scope hn := by
    have empty := h.unread key scope fun hr => hn (ht.read_mono hr)
    cases ht with
    | still _ _ raw => exact (raw key scope).trans empty
    | mark _ session =>
      rw [session]
      exact (Session.view_modifyStore _ ScopeState.raw rfl key scope).trans empty
    | @read a key' scope' seen _ reads before after =>
      have fresh : (key', scope') ∉ a.unfinished := by
        have nodup := h.nodup
        rw [before, Agenda.unfinished_await] at nodup
        exact (List.nodup_cons.1 nodup).1
      rw [reads.state, if_neg]
      · exact empty
      · rintro ⟨rfl, rfl⟩
        refine hn ⟨(reads.processed _ _).trans (seen _ (mem_visible_self _)), fun hw => fresh ?_⟩
        rw [after] at hw
        exact List.mem_append_left _ hw
    | finish _ _ session =>
      rw [session, Session.state_eq_of_store_eq (b.store_augmented _ _ _)]
      exact empty
  marked t ht' := by
    cases ht with
    | still still =>
      rw [still.marks]
      exact h.marked t (still.unfinished ▸ ht')
    | mark _ session agenda =>
      rw [agenda, Agenda.unfinished_await] at ht'
      rw [session, Session.processed_markProcessed]
      exact (List.mem_cons.1 ht').imp_right (h.marked t)
    | read _ _ reads before after =>
      rw [after, (Agenda.unfinished_workOn ..).mem_iff, ← Agenda.unfinished_await, ← before] at ht'
      rw [reads.processed]
      exact h.marked t ht'
    | finish _ _ session agenda =>
      rw [session, Session.state_eq_of_store_eq (b.store_augmented _ _ _)]
      refine h.marked t ?_
      rw [agenda, (Agenda.unfinished_workOn ..).mem_iff]
      exact List.mem_cons_of_mem _ ht'
  nodup := by
    cases ht with
    | still still => exact still.unfinished ▸ h.nodup
    | mark unmarked _ agenda =>
      rw [agenda, Agenda.unfinished_await]
      refine List.nodup_cons.2 ⟨fun hw => ?_, h.nodup⟩
      rw [h.marked _ hw] at unmarked
      cases unmarked
    | read _ _ _ before after =>
      rw [after, (Agenda.unfinished_workOn ..).nodup_iff, ← Agenda.unfinished_await, ← before]
      exact h.nodup
    | finish _ _ _ agenda =>
      have nodup := h.nodup
      rw [agenda, (Agenda.unfinished_workOn ..).nodup_iff] at nodup
      exact (List.nodup_cons.1 nodup).2
  main_closed key hr := by
    rcases ht.read_cases hr with old | ⟨a, after, apart, seen, -⟩
    · exact ht.closed_mono h (h.main_closed key old)
    · refine ⟨seen .main (main_mem_visible _), fun hw => ?_⟩
      rw [after, (Agenda.unfinished_workOn ..).mem_iff] at hw
      obtain ⟨waiting, scopes⟩ := apart rfl key
      rcases List.mem_cons.1 hw with heq | hw
      · cases heq
      · exact (List.mem_append.1 hw).elim waiting scopes

end Turn

/-! ## Before a build -/

theorem not_read_start (r : Reactor) (key : ModuleKey) (scope : Scope) :
    ¬ (atRest (.start r) []).Read key scope := by
  rintro ⟨marked, -⟩
  have marked : ((Session.start r).state key scope).processed = true := marked
  rw [state_start] at marked
  cases marked

theorem nested_start (r : Reactor) : Nested (atRest (.start r) []) where
  unread key scope _ := congrArg ScopeState.raw (state_start r key scope)
  marked _ ht := nomatch ht
  nodup := .nil
  main_closed key hr := absurd hr (not_read_start r key .test)

end Build

end FeatureAssembly
