import FeatureAssembly.Proofs.Soundness

/-!
# Builds from the start

What the invariants of a build say of sessions: a build that starts with nothing stays
steady as long as it succeeds, and leaves a valid session in any case.

**The law** (`Build.processEach_steady`): after scopes were processed in turn, all of them
with success, they are marked, and every scope that is marked is complete.
-/

set_option autoImplicit false

namespace FeatureAssembly.Build

open Step

variable {b : Build} {s : Session}

/-- **A session between builds**: sound, and every scope that is marked is complete. -/
structure Steady (b : Build) (s : Session) : Prop where
  sound : b.Sound .test none s
  complete : ∀ key scope, (s.state key scope).processed = true → b.Completed s key scope

/-- In between, a marked scope is opened. -/
theorem Steady.opened (h : b.Steady s) {key : ModuleKey} {scope : Scope}
    (hp : (s.state key scope).processed = true) : b.Opened s key scope :=
  h.sound.opened_of_marked (mem_visible_test scope) hp

theorem steady_start (b : Build) (r : Reactor) : b.Steady (Session.start r) :=
  ⟨b.sound_start r, fun key scope hp => by rw [state_start] at hp; cases hp⟩

/-- What a build comes to: a valid session, and after a success one that has grown steadily. -/
def Settles (b : Build) (s : Session) (o : Outcome) : Prop :=
  b.Valid o.session ∧ (o.result = .ok () → b.Steady o.session ∧ s.Extends .test o.session)

theorem process_steady (hb : b.Regular) (hs : b.Steady s) {key : ModuleKey}
    {scope : Scope} {o : Outcome} (ho : b.process s key scope = some o) :
    b.Settles s o ∧ (o.result = .ok () → (o.session.state key scope).processed = true) := by
  have visible := mem_visible_test scope
  have none_led : b.LedTo key scope .empty := fun id hi => by cases hi
  obtain ⟨depth, r, p', hx, rfl⟩ := exists_depth_of_process ho
  have ends := ((calls_maintain hb depth).process (p := ⟨s, .empty, []⟩)
    (hs.sound.inner visible) none_led).of_eq_some hx
  cases r with
  | error e => exact ⟨⟨ends, by simp⟩, by simp⟩
  | ok u =>
    obtain ⟨goes, marked⟩ := ends
    have goes := goes.widen hs.sound visible
    refine ⟨⟨goes.1.sound.toValid, fun _ => ⟨⟨goes.1.sound, fun key' scope' hp => ?_⟩, goes.1.grows⟩⟩,
      fun _ => marked.self⟩
    cases hn : (s.state key' scope').processed with
    | false => exact goes.1.fills key' scope' hn hp
    | true => exact (hs.complete key' scope' hn).mono goes.1.grows.retains

/-- **Scopes that are processed in turn.** -/
theorem processEach_steady (hb : b.Regular) {targets : List (ModuleKey × Scope)} :
    ∀ {s : Session} {o : Outcome}, b.Steady s → b.processEach s targets = some o →
      b.Settles s o ∧ (o.result = .ok () → ∀ t ∈ targets, (o.session.state t.1 t.2).processed = true) := by
  induction targets with
  | nil =>
    intro s o hs ho
    cases ho
    exact ⟨⟨hs.sound.toValid, fun _ => ⟨hs, .refl _ _⟩⟩, by simp⟩
  | cons t rest ih =>
    intro s o hs ho
    obtain ⟨first, hfirst, hrest⟩ := Option.bind_eq_some_iff.1 ho
    obtain ⟨⟨valid, steady⟩, marked⟩ := process_steady hb hs hfirst
    unfold andThen at hrest
    cases hr : first.result with
    | error e =>
      rw [hr] at hrest
      cases hrest
      exact ⟨⟨valid, fun hok => by rw [hr] at hok; cases hok⟩, fun hok => by rw [hr] at hok; cases hok⟩
    | ok u =>
      rw [hr] at hrest
      obtain ⟨later, hlater, rfl⟩ := Option.map_eq_some_iff.1 hrest
      obtain ⟨hsteady, grows⟩ := steady hr
      obtain ⟨⟨valid', steady'⟩, marked'⟩ := ih hsteady hlater
      refine ⟨⟨valid', fun hok => (steady' hok).imp_right grows.trans⟩, fun hok t' ht => ?_⟩
      rcases List.mem_cons.1 ht with rfl | ht
      · exact ((steady' hok).2.state t'.1 t'.2).processed (marked hr)
      · exact marked' hok t' ht

/-- What a build of a whole reactor leaves behind is valid. -/
theorem processAll_valid (hb : b.Regular) (hs : b.Steady s) {o : Outcome}
    (ho : b.processAll s = some o) : b.Valid o.session := by
  unfold processAll at ho
  split at ho
  · cases ho
    exact hs.sound.toValid
  · exact (processEach_steady hb hs ho).1.1

/-- A build of a whole reactor that succeeds goes on steadily. -/
theorem processAll_steady (hb : b.Regular) (hs : b.Steady s) {o : Outcome}
    (ho : b.processAll s = some o) (hok : o.result = .ok ()) : b.Steady o.session := by
  unfold processAll at ho
  split at ho
  · cases ho
    cases hok
  · exact ((processEach_steady hb hs ho).1.2 hok).1

end FeatureAssembly.Build
