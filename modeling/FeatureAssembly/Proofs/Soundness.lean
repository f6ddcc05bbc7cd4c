import FeatureAssembly.Proofs.Invariant
import FeatureAssembly.Proofs.Answers

/-!
# Builds keep their invariants

The walk through the pieces of a build that keeps `Build.Sound` as long as nothing fails and
`Build.Valid` when something does.

**The law** (`Build.calls_maintain`): at any depth, processing a scope completes every scope
that it marks, and providing a feature answers with what the lookup rule supplies, provided
that every identity in flight leads to the features that are at work.

While a module is processed on behalf of a feature, what that feature was needed for stays
in flight. It leads to everything that is to be seen of the module, because the feature
drags it along; so the premise is there again for each feature that is assembled next.
-/

set_option autoImplicit false

namespace FeatureAssembly

open Step

namespace Build

variable {b : Build} {calls : Calls} {p p' p'' : Progress} {scope scope' : Scope}

/-! ## What a piece comes to -/

/-- **A session comes to another one** on behalf of a scope, and nothing fails. -/
structure Advances (b : Build) (scope : Scope) (s s' : Session) : Prop where
  sound : b.Sound scope none s'
  fills : b.Fills s s'
  grows : s.Extends scope s'

/-- What a piece that goes well leaves behind. -/
abbrev Goes (b : Build) (scope : Scope) (p p' : Progress) : Prop :=
  b.Advances scope p.session p'.session ∧ p'.inFlight = p.inFlight

/-- The scopes of a module that are visible are marked. -/
def Marked (key : ModuleKey) (scope : Scope) (p : Progress) : Prop :=
  ∀ scope' ∈ scope.visible, (p.session.state key scope').processed = true

theorem Marked.self {key : ModuleKey} (h : Marked key scope p) :
    (p.session.state key scope).processed = true := h scope (mem_visible_self scope)

theorem Marked.mono {key : ModuleKey} (h : Marked key scope p)
    (hs : p.session.Extends scope' p'.session) : Marked key scope p' := fun s hv =>
  (hs.state key s).processed (h s hv)

namespace Goes

theorem refl (h : b.Sound scope none p.session) : b.Goes scope p p :=
  ⟨⟨h, .of_marks fun _ _ => rfl, .refl _ _⟩, rfl⟩

theorem trans (h : b.Goes scope p p') (h' : b.Goes scope p' p'') : b.Goes scope p p'' :=
  ⟨⟨h'.1.sound, h.1.fills.trans h'.1.fills h'.1.grows.retains, h.1.grows.trans h'.1.grows⟩,
    h'.2.trans h.2⟩

/-- What goes well on behalf of a scope goes well on behalf of those that see it. -/
theorem widen (h : b.Goes scope' p p') (hs : b.Sound scope none p.session)
    (hv : scope' ∈ scope.visible) : b.Goes scope p p' := by
  by_cases hne : scope' = scope
  · exact hne ▸ h
  · obtain ⟨rfl, rfl⟩ := main_of_mem_visible hv hne
    have sound := hs.widen h.1.sound h.1.grows (by simp)
    exact ⟨⟨sound, h.1.fills, h.1.grows.weaken (by simp)⟩, h.2⟩

/-- A change that leaves features and diagnostics alone. -/
theorem onSession (h : b.Goes scope p p') {f : Session → Session}
    (hs : ∀ s key, (f s).store key = s.store key) (hd : ∀ s, (f s).diagnostics = s.diagnostics) :
    b.Goes scope p (p'.onSession f) := by
  have same := Session.state_eq_of_store_eq (hs p'.session)
  have sound := h.1.sound.keep same fun d hm => .inl (hd p'.session ▸ hm)
  have kept : b.Fills p'.session (f p'.session) := .of_marks fun key scope => by rw [same]
  have grows : p'.session.Extends scope (f p'.session) := .of_state_eq same
  exact ⟨⟨sound, h.1.fills.trans kept grows.retains, h.1.grows.trans grows⟩, h.2⟩

theorem report (h : b.Goes scope p p') {d : Diagnostic}
    (hd : d.kind = .cycleDetected → ∃ id, d.subject = id.text ∧ b.Closes id) :
    b.Goes scope p (p'.onSession fun s => s.report d) := by
  have kept : b.Fills p'.session (p'.session.report d) := .of_marks fun _ _ => rfl
  have grows : p'.session.Extends scope (p'.session.report d) := .of_state_eq fun _ _ => rfl
  exact ⟨⟨h.1.sound.report hd, h.1.fills.trans kept grows.retains, h.1.grows.trans grows⟩, h.2⟩

/-- An assembled feature is recorded where it belongs. -/
theorem recordAssembled {key : ModuleKey} {location : String} {g : Feature}
    (h : b.Goes scope p p') (hm : (p'.session.state key scope).processed = true)
    (hb : b.Bears key scope location g.id)
    (he : ∀ f, (b.prepared key scope).get? location = some f →
      f.Assembles (b.Supplied p'.session scope) g ∧ b.Grounded ⟨key, scope, location⟩) :
    b.Goes scope p (p'.onSession fun s =>
      s.modifyStore key fun t => t.recordAssembled scope location g) := by
  have sound := h.1.sound.recordAssembled hm (mem_visible_self scope) hb he
  have grows := (Session.Extends.refl scope p'.session).recordAssembled key location g
  refine ⟨⟨sound, ?_, h.1.grows.trans grows⟩, h.2⟩
  refine h.1.fills.trans (Fills.of_marks fun key' scope' => ?_) grows.retains
  exact p'.session.processed_recordAssembled key key' scope scope' location g

/-- Back out of flight. -/
theorem leave {id : Identity} (h : b.Goes scope (p.enter id) p')
    (hf : p.inFlight.contains id = false) : b.Goes scope p (p'.leave id) := by
  refine ⟨h.1, ?_⟩
  rw [Progress.inFlight_leave, h.2]
  exact SortedSet.erase_add hf

/-- Back in flight. -/
theorem enter {id : Identity} (h : b.Goes scope (p.leave id) p')
    (hf : p.inFlight.contains id = true) : b.Goes scope p (p'.enter id) := by
  refine ⟨h.1, ?_⟩
  rw [Progress.inFlight_enter, h.2]
  exact SortedSet.add_erase hf

end Goes

theorem get?_recordAssembled (s : Session) (key : ModuleKey) (scope : Scope) (location : String)
    (g : Feature) :
    ((s.modifyStore key fun t => t.recordAssembled scope location g).state key scope).assembled.get?
      location = some (((s.state key scope).assembled.get? location).getD g) := by
  unfold FeatureStore.recordAssembled
  rw [Session.state_modifyStore_self, SortedMap.get?_insertIfNew, if_pos rfl]

/-! ## What a piece is given -/

/-- Every identity in flight leads to all that is to be seen of a module. -/
def LedTo (b : Build) (key : ModuleKey) (scope : Scope) (inFlight : SortedSet Identity) : Prop :=
  ∀ id, inFlight.contains id = true → ∀ n : Site, n.module = key → n.scope ∈ scope.visible →
    (∃ f, b.featureAt n = some f) → b.Leads id n

theorem LedTo.narrow {key : ModuleKey} {inFlight : SortedSet Identity}
    (h : b.LedTo key scope inFlight) (hv : scope' ∈ scope.visible) : b.LedTo key scope' inFlight :=
  fun id hi n hm hn => h id hi n hm (visible_trans hv hn)

/-- **A site is at work**: its scope is marked, and every identity in flight leads to it. -/
structure Works (b : Build) (n : Site) (p : Progress) : Prop where
  sound : b.Sound n.scope none p.session
  marked : Marked n.module n.scope p
  leads : ∀ id, p.inFlight.contains id = true → b.Leads id n

/-- **A merge begins** at a site at work: its raw feature is not assembled yet, and the
identity of that is in flight. -/
structure Begins (b : Build) (n : Site) (f : Feature) (p : Progress) : Prop extends Works b n p where
  prepared : (b.prepared n.module n.scope).get? n.location = some f
  held : p.inFlight.contains f.id = true
  fresh : (p.session.state n.module n.scope).assembled.get? n.location = none

/-- **A site seeks** what it asks for, with that identity in flight. -/
structure Seeks (b : Build) (n : Site) (id : Identity) (p : Progress) : Prop where
  request : b.Requests n id
  sound : b.Sound n.scope none p.session
  held : p.inFlight.contains id = true
  leads : ∀ i, i ≠ id → p.inFlight.contains i = true → b.Leads i n

/-- A site at work seeks what it asks for once that is in flight. -/
theorem Works.seeks {n : Site} {id : Identity} (h : b.Works n p) (request : b.Requests n id) :
    b.Seeks n id (p.enter id) := by
  refine ⟨request, h.sound, ?_, fun i hne hi => ?_⟩
  · rw [Progress.inFlight_enter, SortedSet.contains_add, decide_eq_true rfl, Bool.true_or]
  · rw [Progress.inFlight_enter, SortedSet.contains_add, decide_eq_false hne, Bool.false_or] at hi
    exact h.leads i hi

theorem Seeks.of_goes {n : Site} {id : Identity} (h : b.Seeks n id p) (hg : b.Goes n.scope p p') :
    b.Seeks n id p' := by
  refine ⟨h.request, hg.1.sound, ?_, ?_⟩
  · rw [hg.2]
    exact h.held
  · rw [hg.2]
    exact h.leads

/-- What a request of a site ends with: all goes well and the answer is what the lookup rule
supplies, or the session is valid. -/
def Answers (b : Build) (n : Site) (id : Identity) (p : Progress) :
    Except AssemblyError (Option Feature) → Progress → Prop :=
  either (fun found p' => b.Goes n.scope p p' ∧
      ∀ parent, found = some parent → b.Supplied p'.session n.scope id parent)
    fun _ p' => b.Valid p'.session

end Build

/-- **Calls that keep the invariants.** -/
structure Calls.Maintain (calls : Calls) (b : Build) : Prop where
  process : ∀ {key scope p}, b.Sound scope none p.session → b.LedTo key scope p.inFlight →
    Ends False (calls.process key scope) p (either
      (fun _ p' => b.Goes scope p p' ∧ Build.Marked key scope p') fun _ p' => b.Valid p'.session)
  /-- A scope that is marked is left alone. -/
  done : ∀ {key scope p}, b.reactor.contains key = true →
    (p.session.state key scope).processed = true →
    Ends False (calls.process key scope) p fun r p' => r = .ok () ∧ p' = p
  provide : ∀ {n id p}, b.Works n p → b.Requests n id →
    Ends False (calls.provide n.module n.scope id) p (b.Answers n id p)

namespace Build

variable {b : Build} {calls : Calls} {p p' p'' : Progress} {scope scope' : Scope}

/-! ## Merging -/

/-- A feature that asks for nothing refers to nothing. -/
theorem grounded_of_not_requests {n : Site} (h : ∀ id, ¬ b.Requests n id) : b.Grounded n :=
  Acc.intro n fun _ ⟨id, hr, _⟩ => absurd hr (h id)

/-- The chain from what is supplied ends. -/
theorem Supplied.grounded {s : Session} {id : Identity} {parent : Feature} {n : Site}
    (h : b.Supplied s scope id parent) (hv : b.Valid s) (hn : b.denoted? scope id = some n) :
    b.Grounded n := by
  obtain ⟨module, -, ⟨f₀, h₀, -⟩, -⟩ := denoted?_eq_some hn
  cases h with
  | stored owned located named found =>
    have site := located.site_eq hn
    obtain ⟨f, hf, -⟩ := get?_prepared_of_sourced h₀
    have there : (s.state n.module n.scope).assembled.get? n.location = some parent := by
      rw [site]
      exact found
    exact (hv.entries hf there).2
  | loaded foreign loads =>
    have known := contains_of_get?_sourced h₀
    rw [module, foreign] at known
    cases known

/-- **A site that is merged** becomes what its supplies make of it. -/
theorem merge_maintains (hb : b.Regular) (hc : calls.Maintain b) {n : Site} {f : Feature}
    (hf : (b.prepared n.module n.scope).get? n.location = some f) (hw : b.Works n p) :
    Ends False (b.merge calls n.module n.scope n.location f) p (either
      (fun g p' => b.Goes n.scope p p' ∧ f.Assembles (b.Supplied p'.session n.scope) g ∧ b.Grounded n)
      fun _ p' => b.Valid p'.session) := by
  have asks : ∀ id, b.Requests n id ↔ _ := fun id => requests_iff_of_prepared hf
  refine ends_merge hb.merger n.module n.scope n.location f ?final ?alone ?inheriting
  case final =>
    intro marked
    refine ⟨.refl hw.sound, .final marked, grounded_of_not_requests fun id hr => ?_⟩
    rw [((asks id).1 hr).1] at marked
    cases marked
  case alone =>
    intro unmarked original
    refine ⟨.refl hw.sound, .alone unmarked original, grounded_of_not_requests fun id hr => ?_⟩
    obtain ⟨-, prototype, hp, -⟩ := (asks id).1 hr
    rw [original] at hp
    cases hp
  case inheriting =>
    intro prototype unmarked derived
    have request : b.Requests n prototype.id := requests_of_prepared hf unmarked derived
    refine (hc.provide (p := p.note _) ⟨hw.sound, hw.marked, hw.leads⟩ request).mono fun r p' h => ?_
    cases r with
    | error e => exact h
    | ok found =>
      obtain ⟨goes, supplied⟩ := h
      cases found with
      | none => exact goes.1.sound.toValid
      | some parent =>
        have supplied := supplied parent rfl
        refine ⟨goes, .inheriting unmarked derived supplied, Acc.intro n ?_⟩
        rintro m ⟨id, hr, hd⟩
        cases hr.unique request
        exact supplied.grounded goes.1.sound.toValid hd

/-- What was merged at a site is recorded there. -/
theorem Goes.recordMerged {n : Site} {f g : Feature}
    (hf : (b.prepared n.module n.scope).get? n.location = some f) (h : b.Goes n.scope p p')
    (ha : f.Assembles (b.Supplied p'.session n.scope) g) (hg : b.Grounded n)
    (hm : Marked n.module n.scope p') :
    b.Goes n.scope p (p'.onSession fun s =>
      s.modifyStore n.module fun t => t.recordAssembled n.scope n.location g) := by
  refine h.recordAssembled hm.self (.raw hf ha.id_eq.symm) fun f' hf' => ?_
  cases hf.symm.trans hf'
  exact ⟨ha, hg⟩

/-- **What is put in flight for a piece** is there from `p` to `p₁`, and is taken back behind
the piece. -/
structure Lent (p p₁ : Progress) (back : Progress → Progress) : Prop where
  session : p₁.session = p.session
  trace : p₁.trace = p.trace
  back_session : ∀ q, (back q).session = q.session
  back_trace : ∀ q, (back q).trace = q.trace
  held : ∀ id, p.inFlight.contains id = true → p₁.inFlight.contains id = true
  inFlight : ∀ q, q.inFlight = p₁.inFlight → (back q).inFlight = p.inFlight

theorem Goes.back {p₁ q : Progress} {back : Progress → Progress} (h : b.Goes scope p₁ q)
    (hl : Lent p p₁ back) : b.Goes scope p (back q) := by
  refine ⟨?_, hl.inFlight q h.2⟩
  rw [hl.back_session, ← hl.session]
  exact h.1

/-- **A location of a marked scope** is assembled, or a merge begins there. -/
theorem ends_assembleAt_begins {key : ModuleKey} {e : String × Feature}
    {post : Except AssemblyError Unit → Progress → Prop}
    (he : (b.prepared key scope).get? e.1 = some e.2) (hs : b.Sound scope none p.session)
    (hl : b.LedTo key scope p.inFlight) (hm : Marked key scope p)
    (done : ∀ g, (p.session.state key scope).assembled.get? e.1 = some g → post (.ok ()) p)
    (work : ∀ p₁ back, Lent p p₁ back → b.Begins ⟨key, scope, e.1⟩ e.2 p₁ →
      Ends False (b.merge calls key scope e.1 e.2) p₁ (either
        (fun g q => post (.ok ()) ((back q).onSession fun s =>
          s.modifyStore key fun t => t.recordAssembled scope e.1 g))
        fun err q => post (.error err) (back q))) :
    Ends False (b.assembleAt calls key scope e) p post := by
  let n : Site := ⟨key, scope, e.1⟩
  obtain ⟨f₀, h₀, hid, -⟩ := get?_prepared he
  have works : b.Works n p :=
    ⟨hs, hm, fun id hi => hl id hi n rfl (mem_visible_self scope) ⟨f₀, h₀⟩⟩
  refine ends_assembleAt key scope e (fun ha => ?done) (fun ha held => ?held) fun ha free => ?free
  case done =>
    obtain ⟨g, hg⟩ := Option.isSome_iff_exists.1 ha
    exact done g hg
  case held =>
    exact work p (fun q => q) ⟨rfl, rfl, fun _ => rfl, fun _ => rfl, fun _ h => h, fun _ h => h⟩
      ⟨works, he, held, Option.not_isSome_iff_eq_none.1 (Bool.eq_false_iff.1 ha)⟩
  case free =>
    have entered : b.Works n (p.enter e.2.id) := by
      refine ⟨hs, hm, fun id hi => ?_⟩
      rw [Progress.inFlight_enter, SortedSet.contains_add, Bool.or_eq_true, decide_eq_true_eq] at hi
      rcases hi with rfl | hi
      · have carries : b.Carries n e.2.id := ⟨f₀, h₀, hid.symm⟩
        exact carries.leads (hs.opened_of_marked (mem_visible_self scope) hm.self).distinct
      · exact works.leads id hi
    have held : (p.enter e.2.id).inFlight.contains e.2.id = true := by
      rw [Progress.inFlight_enter, SortedSet.contains_add, decide_eq_true rfl, Bool.true_or]
    refine work (p.enter e.2.id) (·.leave e.2.id)
      ⟨rfl, rfl, fun _ => rfl, fun _ => rfl, fun id hi => ?_, fun q hq => ?_⟩
      ⟨entered, he, held, Option.not_isSome_iff_eq_none.1 (Bool.eq_false_iff.1 ha)⟩
    · rw [Progress.inFlight_enter, SortedSet.contains_add, hi, Bool.or_true]
    · rw [Progress.inFlight_leave, hq]
      exact SortedSet.erase_add free

/-- A location of a marked scope is assembled. -/
theorem assembleAt_maintains (hb : b.Regular) (hc : calls.Maintain b) {key : ModuleKey}
    {e : String × Feature} (he : (b.prepared key scope).get? e.1 = some e.2)
    (hs : b.Sound scope none p.session) (hl : b.LedTo key scope p.inFlight) (hm : Marked key scope p) :
    Ends False (b.assembleAt calls key scope e) p (either
      (fun _ p' => b.Goes scope p p' ∧ ∃ g, (p'.session.state key scope).assembled.get? e.1 = some g)
      fun _ p' => b.Valid p'.session) := by
  refine ends_assembleAt_begins he hs hl hm (fun g hg => ⟨.refl hs, g, hg⟩) fun p₁ back lent begins => ?_
  refine (merge_maintains (n := ⟨key, scope, e.1⟩) hb hc he begins.toWorks).mono fun r q h => ?_
  cases r with
  | error err =>
    have valid : b.Valid q.session := h
    rw [← lent.back_session q] at valid
    exact valid
  | ok g =>
    obtain ⟨goes, made, grounded⟩ := h
    rw [← lent.back_session q] at made
    have recorded := (goes.back lent).recordMerged (n := ⟨key, scope, e.1⟩) he made grounded
      (hm.mono (goes.back lent).1.grows)
    exact ⟨recorded, _, get?_recordAssembled _ _ _ _ _⟩

/-- All raw features of a scope are assembled. -/
def RawDone (b : Build) (s : Session) (key : ModuleKey) (scope : Scope) : Prop :=
  ∀ location f, (b.prepared key scope).get? location = some f →
    ∃ g, (s.state key scope).assembled.get? location = some g

theorem RawDone.mono {s s' : Session} {key : ModuleKey} (h : b.RawDone s key scope)
    (hs : s.Retains s') : b.RawDone s' key scope := fun location f hf => by
  obtain ⟨g, hg⟩ := h location f hf
  exact ⟨g, hs key scope location g hg⟩

/-- **The raw features of an opened scope** are assembled, one after the other. -/
theorem assembleAll_maintains (hb : b.Regular) (hc : calls.Maintain b) {key : ModuleKey}
    (hs : b.Sound scope none p.session) (hl : b.LedTo key scope p.inFlight) (hm : Marked key scope p) :
    Ends False (((p.session.store key).raw scope).entries.forM (b.assembleAt calls key scope)) p (either
      (fun _ p' => b.Goes scope p p' ∧ b.RawDone p'.session key scope) fun _ p' => b.Valid p'.session) := by
  have opened := hs.opened_of_marked (mem_visible_self scope) hm.self
  rw [show (p.session.store key).raw scope = b.prepared key scope from opened.raw]
  have loop : Ends False ((b.prepared key scope).entries.forM (b.assembleAt calls key scope)) p
      (either (fun _ p' => b.Goes scope p p' ∧ ∀ e ∈ (b.prepared key scope).entries,
          ∃ g, (p'.session.state key scope).assembled.get? e.1 = some g)
        fun _ p' => b.Valid p'.session) := by
    refine ends_forM_done (.refl hs) (fun _ _ h h' => h.trans h')
      (fun e q q' h ⟨g, hg⟩ => ⟨g, h.1.grows.retains _ _ _ _ hg⟩) fun e q he h => ?_
    refine assembleAt_maintains hb hc (SortedMap.get?_of_mem he) h.1.sound ?_ (hm.mono h.1.grows)
    rw [h.2]
    exact hl
  refine loop.mono fun r p' h => ?_
  cases r with
  | error e => exact h
  | ok u => exact ⟨h.1, fun location f hf => h.2 _ (SortedMap.get?_eq_some_iff.1 hf)⟩

/-! ## Aggregates -/

theorem id_layered (id : Identity) (parts : List Feature) : (Feature.layered id parts).id = id := by
  have kept : ∀ lower : Feature, (parts.foldl Feature.overlay lower).id = lower.id := by
    induction parts with
    | nil => exact fun _ => rfl
    | cons f rest ih => exact fun lower => ih (lower.overlay f)
  exact kept (.of id)

/-- One aggregate is put where its identity belongs. -/
theorem buildAggregate_maintains (hb : b.Regular) {m : Module}
    (hk : b.reactor.get? m.key = some m) {d : AggregateDecl} (hd : d ∈ b.config.aggregatesOf m.key)
    (hs : b.Sound d.scope none p.session) (hm : Marked m.key d.scope p) (raw : b.RawDone p.session m.key d.scope) :
    Ends False (b.buildAggregate m d) p (either
      (fun _ p' => b.Goes d.scope p p' ∧
        ∃ g, (p'.session.state m.key d.scope).assembled.get? (aggregateKey d.classifier) = some g)
      fun _ p' => b.Valid p'.session) := by
  refine ends_buildAggregate m d (fun ha => ?_) hs.toValid fun ha _ => ?_
  · exact ⟨.refl hs, Option.isSome_iff_exists.1 ha⟩
  · refine ⟨(Goes.refl hs).recordAssembled hm.self ?_ fun f hf => ?_, _, get?_recordAssembled _ _ _ _ _⟩
    · refine .aggregate hk hd rfl rfl ?_
      rw [hb.merger]
      exact (id_layered _ _).symm
    · -- Raw features come first, so there is none in the place of an aggregate.
      obtain ⟨g, hg⟩ := raw _ f hf
      have absent : ((p.session.state m.key d.scope).assembled.get?
        (aggregateKey d.classifier)).isSome = false := ha
      rw [hg] at absent
      cases absent

/-- **The aggregates of a scope** complete it. -/
theorem buildAggregates_maintains (hb : b.Regular) {m : Module}
    (hk : b.reactor.get? m.key = some m) (hs : b.Sound scope none p.session) (hm : Marked m.key scope p)
    (raw : b.RawDone p.session m.key scope) :
    Ends False (b.buildAggregates m scope) p (either
      (fun _ p' => b.Goes scope p p' ∧ b.Completed p'.session m.key scope)
      fun _ p' => b.Valid p'.session) := by
  have loop : Ends False (b.buildAggregates m scope) p (either
      (fun _ p' => b.Goes scope p p' ∧
        ∀ d ∈ (b.config.aggregatesOf m.key).filter fun d => d.scope == scope,
          ∃ g, (p'.session.state m.key scope).assembled.get? (aggregateKey d.classifier) = some g)
      fun _ p' => b.Valid p'.session) := by
    refine ends_forM_done (.refl hs) (fun _ _ h h' => h.trans h')
      (fun d q q' h ⟨g, hg⟩ => ⟨g, h.1.grows.retains _ _ _ _ hg⟩) fun d q hd h => ?_
    obtain ⟨declared, inScope⟩ := List.mem_filter.1 hd
    obtain rfl : d.scope = scope := by simpa using inScope
    exact buildAggregate_maintains hb hk declared h.1.sound (hm.mono h.1.grows)
      (raw.mono h.1.grows.retains)
  refine loop.mono fun r p' h => ?_
  cases r with
  | error e => exact h
  | ok u =>
    refine ⟨h.1, fun location id hbears => ?_⟩
    cases hbears with
    | raw found named =>
      obtain ⟨g, hg⟩ := raw _ _ found
      exact ⟨g, h.1.1.grows.retains _ _ _ _ hg⟩
    | aggregate module declared inScope keyed named =>
      subst keyed
      exact h.2 _ (List.mem_filter.2 ⟨declared, by simpa using inScope⟩)

/-! ## Opening a scope -/

/-- Nothing but raw features has changed. -/
structure Same (p p' : Progress) : Prop where
  processed : ∀ key scope, (p'.session.state key scope).processed = (p.session.state key scope).processed
  retains : p.session.Retains p'.session
  inFlight : p'.inFlight = p.inFlight

theorem Same.setRaw (h : Same p p') (key : ModuleKey) (scope : Scope) (features : FeatureMap) :
    Same p (p'.onSession fun s => s.modifyStore key fun t => t.setRaw scope features) := by
  refine ⟨fun key' scope' => ?_, fun key' scope' location f hf => ?_, h.inFlight⟩
  · exact (p'.session.processed_setRaw key key' scope scope' features).trans (h.processed key' scope')
  · have kept := p'.session.assembled_setRaw key key' scope scope' features
    exact (congrArg (SortedMap.get? · location) kept).trans (h.retains key' scope' location f hf)

theorem Same.marked {key : ModuleKey} (h : Same p p') (hm : Marked key scope p) :
    Marked key scope p' := fun scope' hv => (h.processed key scope').trans (hm scope' hv)

/-- **A scope that is read and checked**, and is still to get its unit. -/
structure Checked (b : Build) (key : ModuleKey) (scope : Scope) (p p' : Progress) : Prop where
  sound : b.Sound scope (some (key, scope)) p'.session
  same : Same p p'
  raw : (p'.session.state key scope).raw = b.sourced key scope
  distinct : b.Distinct key scope

theorem checkStore_maintains {m : Module} {dependencies : List Dependency} {features : FeatureMap}
    (hk : b.reactor.get? m.key = some m) (classified : b.checkAggregates m.key = .ok ())
    (hf : b.load m scope = .ok features) (hs : b.Sound scope (some (m.key, scope)) p.session) :
    Ends False (b.checkStore m.key)
      ((p.note (.loaded m.key dependencies scope)).onSession fun s =>
        s.modifyStore m.key fun t => t.setRaw scope features)
      (either (fun _ => b.Checked m.key scope p) fun _ p' => b.Valid p'.session) := by
  have same : Same p (p.note (.loaded m.key dependencies scope)) := ⟨fun _ _ => rfl, fun _ _ _ _ h => h, rfl⟩
  have sound := hs.setRaw features
  have raw : ((p.session.modifyStore m.key fun t => t.setRaw scope features).state m.key scope).raw =
      b.sourced m.key scope := by
    rw [Session.raw_setRaw, sourced_of_load hk hf]
  refine ends_checkStore m.key (fun pass => ?_)
    fun e _ => sound.toValid.report (by simp [Diagnostic.classifiers])
  refine ⟨sound, same.setRaw m.key scope features, raw, distinct_of_check classified pass ?_⟩
  rw [← raw]
  cases scope <;> rfl

theorem attachPackagedUnit_maintains {m : Module} (hk : b.reactor.get? m.key = some m)
    (hm : Marked m.key .main p) (hc : b.Checked m.key .main p p') :
    Ends False (b.attachPackagedUnit m) p' (either
      (fun _ p'' => b.Sound .main none p''.session ∧ Same p p'') fun _ p'' => b.Valid p''.session) := by
  let unit := b.withUnit m ((p'.session.store m.key).raw .main)
  refine ends_attachPackagedUnit m (fun s hst _ _ hdi => ?_)
    fun l => hc.sound.toValid.report (by simp [Diagnostic.ambiguousUnit])
  have states := Session.state_eq_of_store_eq hst
  have set := hc.same.setRaw m.key .main unit
  have same : Same p (p'.onSession fun _ => s) := by
    refine ⟨fun key scope => ?_, fun key scope location f hf => ?_, hc.same.inFlight⟩
    · exact (congrArg ScopeState.processed (states key scope)).trans (set.processed key scope)
    · exact (congrArg (fun t => t.assembled.get? location) (states key scope)).trans
        (set.retains key scope location f hf)
  have sound := (hc.sound.setRaw unit).keep states fun d hd => .inl (by rw [hdi] at hd; exact hd)
  have raw : (s.state m.key .main).raw = b.prepared m.key .main := by
    rw [states, Session.raw_setRaw, prepared_main hk, ← hc.raw]
    rfl
  have known : b.reactor.contains m.key = true := Option.isSome_iff_exists.2 ⟨m, hk⟩
  exact ⟨sound.opens known raw hc.distinct (same.marked hm), same⟩

/-! ## Processing -/

/-- **A scope that is marked** is opened, assembled and completed. -/
theorem processMarked_maintains (hb : b.Regular) (hc : calls.Maintain b) {m : Module}
    {dependencies : List Dependency} (hk : b.reactor.get? m.key = some m)
    (hs : b.Sound scope (some (m.key, scope)) p.session) (hm : Marked m.key scope p)
    (hl : b.LedTo m.key scope p.inFlight) :
    Ends False (b.processMarked calls (m.dependingOn dependencies) scope) p (either
      (fun _ p' => b.Sound scope none p'.session ∧ b.Fills p.session p'.session ∧
        p.session.Retains p'.session ∧ b.Completed p'.session m.key scope ∧ Marked m.key scope p')
      fun _ p' => b.Valid p'.session) := by
  let attached : Progress → Prop := fun q => b.Sound scope none q.session ∧ Same p q
  let assembled : Progress → Prop := fun q' => ∃ q, attached q ∧ b.Goes scope q q' ∧
    b.RawDone q'.session m.key scope
  let aggregated : Progress → Prop := fun q' => ∃ q, attached q ∧ b.Goes scope q q' ∧
    b.Completed q'.session m.key scope
  refine ends_processMarked m dependencies scope (b.Checked m.key scope p) attached assembled aggregated
    (fun _ _ => hs.toValid) (fun _ _ => hs.toValid) ?check ?attach ?pass ?assemble ?aggregate ?augment
  case check =>
    intro features classified hf
    rw [load_dependingOn hb.ignores] at hf
    exact checkStore_maintains hk classified hf hs
  case attach =>
    rintro q rfl checked
    exact attachPackagedUnit_maintains hk hm checked
  case pass =>
    rintro q rfl checked
    have known : b.reactor.contains m.key = true := Option.isSome_iff_exists.2 ⟨m, hk⟩
    have raw := checked.raw.trans (prepared_test m.key).symm
    exact ⟨checked.sound.opens known raw checked.distinct (checked.same.marked hm), checked.same⟩
  case assemble =>
    rintro q ⟨sound, same⟩
    have led : b.LedTo m.key scope q.inFlight := by
      rw [same.inFlight]
      exact hl
    refine (assembleAll_maintains hb hc sound led (same.marked hm)).mono fun r q' h => ?_
    cases r with
    | error e => exact h
    | ok u => exact ⟨q, ⟨sound, same⟩, h.1, h.2⟩
  case aggregate =>
    rintro q' ⟨q, hq, goes, raw⟩
    refine (buildAggregates_maintains hb hk goes.1.sound ((hq.2.marked hm).mono goes.1.grows) raw).mono
      fun r q'' h => ?_
    cases r with
    | error e => exact h
    | ok u => exact ⟨q, hq, goes.trans h.1, h.2⟩
  case augment =>
    rintro q' ⟨q, ⟨-, same⟩, goes, complete⟩
    have augmented := goes.onSession (b.store_augmented m.key scope) (diagnostics_augmented m.key scope)
    have states := Session.state_eq_of_store_eq (b.store_augmented m.key scope q'.session)
    have fills : b.Fills p.session q.session := .of_marks same.processed
    refine ⟨augmented.1.sound, fills.trans augmented.1.fills augmented.1.grows.retains,
      same.retains.trans augmented.1.grows.retains, ?_, (same.marked hm).mono augmented.1.grows⟩
    have grows : q'.session.Extends scope (b.augmented m.key scope q'.session) := .of_state_eq states
    exact complete.mono grows.retains

/-- **A scope is being opened**: it is marked, and main is processed if it is test. -/
structure Opening (b : Build) (key : ModuleKey) (scope : Scope) (p q : Progress) : Prop where
  sound : b.Sound scope (some (key, scope)) q.session
  marked : Marked key scope q
  fills : b.Fills (opened key scope p).session q.session
  inFlight : q.inFlight = p.inFlight

/-- **A scope is processed** unless it is marked, and opened before it is read. -/
theorem Sound.ends_processWith (hc : calls.Maintain b) {key : ModuleKey}
    (hs : b.Sound scope none p.session) (hl : b.LedTo key scope p.inFlight)
    {post : Except AssemblyError Unit → Progress → Prop} (ready : Progress → Prop)
    (unknown : post (.error (.unknownModule key)) p) (done : Marked key scope p → post (.ok ()) p)
    (main : b.reactor.contains key = true → (p.session.state key scope).processed = false →
      scope = .main → ready (opened key scope p))
    (test : b.reactor.contains key = true → (p.session.state key scope).processed = false →
      scope = .test → b.Sound .main none (opened key scope p).session → b.LedTo key .main p.inFlight →
      Ends False (calls.process key .main) (opened key scope p)
        (either (fun _ => ready) fun e => post (.error e)))
    (next : ∀ m q, m.key = key → b.reactor.get? key = some m →
      (p.session.state key scope).processed = false → ready q → b.Opening key scope p q →
      Ends False (b.processMarked calls (p.session.current m) scope) q post) :
    Ends False (b.processWith calls key scope) p post := by
  have known : ∀ {m}, b.reactor.get? key = some m → b.reactor.contains key = true := fun hk =>
    Option.isSome_iff_exists.2 ⟨_, hk⟩
  refine Build.ends_processWith key scope (fun _ => unknown)
    (fun _ _ hp => done (hs.seen_of_marked (mem_visible_self scope) hp)) ?main ?test
  case main =>
    rintro m hk hn rfl
    have sound := hs.mark hn
    refine next m _ (mem_modules_of_get? hk).2 hk hn (main (known hk) hn rfl)
      ⟨sound, fun scope' hv => ?_, .of_marks fun _ _ => rfl, rfl⟩
    rw [List.mem_singleton.1 hv]
    exact (sound.waits key .main rfl).1
  case test =>
    rintro m hk hn rfl
    have sound := hs.mark hn
    have visible : Scope.main ∈ Scope.test.visible := main_mem_visible .test
    have sound_main : b.Sound .main none (opened key .test p).session := by
      refine sound.narrow visible fun key s hv => ?_
      rw [List.mem_singleton.1 hv]
      simp
    have led := hl.narrow visible
    refine ((test (known hk) hn rfl sound_main led).and
      (hc.process (p := opened key .test p) sound_main led)).mono fun r q h => ?_
    cases r with
    | error e => exact h.1
    | ok u =>
      obtain ⟨hr, goes, marked⟩ := h
      have sound₁ := sound.widen goes.1.sound goes.1.grows (by simp)
      refine next m q (mem_modules_of_get? hk).2 hk hn hr ⟨sound₁, fun scope' _ => ?_, goes.1.fills, goes.2⟩
      cases scope' with
      | main => exact marked.self
      | test => exact (sound₁.waits key .test rfl).1

/-- **A scope that is processed is complete**, and so are all that are marked on the way. -/
theorem processWith_maintains (hb : b.Regular) (hc : calls.Maintain b) {key : ModuleKey}
    (hs : b.Sound scope none p.session) (hl : b.LedTo key scope p.inFlight) :
    Ends False (b.processWith calls key scope) p (either
      (fun _ p' => b.Sound scope none p'.session ∧ b.Fills p.session p'.session ∧ Marked key scope p')
      fun _ p' => b.Valid p'.session) := by
  refine hs.ends_processWith hc hl (fun _ => True) hs.toValid
    (fun marked => ⟨hs, .of_marks fun _ _ => rfl, marked⟩) (fun _ _ _ => trivial) ?test ?next
  case test =>
    intro _ _ _ sound led
    refine (hc.process sound led).mono fun r q h => ?_
    cases r with
    | error e => exact h
    | ok u => trivial
  case next =>
    rintro m q rfl hk hn - opening
    have led : b.LedTo m.key scope q.inFlight := by
      rw [opening.inFlight]
      exact hl
    refine (processMarked_maintains hb hc hk opening.sound opening.marked led).mono fun r p' h => ?_
    cases r with
    | error e => exact h
    | ok u =>
      obtain ⟨sound, fills, retains, complete, marked⟩ := h
      have fills := opening.fills.trans fills retains
      refine ⟨sound, fun key' scope' hn' hp' => ?_, marked⟩
      -- What is marked on the way is marked after the scope itself, or is the scope itself.
      by_cases hk : key' = m.key ∧ scope' = scope
      · rw [hk.1, hk.2]
        exact complete
      · have kept := congrArg ScopeState.processed (p.session.state_modifyStore_of_ne
          (fun t => { t with processed := true }) hk)
        exact fills key' scope' (kept.trans hn') hp'

/-! ## Looking -/

theorem enter_leave {id : Identity} (held : p.inFlight.contains id = true) :
    (p.leave id).enter id = p := by
  show { p with inFlight := SortedSet.add (p.inFlight.erase id) id } = p
  rw [SortedSet.add_erase held]

theorem leave_enter {id : Identity} (free : p.inFlight.contains id = false) :
    (p.enter id).leave id = p := by
  show { p with inFlight := SortedMap.erase (p.inFlight.add id) id } = p
  rw [SortedSet.erase_add free]

/-- A scope has neither an assembled nor a raw feature with an identity. -/
def Absent (s : Session) (id : Identity) (scope : Scope) : Prop :=
  (s.store id.moduleKey).findAssembled? scope id = none ∧ (s.store id.moduleKey).findRaw? scope id = none

/-- **What is found is where the lookup rule leads.** -/
theorem locates_of_absent {id : Identity} {location : String}
    (hs : b.Sound scope none p.session) (hm : Marked id.moduleKey scope p) (hv : scope' ∈ scope.visible)
    (near : scope' = scope ∨ Absent p.session id scope)
    (hb : b.Bears id.moduleKey scope' location id) : b.Locates scope id scope' location := by
  have opened : ∀ scope' ∈ scope.visible, b.Opened p.session id.moduleKey scope' := fun scope' hv =>
    hs.opened_of_marked hv (hm scope' hv)
  refine ⟨hv, hb, ?_, fun scope' hv => (opened scope' hv).distinct⟩
  by_cases hne : scope' = scope
  · exact .inl hne
  · obtain ⟨rfl, rfl⟩ := main_of_mem_visible hv hne
    refine .inr fun l hbears => ?_
    cases hbears with
    | raw found named =>
      have absent := (near.resolve_left hne).2
      unfold FeatureStore.findRaw? at absent
      have raw : (p.session.store id.moduleKey).raw .test = _ := (opened .test (mem_visible_self _)).raw
      rw [raw] at absent
      exact List.find?_eq_none.1 absent _ (SortedMap.get?_eq_some_iff.1 found) (by simpa using named)
    | aggregate module declared inScope _ named =>
      have other := (opened .main hv).distinct.not_bears_of_aggregate module declared (by simp [inScope])
      exact other location (named ▸ hb)

/-- A raw feature that is found is still to be merged, and every identity in flight leads to it. -/
theorem Seeks.begins {n : Site} {id : Identity} {location : String} {f : Feature} (h : b.Seeks n id p)
    (hm : Marked id.moduleKey n.scope p) (hv : scope' ∈ n.scope.visible)
    (near : scope' = n.scope ∨ Absent p.session id n.scope)
    (unassembled : (p.session.store id.moduleKey).findAssembled? scope' id = none)
    (found : (p.session.store id.moduleKey).findRaw? scope' id = some (location, f)) :
    f.id = id ∧ b.Begins ⟨id.moduleKey, scope', location⟩ f p := by
  have opened := h.sound.opened_of_marked hv (hm scope' hv)
  have found : (b.prepared id.moduleKey scope').findById? id = some (location, f) := by
    rw [← opened.raw]
    exact found
  have named : f.id = id := by simpa using List.find?_some found
  have here : (b.prepared id.moduleKey scope').get? location = some f :=
    SortedMap.get?_of_mem (List.mem_of_find?_eq_some found)
  have denoted : b.denoted? n.scope id = some ⟨id.moduleKey, scope', location⟩ := by
    refine denoted?_of_siteIn? (siteIn?_of_findById? found) hv ?_
    refine near.imp_right fun absent => siteIn?_of_findById?_eq_none ?_
    rw [← (h.sound.opened_of_marked (mem_visible_self n.scope) hm.self).raw]
    exact absent.2
  have carries : b.Carries ⟨id.moduleKey, scope', location⟩ id :=
    (siteIn?_eq_some (siteIn?_of_findById? found)).2.2
  have works : b.Works ⟨id.moduleKey, scope', location⟩ p := by
    refine ⟨h.sound.inner hv, fun s hs => hm s (visible_trans hv hs), fun i hi => ?_⟩
    by_cases he : i = id
    · rw [he]
      exact carries.leads opened.distinct
    · exact (h.leads i he hi).drags (.inl ⟨id, h.request, denoted⟩)
  refine ⟨named, works, here, by rw [named]; exact h.held, ?_⟩
  -- What is assembled in its place would have its identity, and would have been found.
  cases hg : (p.session.state id.moduleKey scope').assembled.get? location with
  | none => rfl
  | some g =>
    have kept := (h.sound.entries (n := ⟨id.moduleKey, scope', location⟩) here hg).1.id_eq
    have missed := List.find?_eq_none.1 unassembled _ (SortedMap.get?_eq_some_iff.1 hg)
    exact absurd (by simpa using kept.trans named) missed

section Looking

variable {n : Site} {id : Identity} {post : Except AssemblyError (Option Feature) → Progress → Prop}

/-- **What a look can come to**, for what a site seeks: a feature that is supplied already, a
raw feature that is to be merged, or nothing. -/
structure Looks (b : Build) (calls : Calls) (n : Site) (id : Identity) (p : Progress)
    (post : Except AssemblyError (Option Feature) → Progress → Prop) : Prop where
  found : ∀ f, b.Supplied p.session n.scope id f → post (.ok (some f)) p
  raw : ∀ n' f, n'.module = id.moduleKey → b.Locates n.scope id n'.scope n'.location →
    f.id = id → b.Begins n' f p →
    Ends False (b.merge calls n'.module n'.scope n'.location f) p (either
      (fun g p' =>
        post (.ok (some (((p'.session.state n'.module n'.scope).assembled.get? n'.location).getD g)))
          (p'.onSession fun s => s.modifyStore n'.module fun t =>
            t.recordAssembled n'.scope n'.location g))
      fun e => post (.error e))
  missing : b.denoted? n.scope id = none → post (.ok none) p

/-- **One scope of the owner is looked in.** -/
theorem Seeks.ends_lookAt (hc : calls.Maintain b) {rest : List Scope}
    (owned : b.reactor.contains id.moduleKey = true) (hs : b.Seeks n id p)
    (hm : Marked id.moduleKey n.scope p) (hv : scope' ∈ n.scope.visible)
    (near : scope' = n.scope ∨ Absent p.session id n.scope) (look : b.Looks calls n id p post)
    (absent : Absent p.session id scope' →
      Ends False (b.lookIn calls id.moduleKey n.scope id rest) p post) :
    Ends False (b.lookIn calls id.moduleKey n.scope id (scope' :: rest)) p post := by
  have opened := hs.sound.opened_of_marked hv (hm scope' hv)
  refine ends_lookIn_cons id.moduleKey n.scope id scope' rest (fun p' => p' = p) ?open_ (fun _ => rfl)
    ?found ?absent ?raw
  case open_ =>
    -- The owner is processed already, so this leaves everything alone.
    intro _
    refine ends_processReleased id id.moduleKey scope' ?_
    refine (hc.done (p := p.leave id) owned (hm scope' hv)).mono fun r p' h => ?_
    obtain ⟨rfl, rfl⟩ := h
    exact enter_leave hs.held
  case found =>
    rintro p' location f rfl hf
    have named : f.id = id := by simpa using List.find?_some hf
    have there : (p'.session.state id.moduleKey scope').assembled.get? location = some f :=
      SortedMap.get?_of_mem (List.mem_of_find?_eq_some hf)
    have located := locates_of_absent hs.sound hm hv near (named ▸ opened.bears there)
    exact look.found f (.stored owned located named there)
  case absent =>
    rintro p' rfl ha hr
    exact absent ⟨ha, hr⟩
  case raw =>
    rintro p' location f rfl ha hr
    obtain ⟨named, begins⟩ := hs.begins hm hv near ha hr
    exact look.raw _ f rfl (locates_of_absent hs.sound hm hv near (.raw begins.prepared named)) named
      begins

/-- **The scopes of the owner are looked in**, nearest first. -/
theorem Seeks.ends_lookIn (hc : calls.Maintain b) (owned : b.reactor.contains id.moduleKey = true)
    (hs : b.Seeks n id p) (hm : Marked id.moduleKey n.scope p) (look : b.Looks calls n id p post) :
    Ends False (b.lookIn calls id.moduleKey n.scope id n.scope.visible) p post := by
  have unknown : ∀ scope' ∈ n.scope.visible, Absent p.session id scope' → b.siteIn? id scope' = none := by
    intro scope' hv absent
    refine siteIn?_of_findById?_eq_none ?_
    rw [← (hs.sound.opened_of_marked hv (hm scope' hv)).raw]
    exact absent.2
  have nothing : (∀ scope' ∈ n.scope.visible, Absent p.session id scope') →
      Ends False (b.lookIn calls id.moduleKey n.scope id []) p post := fun absent =>
    ends_lookIn_nil id.moduleKey n.scope id (look.missing
      (List.findSome?_eq_none_iff.2 fun scope' hv => unknown scope' hv (absent scope' hv)))
  obtain ⟨key, scope, location⟩ := n
  cases scope with
  | main =>
    exact hs.ends_lookAt hc owned hm (mem_visible_self _) (.inl rfl) look fun main =>
      nothing fun scope' hv => List.mem_singleton.1 hv ▸ main
  | test =>
    refine hs.ends_lookAt hc owned hm (mem_visible_self _) (.inl rfl) look fun test => ?_
    refine hs.ends_lookAt hc owned hm (main_mem_visible _) (.inr test) look fun main => ?_
    refine nothing fun scope' _ => ?_
    cases scope' with
    | main => exact main
    | test => exact test

/-- **What a site seeks is found** where its owner keeps it, once the owner is ready, or
outside. -/
theorem Seeks.ends_find (hc : calls.Maintain b) (hs : b.Seeks n id p) (hm : Marked n.module n.scope p)
    (ready : Progress → Prop) (own : id.moduleKey = n.module → ready p)
    (other : id.moduleKey ≠ n.module → b.LedTo id.moduleKey n.scope (p.leave id).inFlight →
      Ends False (calls.process id.moduleKey n.scope) (p.leave id)
        (either (fun _ q => ready (q.enter id)) fun e q => post (.error e) (q.enter id)))
    (look : ∀ q, b.reactor.contains id.moduleKey = true → ready q → b.Goes n.scope p q →
      b.Looks calls n id q post)
    (outside : ∀ f, b.reactor.contains id.moduleKey = false → b.loader id = .ok f →
      post (.ok (some f)) (p.note (.fetched id)))
    (nowhere : ∀ e, b.reactor.contains id.moduleKey = false → b.loader id = .error e →
      e.isNotFound = true → post (.ok none) (p.note (.fetched id)))
    (broken : ∀ e, b.reactor.contains id.moduleKey = false → b.loader id = .error e →
      e.isNotFound = false → post (.error (.externalResolution id e)) (p.note (.fetched id))) :
    Ends False (b.find calls n.module n.scope id) p post := by
  refine Build.ends_find n.module n.scope id ?own ?other (fun f _ => outside f) (fun e _ => nowhere e)
    fun e _ => broken e
  case own =>
    intro hk
    have owned : b.reactor.contains id.moduleKey = true := by
      obtain ⟨f, _, hf, -⟩ := hs.request
      rw [hk]
      exact contains_of_get?_sourced hf
    have look := look p owned (own hk) (.refl hs.sound)
    rw [← hk] at hm ⊢
    exact hs.ends_lookIn hc owned hm look
  case other =>
    intro hk owned
    refine ends_processReleased id id.moduleKey n.scope ?_
    have led : b.LedTo id.moduleKey n.scope (p.leave id).inFlight := by
      intro i hi n' hmod hvis hf
      rw [Progress.inFlight_leave, SortedSet.contains_erase, Bool.and_eq_true, Bool.not_eq_true',
        decide_eq_false_iff_not] at hi
      exact (hs.leads i hi.1 hi.2).drags (.inr ⟨id, hs.request, hk, hmod, hvis, hf⟩)
    refine ((other hk led).and (hc.process (p := p.leave id) hs.sound led)).mono fun r q h => ?_
    cases r with
    | error e => exact h.1
    | ok u =>
      have goes : b.Goes n.scope p (q.enter id) := h.2.1.enter hs.held
      exact (hs.of_goes goes).ends_lookIn hc owned h.2.2 (look (q.enter id) owned h.1 goes)

end Looking

/-! ## Providing -/

/-- A look ends with what the lookup rule supplies. -/
theorem Goes.looks (hb : b.Regular) (hc : calls.Maintain b) {n : Site} {id : Identity}
    (h : b.Goes n.scope p p') : b.Looks calls n id p' (b.Answers n id p) := by
  have sound := h.1.sound
  refine ⟨fun f hf => ⟨h, fun _ he => Option.some.inj he ▸ hf⟩, ?raw, fun _ => ⟨h, nofun⟩⟩
  case raw =>
    intro n' f owner located named begins
    refine (merge_maintains (n := n') hb hc begins.prepared begins.toWorks).mono fun r q hm => ?_
    cases r with
    | error e => exact hm
    | ok g =>
      obtain ⟨goes, made, grounded⟩ := hm
      have recorded := goes.recordMerged begins.prepared made grounded (begins.marked.mono goes.1.grows)
      have there := get?_recordAssembled q.session n'.module n'.scope n'.location g
      have kept := (recorded.1.sound.entries begins.prepared there).1.id_eq
      have owned : b.reactor.contains id.moduleKey = true := by
        obtain ⟨f₀, h₀, -⟩ := get?_prepared begins.prepared
        exact owner ▸ contains_of_get?_sourced h₀
      refine ⟨h.trans (recorded.widen sound located.visible), fun parent he => ?_⟩
      cases he
      exact .stored owned located (kept.trans named) (owner ▸ there)

/-- **What is found is what the lookup rule supplies.** -/
theorem find_maintains (hb : b.Regular) (hc : calls.Maintain b) {n : Site} {id : Identity}
    (hs : b.Seeks n id p) (hm : Marked n.module n.scope p) :
    Ends False (b.find calls n.module n.scope id) p (b.Answers n id p) := by
  refine hs.ends_find hc hm (fun _ => True) (fun _ => trivial) ?other (fun q _ _ goes => goes.looks hb hc)
    ?outside (fun _ _ _ _ => ⟨.refl hs.sound, nofun⟩) fun _ _ _ _ => hs.sound.toValid
  case other =>
    intro _ led
    refine (hc.process (p := p.leave id) hs.sound led).mono fun r q h => ?_
    cases r with
    | error e => exact h
    | ok u => trivial
  case outside =>
    intro f foreign hf
    exact ⟨.refl hs.sound, fun parent he => Option.some.inj he ▸ .loaded foreign hf⟩

/-- **A feature is provided** to a site at work that asks for it. -/
theorem provideWith_maintains (hb : b.Regular) (hc : calls.Maintain b) {n : Site}
    {id : Identity} (hw : b.Works n p) (request : b.Requests n id) :
    Ends False (b.provideWith calls n.module n.scope id) p (b.Answers n id p) := by
  refine ends_provideWith n.module n.scope id (fun held => ?cycle) fun hf => ?ask
  case cycle =>
    have reported := (Goes.refl hw.sound).report (d := .cycle n.module id)
      fun _ => ⟨id, rfl, n, hw.leads id held, request⟩
    exact ⟨reported, by simp⟩
  case ask =>
    refine (find_maintains (p := p.enter id) hb hc (hw.seeks request) hw.marked).mono fun r p' h => ?_
    cases r with
    | error e => exact h
    | ok found =>
      have left : b.Goes n.scope p (p'.leave id) := h.1.leave hf
      cases found with
      | none => exact ⟨left.report (by simp [Diagnostic.notFound]), by simp⟩
      | some f =>
        have recorded := left.onSession (store_withReference n.module id)
          (diagnostics_withReference n.module id)
        have states := Session.state_eq_of_store_eq (store_withReference n.module id p'.session)
        have grows : p'.session.Extends n.scope (withReference n.module id p'.session) :=
          .of_state_eq states
        exact ⟨recorded, fun parent he => (h.2 parent he).mono grows.retains⟩

/-! ## Calls -/

/-- **Calls keep the invariants.** -/
theorem calls_maintain (hb : b.Regular) : ∀ depth, (b.calls depth).Maintain b
  | 0 => ⟨fun _ _ => id, fun _ _ => id, fun _ _ => id⟩
  | depth + 1 => by
    have hc := calls_maintain hb depth
    refine ⟨fun {key scope p} hs hl => ?process, fun known hp => ends_processWith_marked known hp,
      fun hw request => provideWith_maintains hb hc hw request⟩
    case process =>
      have keep : (b.calls (depth + 1)).Keep b False [] (depth + 1) :=
        calls_keep hb.merger False nofun (depth + 1)
      have kept : Ends False ((b.calls (depth + 1)).process key scope) p _ := keep.process nofun nofun
      refine ((processWith_maintains hb hc hs hl).and kept).mono fun r p' h => ?_
      obtain ⟨h, kept, -⟩ := h
      cases r with
      | error e => exact h
      | ok u => exact ⟨⟨⟨h.1, h.2.1, kept.grows⟩, kept.inFlight⟩, h.2.2⟩

end Build

end FeatureAssembly
