import FeatureAssembly.Proofs.Asked

/-!
# How deep a build goes

What is left to do of an assembly bounds how deep its calls are nested, whatever session it starts
from and whatever refers to what. That depends on two numbers: the scopes that are not marked, and
the identities of raw features that are not in flight. Each call has less of the first, or as much
of the first and less of the second (`Build.processDepth`, `Build.provideDepth`). An identity is
taken out of flight while a module is processed on its behalf, but behind it the same identities
are in flight as before; and processing needs no identities, for it marks a scope or does nothing.

**The law** (`Build.calls_keep`): calls leave alone what is not theirs to change (`Progress.Kept`),
at any depth and in any session, and they do end where the depth is enough, if all identities of raw
features can be listed in advance. The two are shown in one walk through the pieces.

What it does not establish: that they can be listed. That takes a source that ignores
dependencies (`Build.lists_possibleIds`).
-/

set_option autoImplicit false

namespace FeatureAssembly

open Step

/-! ## How much is left to do -/

theorem countP_lt {α : Type} {l : List α} {p q : α → Bool} (h : ∀ a, q a = true → p a = true)
    {a : α} (ha : a ∈ l) (hp : p a = true) (hq : q a = false) : l.countP q < l.countP p := by
  induction l with
  | nil => cases ha
  | cons c rest ih =>
    have le : rest.countP q ≤ rest.countP p := List.countP_mono_left fun a _ => h a
    rw [List.countP_cons, List.countP_cons]
    rcases List.mem_cons.1 ha with rfl | ha
    · rw [hp, hq]
      simp only [Bool.false_eq_true, if_false, if_true]
      omega
    · have lt := ih ha
      have := h c
      cases hc : q c with
      | false => simp only [Bool.false_eq_true, if_false]; omega
      | true => rw [this hc]; simp only [if_true]; omega

namespace Build

variable {b : Build} {ids : List Identity}

/-- The scopes of all modules. -/
def slots (b : Build) : List (ModuleKey × Scope) :=
  b.reactor.modules.flatMap fun m => Scope.all.map fun scope => (m.key, scope)

/-- The number of scopes that are not marked. -/
def unprocessed (b : Build) (s : Session) : Nat :=
  b.slots.countP fun t => !(s.state t.1 t.2).processed

theorem length_slots : b.slots.length = 2 * b.reactor.modules.length := by
  unfold slots
  induction b.reactor.modules with
  | nil => rfl
  | cons m rest ih =>
    rw [List.flatMap_cons, List.length_append, ih, List.length_cons]
    show 2 + _ = _
    omega

theorem mem_slots {key : ModuleKey} {m : Module} (h : b.reactor.get? key = some m) (scope : Scope) :
    (key, scope) ∈ b.slots := by
  obtain ⟨hm, hk⟩ := mem_modules_of_get? h
  exact List.mem_flatMap.2 ⟨m, hm, List.mem_map.2 ⟨scope, scope.mem_all, by rw [hk]⟩⟩

theorem unprocessed_le {s s' : Session} (h : s.Marks s') : b.unprocessed s' ≤ b.unprocessed s := by
  refine List.countP_mono_left fun t _ ht => ?_
  have hp := h t.1 t.2
  cases hs : (s.state t.1 t.2).processed with
  | false => rfl
  | true => rw [hp hs] at ht; exact ht

/-- There is less to do once a scope is marked. -/
theorem unprocessed_markProcessed {key : ModuleKey} {m : Module} {scope : Scope} {s : Session}
    (hm : b.reactor.get? key = some m) (hn : (s.state key scope).processed = false) :
    b.unprocessed (s.modifyStore key fun t => t.markProcessed scope) < b.unprocessed s := by
  have marked : ((s.modifyStore key fun t => t.markProcessed scope).state key scope).processed = true := by
    unfold FeatureStore.markProcessed
    rw [Session.state_modifyStore, if_pos ⟨rfl, rfl⟩]
  refine countP_lt (fun t ht => ?_) (mem_slots hm scope) (by rw [hn]; rfl) (by rw [marked]; rfl)
  have hp := (((Session.Extends.refl scope s).markProcessed key).state t.1 t.2).processed
  cases hs : (s.state t.1 t.2).processed with
  | false => rfl
  | true => rw [hp hs] at ht; exact ht

/-- The number of identities from a list that are not in flight. -/
def waiting (ids : List Identity) (inFlight : SortedSet Identity) : Nat :=
  ids.countP fun i => !inFlight.contains i

theorem waiting_le (ids : List Identity) (inFlight : SortedSet Identity) :
    waiting ids inFlight ≤ ids.length :=
  List.countP_le_length

/-- There is less to do once an identity is in flight. -/
theorem waiting_add {inFlight : SortedSet Identity} {id : Identity} (hm : id ∈ ids)
    (hn : inFlight.contains id = false) : waiting ids (inFlight.add id) < waiting ids inFlight := by
  refine countP_lt (fun i hi => ?_) hm (by rw [hn]; rfl)
    (by rw [SortedSet.contains_add, decide_eq_true rfl]; rfl)
  rw [SortedSet.contains_add] at hi
  cases hc : inFlight.contains i with
  | false => rfl
  | true => rw [hc, Bool.or_true] at hi; exact hi

/-- **A depth that is enough to process** a scope. -/
def processDepth (b : Build) (ids : List Identity) (s : Session) : Nat :=
  b.unprocessed s * (ids.length + 2) + 1

/-- **A depth that is enough to provide** a feature. -/
def provideDepth (b : Build) (ids : List Identity) (p : Progress) : Nat :=
  b.unprocessed p.session * (ids.length + 2) + waiting ids p.inFlight + 2

/-- A depth that is enough to provide a feature with anything in flight. -/
def assembleDepth (b : Build) (ids : List Identity) (s : Session) : Nat :=
  (b.unprocessed s + 1) * (ids.length + 2)

theorem provideDepth_le (p : Progress) :
    b.provideDepth ids p ≤ b.assembleDepth ids p.session := by
  have := waiting_le ids p.inFlight
  unfold provideDepth assembleDepth
  rw [Nat.succ_mul]
  omega

theorem processDepth_le_assembleDepth {s : Session} :
    b.processDepth ids s ≤ b.assembleDepth ids s := by
  unfold processDepth assembleDepth
  rw [Nat.succ_mul]
  omega

theorem assembleDepth_le {s s' : Session} (h : s.Marks s') :
    b.assembleDepth ids s' ≤ b.assembleDepth ids s :=
  Nat.mul_le_mul_right _ (Nat.succ_le_succ (unprocessed_le h))

theorem processDepth_le {s s' : Session} (h : s.Marks s') :
    b.processDepth ids s' ≤ b.processDepth ids s :=
  Nat.succ_le_succ (Nat.mul_le_mul_right _ (unprocessed_le h))

theorem provideDepth_mono {p p' : Progress} (h : p.session.Marks p'.session)
    (hf : p'.inFlight = p.inFlight) : b.provideDepth ids p' ≤ b.provideDepth ids p := by
  have := Nat.mul_le_mul_right (ids.length + 2) (unprocessed_le (b := b) h)
  unfold provideDepth
  rw [hf]
  omega

/-- A marked scope leaves enough for what is provided in it. -/
theorem assembleDepth_markProcessed {key : ModuleKey} {m : Module} {scope : Scope} {s : Session}
    (hm : b.reactor.get? key = some m) (hn : (s.state key scope).processed = false) :
    b.assembleDepth ids (s.modifyStore key fun t => t.markProcessed scope) + 1 ≤
      b.processDepth ids s :=
  Nat.succ_le_succ (Nat.mul_le_mul_right _ (unprocessed_markProcessed hm hn))

end Build

/-! ## What calls keep -/

/-- **What a call on behalf of a scope leaves behind**: a session that has grown, the same identities
in flight, each scope asked for once at most, and raw features from the list only, if there is one
to bound the depth. -/
structure Progress.Kept (r : Reactor) (total : Prop) (ids : List Identity) (scope : Scope)
    (p p' : Progress) : Prop where
  grows : p.session.Extends scope p'.session
  inFlight : p'.inFlight = p.inFlight
  asks : p.session.Asks r p'.session p.trace p'.trace
  within : total → p'.session.RawsWithin ids

namespace Progress.Kept

variable {r : Reactor} {total : Prop} {ids : List Identity} {scope scope' : Scope}
  {p p' p'' : Progress}

theorem refl (h : total → p.session.RawsWithin ids) : p.Kept r total ids scope p :=
  ⟨.refl _ _, rfl, .refl _ _ _, h⟩

theorem trans (h : p.Kept r total ids scope p') (h' : p'.Kept r total ids scope p'') :
    p.Kept r total ids scope p'' :=
  ⟨h.grows.trans h'.grows, h'.inFlight.trans h.inFlight, h.asks.trans h'.asks, h'.within⟩

theorem weaken (h : p.Kept r total ids scope p') (hs : scope' = .main → scope = .main) :
    p.Kept r total ids scope' p' :=
  ⟨h.grows.weaken hs, h.inFlight, h.asks, h.within⟩

/-- Something is done that is no question to the source. -/
theorem note (h : p.Kept r total ids scope p') {e : Event} (he : Build.loads [e] = []) :
    p.Kept r total ids scope (p'.note e) :=
  ⟨h.grows, h.inFlight, h.asks.note he, h.within⟩

/-- A change of a scope that grows it, and leaves marks and dependencies alone. -/
theorem modify (h : p.Kept r total ids scope p') {key : ModuleKey} {f : ScopeState → ScopeState}
    (grows : (p.session.state key scope).Extends (f (p'.session.state key scope)))
    (marks : (p'.session.state key scope).processed = true →
      (f (p'.session.state key scope)).processed = true)
    (within : total → ∀ g ∈ (f (p'.session.state key scope)).raw.values, g.id ∈ ids) :
    p.Kept r total ids scope (p'.onSession fun s => s.modifyStore key fun t => t.modify scope f) where
  grows := h.grows.modify grows
  inFlight := h.inFlight
  asks := h.asks.onSession (fun key' scope' hp => by
    show ((p'.session.modifyStore key fun t => t.modify scope f).state key' scope').processed = true
    rw [Session.state_modifyStore]
    split
    · next hk => rw [hk.1, hk.2] at hp; exact marks hp
    · exact hp) fun _ _ => rfl
  within ht := (h.within ht).modify (within ht)

/-- A change that leaves the features alone, and the dependencies of all modules whose main scope is
not marked. -/
theorem onSession (h : p.Kept r total ids scope p') {f : Session → Session}
    (hs : ∀ key, (f p'.session).store key = p'.session.store key)
    (hd : ∀ key, (p'.session.state key .main).processed = false →
      (f p'.session).dependenciesOf key = p'.session.dependenciesOf key) :
    p.Kept r total ids scope (p'.onSession f) where
  grows := h.grows.trans (.of_store_eq hs)
  inFlight := h.inFlight
  asks := by
    have grows : p'.session.Extends scope (f p'.session) := .of_store_eq hs
    exact h.asks.onSession grows.marks fun key hn =>
      hd key (Session.state_eq_of_store_eq hs key .main ▸ hn)
  within ht := (h.within ht).of_state_eq (Session.state_eq_of_store_eq hs)

theorem recordAssembled (h : p.Kept r total ids scope p') (key : ModuleKey) (location : String)
    (f : Feature) : p.Kept r total ids scope (p'.onSession fun s =>
      s.modifyStore key fun t => t.recordAssembled scope location f) :=
  h.modify ⟨(h.grows.state key scope).processed, (h.grows.state key scope).raw,
      fun ha => SortedMap.get?_insertIfNew_of_some ((h.grows.state key scope).assembled ha)⟩
    (fun hp => hp) fun ht => h.within ht key scope

theorem setRaw (h : p.Kept r total ids scope p') {key : ModuleKey}
    (hn : (p.session.state key scope).processed = false) {features : FeatureMap}
    (hf : total → ∀ f ∈ features.values, f.id ∈ ids) : p.Kept r total ids scope (p'.onSession fun s =>
      s.modifyStore key fun t => t.setRaw scope features) :=
  h.modify ⟨(h.grows.state key scope).processed, fun hp => absurd hp (by simp [hn]),
      (h.grows.state key scope).assembled⟩
    (fun hp => hp) hf

end Progress.Kept

/-- **Calls keep** what they leave alone, and end where the depth is enough. -/
structure Calls.Keep (calls : Calls) (b : Build) (total : Prop) (ids : List Identity)
    (depth : Nat) : Prop where
  process : ∀ {key scope p}, (total → p.session.RawsWithin ids) →
    (total → b.processDepth ids p.session ≤ depth) →
    Ends total (calls.process key scope) p fun r p' => p.Kept b.reactor total ids scope p' ∧
      (r = .ok () → (p'.session.state key scope).processed = true)
  provide : ∀ {key scope id p}, (total → p.session.RawsWithin ids) →
    (total → b.provideDepth ids p ≤ depth) →
    Ends total (calls.provide key scope id) p fun _ => p.Kept b.reactor total ids scope

namespace Build

variable {b : Build} {ids : List Identity} {calls : Calls} {total : Prop} {depth : Nat}
  {p : Progress}

theorem merge_keeps (hb : b.merger = .byPrototype) (hc : calls.Keep b total ids depth)
    (hw : total → p.session.RawsWithin ids) (hd : total → b.provideDepth ids p ≤ depth)
    (key : ModuleKey) (scope : Scope) (location : String) (base : Feature) :
    Ends total (b.merge calls key scope location base) p fun _ => p.Kept b.reactor total ids scope :=
  have begun : p.Kept b.reactor total ids scope (p.note (.merging key scope location base.id)) :=
    (Progress.Kept.refl hw).note rfl
  ends_merge hb key scope location base (fun _ => begun.note rfl) (fun _ _ => begun.note rfl)
    fun _ _ _ => (hc.provide (p := p.note _) hw hd).mono fun _ _ hk => (begun.trans hk).note rfl

theorem assembleAt_keeps (hb : b.merger = .byPrototype) (hc : calls.Keep b total ids depth)
    (hw : total → p.session.RawsWithin ids) (hd : total → b.assembleDepth ids p.session ≤ depth)
    (key : ModuleKey) (scope : Scope) (e : String × Feature) :
    Ends total (b.assembleAt calls key scope e) p fun _ => p.Kept b.reactor total ids scope := by
  refine ends_assembleAt key scope e (fun _ => .refl hw) (fun _ _ => ?_) fun _ hf => ?_
  · refine (merge_keeps hb hc hw (fun ht => Nat.le_trans (provideDepth_le p) (hd ht)) key scope
      e.1 e.2).mono fun r p' h => ?_
    cases r with
    | error e => exact h
    | ok g => exact h.recordAssembled key e.1 g
  · refine (merge_keeps (p := p.enter e.2.id) hb hc hw
      (fun ht => Nat.le_trans (provideDepth_le _) (hd ht)) key scope e.1 e.2).mono fun r p' h => ?_
    have left : p.Kept b.reactor total ids scope (p'.leave e.2.id) := by
      refine ⟨h.grows, ?_, h.asks, h.within⟩
      rw [Progress.inFlight_leave, h.inFlight]
      exact SortedSet.erase_add hf
    cases r with
    | error e => exact left
    | ok g => exact left.recordAssembled key e.1 g

theorem buildAggregates_keeps (hw : total → p.session.RawsWithin ids) (m : Module) (scope : Scope) :
    Ends total (b.buildAggregates m scope) p fun _ => p.Kept b.reactor total ids scope := by
  refine ends_forM (fun _ p' => p.Kept b.reactor total ids scope p') (.refl hw) (fun _ h => h)
    fun d rest p' hd h => ?_
  have hs : d.scope = scope := by simpa using (List.mem_filter.1 hd).2
  subst hs
  exact ends_buildAggregate m d (fun _ => h) h fun _ _ =>
    (h.note rfl).recordAssembled m.key _ _

/-- A scope of a module that was not marked is processed after it is marked, with main. -/
theorem processMarked_keeps (hb : b.merger = .byPrototype) (hl : total → b.Lists ids)
    (hc : calls.Keep b total ids depth) {m : Module} (hm : m ∈ b.reactor.modules) {scope : Scope}
    {dependencies : List Dependency} {p₀ : Progress}
    (hn : (p₀.session.state m.key scope).processed = false) (hk : p₀.Kept b.reactor total ids scope p)
    (asked : p₀.Kept b.reactor total ids scope (p.note (.loaded m.key dependencies scope)))
    (marked : (p.session.state m.key scope).processed = true)
    (main : (p.session.state m.key .main).processed = true)
    (hd : total → b.assembleDepth ids p.session ≤ depth) :
    Ends total (b.processMarked calls (m.dependingOn dependencies) scope) p fun r q =>
      p₀.Kept b.reactor total ids scope q ∧
        (r = .ok () → (q.session.state m.key scope).processed = true) := by
  let inv : Progress → Prop := fun q =>
    p₀.Kept b.reactor total ids scope q ∧ p.session.Marks q.session
  have enough : ∀ {q}, inv q → total → b.assembleDepth ids q.session ≤ depth := fun h ht =>
    Nat.le_trans (assembleDepth_le h.2) (hd ht)
  have later : ∀ {r : Except AssemblyError Unit} {q q'}, inv q → q.Kept b.reactor total ids scope q' →
      either (fun _ => inv) (fun e q => p₀.Kept b.reactor total ids scope q ∧
        (Except.error e = Except.ok () → (q.session.state m.key scope).processed = true)) r q' := by
    intro r q q' h h'
    have := h.1.trans h'
    cases r with
    | error e => exact ⟨this, nofun⟩
    | ok a => exact ⟨this, h.2.trans h'.asks.marks⟩
  refine ends_processMarked m dependencies scope inv inv inv inv (fun _ _ => ⟨hk, nofun⟩)
    (fun _ _ => ⟨asked, nofun⟩) ?check ?attach (fun _ _ h => h) ?assemble ?aggregate ?augment
  case check =>
    intro features _ hf
    have set : inv ((p.note (.loaded m.key dependencies scope)).onSession fun s =>
        s.modifyStore m.key fun t => t.setRaw scope features) :=
      ⟨asked.setRaw hn fun ht => hl ht m dependencies scope features hm (source_of_load hf),
        fun key scope' hp => (p.session.processed_setRaw m.key key scope scope' features).trans hp⟩
    exact ends_checkStore m.key (fun _ => set)
      fun e _ => ⟨set.1.onSession (fun _ => rfl) fun _ _ => rfl, nofun⟩
  case attach =>
    rintro q rfl h
    refine ends_attachPackagedUnit m (fun s stores _ dependencies _ => ?_)
      fun l => ⟨h.1.onSession (fun _ => rfl) fun _ _ => rfl, nofun⟩
    have set := h.1.setRaw hn fun ht => id_mem_withUnit (m := m) (b := b) (h.1.within ht m.key .main)
    refine ⟨set.onSession (f := fun _ => s) stores fun key _ => ?_, fun key scope' hp => ?_⟩
    · exact congrArg (fun d => (SortedMap.get? d key).getD []) dependencies
    · show (s.state key scope').processed = true
      rw [Session.state_eq_of_store_eq stores]
      exact (q.session.processed_setRaw m.key key .main scope' _).trans (h.2 key scope' hp)
  case assemble =>
    intro q h
    refine (ends_forM (fun _ q' => q.Kept b.reactor total ids scope q') (.refl h.1.within)
      (fun _ h => h) fun e rest q' _ hi => ?_).mono fun r q' hk => later h hk
    refine (assembleAt_keeps hb hc hi.within (fun ht =>
      Nat.le_trans (assembleDepth_le hi.asks.marks) (enough h ht)) m.key scope e).mono fun r q hq => ?_
    cases r with
    | error e => exact hi.trans hq
    | ok u => exact hi.trans hq
  case aggregate =>
    intro q h
    exact (buildAggregates_keeps h.1.within m scope).mono fun r q' hk => later h hk
  case augment =>
    intro q h
    refine ⟨h.1.onSession (b.store_augmented m.key scope _) fun key unmarked => ?_, fun _ => ?_⟩
    · refine dependenciesOf_augmented_of_ne ?_ scope q.session
      rintro rfl
      exact Bool.eq_false_iff.1 unmarked (h.2 _ _ main)
    · show ((b.augmented m.key scope q.session).state m.key scope).processed = true
      rw [Session.state_eq_of_store_eq (b.store_augmented m.key scope q.session)]
      exact h.2 _ _ marked

theorem processWith_keeps (hb : b.merger = .byPrototype) (hl : total → b.Lists ids)
    (hc : calls.Keep b total ids depth) {key : ModuleKey} {scope : Scope}
    (hw : total → p.session.RawsWithin ids) (hd : total → b.processDepth ids p.session ≤ depth + 1) :
    Ends total (b.processWith calls key scope) p fun r p' => p.Kept b.reactor total ids scope p' ∧
      (r = .ok () → (p'.session.state key scope).processed = true) := by
  have opens : p.Kept b.reactor total ids scope (opened key scope p) :=
    ((Progress.Kept.refl hw).modify (f := fun t => { t with processed := true })
      ⟨fun _ => rfl, fun _ => rfl, fun ha => ha⟩ (fun _ => rfl) fun ht => hw ht key scope).note
      (e := .opened key scope) rfl
  have marked : ((opened key scope p).session.state key scope).processed = true := by
    show ((p.session.modifyStore key fun t => t.markProcessed scope).state key scope).processed = true
    exact (p.session.processed_markProcessed key key scope scope).2 (.inl rfl)
  have enough : ∀ {m}, b.reactor.get? key = some m →
      (p.session.state key scope).processed = false → total →
      b.assembleDepth ids (opened key scope p).session ≤ depth :=
    fun hm hn ht => Nat.le_of_succ_le_succ (Nat.le_trans (assembleDepth_markProcessed hm hn) (hd ht))
  have asked : ∀ {m q}, m ∈ b.reactor.modules → (p.session.state m.key scope).processed = false →
      p.Kept b.reactor total ids scope q → (q.session.state m.key scope).processed = true →
      (m.key, scope) ∉ loads (since p.trace q.trace) → p.Kept b.reactor total ids scope
        (q.note (.loaded m.key (p.session.dependenciesOf m.key) scope)) :=
    fun hm hn h marked fresh => ⟨h.grows, h.inFlight,
      h.asks.load (contains_of_mem_modules hm) hn marked fresh fun _ => rfl, h.within⟩
  have first : loads (since p.trace (opened key scope p).trace) = [] := by
    show loads (since p.trace (.opened key scope :: p.trace)) = []
    rw [since_cons _ (List.suffix_refl _), since_self]
    rfl
  refine ends_processWith key scope (fun _ => ⟨.refl hw, nofun⟩) (fun _ _ hp => ⟨.refl hw, fun _ => hp⟩)
    ?main ?test
  case main =>
    rintro m hm hn rfl
    obtain ⟨mem, rfl⟩ := mem_modules_of_get? hm
    have fresh : (m.key, .main) ∉ loads (since p.trace (opened m.key .main p).trace) := by
      rw [first]
      nofun
    exact processMarked_keeps hb hl hc mem hn opens (asked mem hn opens marked fresh) marked marked
      (enough hm hn)
  case test =>
    rintro m hm hn rfl
    obtain ⟨mem, rfl⟩ := mem_modules_of_get? hm
    refine (hc.process (p := opened m.key .test p) opens.within fun ht =>
      Nat.le_trans processDepth_le_assembleDepth (enough hm hn ht)).mono fun r p' ⟨h, main⟩ => ?_
    have test : p.Kept b.reactor total ids .test p' := opens.trans (h.weaken nofun)
    cases r with
    | error e => exact ⟨test, nofun⟩
    | ok u =>
      have fresh : (m.key, .test) ∉ loads (since p.trace p'.trace) := by
        rw [since_trans opens.asks.grows h.asks.grows, loads_append, first, List.nil_append]
        intro again
        obtain ⟨_, again⟩ := mem_loads_iff.1 again
        exact Bool.eq_false_iff.1 (h.asks.asked _ _ _ again).2.1 marked
      have stays := h.asks.marks _ _ marked
      exact processMarked_keeps hb hl hc mem hn test (asked mem hn test stays fresh) stays (main rfl)
        fun ht => Nat.le_trans (assembleDepth_le h.asks.marks) (enough hm hn ht)

/-! ## Providing -/

/-- What there is to go on with while an identity is provided. -/
structure Room (b : Build) (total : Prop) (ids : List Identity) (depth : Nat) (id : Identity)
    (p : Progress) : Prop where
  within : total → p.session.RawsWithin ids
  held : p.inFlight.contains id = true
  process : total → b.processDepth ids p.session ≤ depth
  /-- A raw feature with the identity is provided for with one more identity in flight. -/
  provide : total → id ∈ ids → b.provideDepth ids p ≤ depth

theorem Room.of_kept {id : Identity} {scope : Scope} {p' : Progress}
    (h : b.Room total ids depth id p) (hk : p.Kept b.reactor total ids scope p') :
    b.Room total ids depth id p' where
  within := hk.within
  held := by rw [hk.inFlight]; exact h.held
  process ht := Nat.le_trans (processDepth_le hk.asks.marks) (h.process ht)
  provide ht hm := Nat.le_trans (provideDepth_mono hk.asks.marks hk.inFlight) (h.provide ht hm)

theorem processReleased_keeps (hc : calls.Keep b total ids depth) {id : Identity}
    (h : b.Room total ids depth id p) (key : ModuleKey) (scope : Scope) :
    Ends total (processReleased calls id key scope) p fun _ => p.Kept b.reactor total ids scope := by
  refine ends_processReleased id key scope ?_
  refine (hc.process (p := p.leave id) h.within h.process).mono fun r p' ⟨hk, _⟩ => ?_
  refine ⟨hk.grows, ?_, hk.asks, hk.within⟩
  rw [Progress.inFlight_enter, hk.inFlight]
  exact SortedSet.add_erase h.held

theorem lookIn_keeps (hb : b.merger = .byPrototype) (hc : calls.Keep b total ids depth)
    {id : Identity} {wanted : Scope} (key : ModuleKey) :
    ∀ {scopes : List Scope} {p : Progress}, (∀ scope ∈ scopes, scope ∈ wanted.visible) →
      b.Room total ids depth id p →
      Ends total (b.lookIn calls key wanted id scopes) p fun _ => p.Kept b.reactor total ids wanted
  | [], p, _, h => ends_lookIn_nil key wanted id (.refl h.within)
  | scope :: rest, p, hv, h => by
    have narrow : wanted = .main → scope = .main := by
      rintro rfl
      simpa [Scope.visible] using hv scope List.mem_cons_self
    have rest_visible : ∀ scope ∈ rest, scope ∈ wanted.visible := fun scope hs =>
      hv scope (List.mem_cons_of_mem _ hs)
    refine ends_lookIn_cons key wanted id scope rest (fun p' => p.Kept b.reactor total ids wanted p') ?open_
      (fun _ => .refl h.within) (fun p' _ _ hk _ => hk) ?absent ?raw
    case open_ =>
      intro _
      refine (processReleased_keeps hc h key scope).mono fun r p' hk => ?_
      cases r with
      | error e => exact hk.weaken narrow
      | ok u => exact hk.weaken narrow
    case absent =>
      intro p' hk _ _
      exact (lookIn_keeps hb hc key rest_visible (h.of_kept hk)).mono fun r p'' hk' => hk.trans hk'
    case raw =>
      intro p' location f hk _ hr
      have room := h.of_kept hk
      have known : total → id ∈ ids := fun ht => by
        have hm : (location, f) ∈ (p'.session.state key scope).raw.entries :=
          List.mem_of_find?_eq_some hr
        have hf : f.id = id := by simpa using List.find?_some hr
        exact hf ▸ room.within ht key scope f (List.mem_map_of_mem hm)
      refine (merge_keeps hb hc room.within (fun ht => room.provide ht (known ht)) key scope location
        f).mono fun r p'' hk' => ?_
      cases r with
      | error e => exact hk.trans (hk'.weaken narrow)
      | ok g => exact hk.trans ((hk'.recordAssembled key location g).weaken narrow)

theorem find_keeps (hb : b.merger = .byPrototype) (hc : calls.Keep b total ids depth)
    {id : Identity} (h : b.Room total ids depth id p) (key : ModuleKey) (scope : Scope) :
    Ends total (b.find calls key scope id) p fun _ => p.Kept b.reactor total ids scope := by
  have fetched : p.Kept b.reactor total ids scope (p.note (.fetched id)) :=
    (Progress.Kept.refl h.within).note rfl
  refine ends_find key scope id (fun _ => lookIn_keeps hb hc key (fun _ hs => hs) h) (fun _ _ => ?_)
    (fun _ _ _ _ => fetched) (fun _ _ _ _ _ => fetched) fun _ _ _ _ _ => fetched
  refine (processReleased_keeps hc h id.moduleKey scope).mono fun r p' hk => ?_
  cases r with
  | error e => exact hk
  | ok u =>
    exact (lookIn_keeps hb hc id.moduleKey (fun _ hs => hs) (h.of_kept hk)).mono
      fun r p'' hk' => hk.trans hk'

theorem provideWith_keeps (hb : b.merger = .byPrototype) (hc : calls.Keep b total ids depth)
    {key : ModuleKey} {scope : Scope} {id : Identity} (hw : total → p.session.RawsWithin ids)
    (hd : total → b.provideDepth ids p ≤ depth + 1) :
    Ends total (b.provideWith calls key scope id) p fun _ => p.Kept b.reactor total ids scope := by
  refine ends_provideWith key scope id
    (fun _ => ((Progress.Kept.refl hw).onSession (fun _ => rfl) fun _ _ => rfl).note rfl)
    fun hf => ?_
  have room : b.Room total ids depth id (p.enter id) := by
    refine ⟨hw, ?_, fun ht => ?_, fun ht hm => ?_⟩
    · rw [Progress.inFlight_enter, SortedSet.contains_add, decide_eq_true rfl, Bool.true_or]
    · have := hd ht
      unfold provideDepth at this
      unfold processDepth
      rw [Progress.session_enter]
      omega
    · have := hd ht
      have := waiting_add hm hf
      unfold provideDepth at *
      rw [Progress.session_enter, Progress.inFlight_enter]
      omega
  refine (find_keeps hb hc room key scope).mono fun r p' hk => ?_
  have left : p.Kept b.reactor total ids scope (p'.leave id) := by
    refine ⟨hk.grows, ?_, hk.asks, hk.within⟩
    rw [Progress.inFlight_leave, hk.inFlight]
    exact SortedSet.erase_add hf
  cases r with
  | error e => exact left.note rfl
  | ok found =>
    cases found with
    | none =>
      have reported : p.Kept b.reactor total ids scope
          ((p'.leave id).onSession fun s => s.report (.notFound key id)) :=
        left.onSession (fun _ => rfl) fun _ _ => rfl
      exact (reported.note rfl).note rfl
    | some f =>
      refine (left.onSession (store_withReference key id _) fun key' _ => ?_).note rfl
      unfold Session.dependenciesOf
      rw [dependencies_withReference]

/-! ## Calls -/

/-- **Calls keep what they leave alone, and end at enough depth.** -/
theorem calls_keep (hb : b.merger = .byPrototype) (total : Prop) (hl : total → b.Lists ids) :
    ∀ depth, (b.calls depth).Keep b total ids depth
  | 0 => ⟨fun _ hd ht => absurd (hd ht) (Nat.not_succ_le_zero _),
      fun _ hd ht => absurd (hd ht) (Nat.not_succ_le_zero _)⟩
  | depth + 1 => ⟨processWith_keeps hb hl (calls_keep hb total hl depth),
      provideWith_keeps hb (calls_keep hb total hl depth)⟩

/-! ## The depth of a build -/

/-- The identities of all raw features that can occur. -/
def possibleIds (b : Build) (s : Session) : List Identity :=
  (b.possibleFeatures s).map Feature.id

theorem lists_possibleIds (hi : b.source.IgnoresDependencies) (s : Session) :
    b.Lists (b.possibleIds s) := by
  intro m dependencies scope features hm hs f hf
  rw [hi] at hs
  refine List.mem_map_of_mem (List.mem_append_right _ (List.mem_flatMap.2 ⟨m, hm, ?_⟩))
  refine List.mem_flatMap.2 ⟨scope, scope.mem_all, ?_⟩
  unfold sourceFeatures
  rw [hs]
  exact hf

theorem rawsWithin_possibleIds (b : Build) (s : Session) : s.RawsWithin (b.possibleIds s) := by
  intro key scope f hf
  refine List.mem_map_of_mem (List.mem_append_left _ ?_)
  unfold Session.state Session.store at hf
  cases hk : s.stores.get? key with
  | none => rw [hk] at hf; cases scope <;> cases hf
  | some store =>
    rw [hk] at hf
    refine List.mem_flatMap.2 ⟨store, SortedMap.mem_values_of_get? hk, ?_⟩
    exact List.mem_flatMap.2 ⟨scope, scope.mem_all, hf⟩

theorem assembleDepth_le_depthBound (b : Build) (s : Session) :
    b.assembleDepth (b.possibleIds s) s ≤ b.depthBound s := by
  have scopes : b.unprocessed s ≤ 2 * b.reactor.modules.length := by
    rw [← length_slots]
    exact List.countP_le_length
  unfold assembleDepth depthBound possibleIds
  rw [List.length_map]
  exact Nat.mul_le_mul (Nat.succ_le_succ scopes) (Nat.succ_le_succ (Nat.le_succ _))

end Build

end FeatureAssembly
