import FeatureAssembly.Proofs.AssembledStore
import FeatureAssembly.Proofs.Overlay
import FeatureAssembly.Proofs.RawFeatures

/-!
# The packaged unit

A module that builds a unit has it among the bundles of its only main feature. The unit is attached
to the raw feature, and from there it has to come through the merge, whoever asks for it.

**The law** (`Build.packaged_unit_attached`): of several main features that are accepted none gets the
unit. The scope fails over them as soon as it is processed, on whatever behalf, and before any of them
is merged. A single main feature has the unit once it is assembled, whatever its prototype brings
along or leaves out. And of all raw features this one alone is changed.

For a single feature that is refused this holds only of builds that stop there. It stays in the store
without the unit, and a build that goes on with that session may well assemble it
(`Build.unit_not_always_attached`).

What it does not establish: that a single feature is assembled at all, or which place the unit has
among its bundles.
-/

set_option autoImplicit false

namespace FeatureAssembly

open Step

/-! ## Bundles of a feature itself -/

theorem Artifacts.last?_entries {c : Artifacts} (h : c.ids.Nodup) (id : Identity) :
    last? c.entries id = c.get? id := by
  unfold last?
  rw [List.findRev?_eq_find?_reverse]
  cases hr : c.entries.reverse.find? fun a => a.id == id with
  | none =>
    symm
    apply List.find?_eq_none.2
    intro a ha
    exact List.find?_eq_none.1 hr a (List.mem_reverse.2 ha)
  | some a =>
    have named : a.id = id := by simpa using List.find?_some hr
    rw [← named]
    exact (get?_of_mem h (List.mem_reverse.1 (List.mem_of_find?_eq_some hr))).symm

/-- **A feature's own bundles win**: what is made of it has them, whatever it inherits. -/
theorem Feature.Assembles.get?_bundles {supplies : Identity → Feature → Prop} {f g : Feature}
    (h : f.Assembles supplies g) (nodup : f.bundles.ids.Nodup) {id : Identity} {a : Artifact}
    (hf : f.bundles.get? id = some a) : g.bundles.get? id = some a := by
  have laid : ∀ c : Artifacts, (c.insertAll f.bundles.entries).get? id = some a := by
    intro c
    rw [Artifacts.get?_insertAll, Artifacts.last?_entries nodup, hf]
    rfl
  cases h with
  | final => exact hf
  | alone => exact laid _
  | inheriting => exact laid _

namespace Build

variable {b : Build} {calls : Calls} {p p' : Progress} {m : Module} {key : ModuleKey} {scope : Scope}
  {n : Site} {f g : Feature} {id : Identity} {features : FeatureMap}

/-- **A feature has the packaged unit** of a module: under the identity of the module, with the wanted
type or else its packaging, stands an artifact with the wanted start order and nothing more. -/
def HasUnit (b : Build) (m : Module) (f : Feature) : Prop :=
  f.bundles.get? (m.identityAs (b.config.packagedUnitType.getD m.packaging)) =
    some ⟨m.identityAs (b.config.packagedUnitType.getD m.packaging), b.config.packagedUnitStartOrder, .empty⟩

/-- The unit is attached to a single feature. -/
theorem get?_withUnit (attaches : b.config.attachPackagedUnit = true) (produces : m.hasPackagedUnit = true)
    {location : String} (single : features.entries = [(location, f)]) :
    (b.withUnit m features).get? location =
      some { f with bundles := f.bundles.insert (b.packagedUnit m) } := by
  unfold withUnit
  rw [attaches, produces]
  simp only [Bool.and_self, if_true, single]
  rw [SortedMap.get?_insert_eq, if_pos rfl]

/-- **What is made of a single feature has the unit**. -/
theorem hasUnit_of_assembles {supplies : Identity → Feature → Prop} (nodup : f.bundles.ids.Nodup)
    (h : Feature.Assembles supplies { f with bundles := f.bundles.insert (b.packagedUnit m) } g) :
    b.HasUnit m g := by
  apply h.get?_bundles
  · show (f.bundles.insert (b.packagedUnit m)).ids.Nodup
    rw [Artifacts.ids_insert]
    split
    · exact nodup
    · next absent => exact List.nodup_append'.2 ⟨nodup, List.nodup_singleton _, by simpa using absent⟩
  · show (f.bundles.insert (b.packagedUnit m)).get? (b.packagedUnit m).id = some (b.packagedUnit m)
    rw [Artifacts.get?_insert, if_pos rfl]

/-! ## Several features to choose from -/

/-- **A module that is torn**: it builds a unit, its several main features are accepted, and the unit
could be attached to any of them. -/
structure Torn (b : Build) (m : Module) (features : FeatureMap) : Prop where
  known : b.reactor.get? m.key = some m
  attaches : b.config.attachPackagedUnit = true
  produces : m.hasPackagedUnit = true
  declared : b.checkAggregates m.key = .ok ()
  loads : b.load m .main = .ok features
  accepted : b.checkClassifiers m.key features .empty = .ok ()
  several : 1 < features.size

/-- Nothing of a module's main scope is merged. -/
def Unmerged (m : Module) (p : Progress) : Prop :=
  ∀ location, (⟨m.key, .main, location⟩ : Site) ∉ merges p.trace

/-- **A module is untouched**: main is not processed, nothing is read of it, and nothing is merged. -/
structure Untouched (m : Module) (p : Progress) : Prop where
  unmarked : (p.session.state m.key .main).processed = false
  raw : ∀ scope, (p.session.state m.key scope).raw = .empty
  unmerged : Unmerged m p

/-- **A torn module is spared**, or everything ends over its several features before one is merged. -/
def Spares (m : Module) (features : FeatureMap) {α : Type} : Except AssemblyError α → Progress → Prop :=
  either (fun _ => Untouched m) fun e q =>
    Untouched m q ∨ e = .ambiguousPackagedUnit m.key features.keys ∧ Unmerged m q

theorem Spares.unmerged {α : Type} {r : Except AssemblyError α} (h : Spares m features r p) :
    Unmerged m p := by
  cases r with
  | ok a => exact Untouched.unmerged h
  | error e => exact h.elim (fun untouched => untouched.unmerged) fun torn => torn.2

namespace Untouched

/-- A change that leaves marks and raw features of the module alone, and merges nothing of it. -/
theorem alike (h : Untouched m p)
    (hp : (p'.session.state m.key .main).processed = (p.session.state m.key .main).processed)
    (hr : ∀ scope, (p'.session.state m.key scope).raw = (p.session.state m.key scope).raw)
    (ht : ∀ location, (⟨m.key, .main, location⟩ : Site) ∈ merges p'.trace →
      (⟨m.key, .main, location⟩ : Site) ∈ merges p.trace) : Untouched m p' := by
  refine ⟨hp.trans h.unmarked, ?_, ?_⟩
  · exact fun scope => (hr scope).trans (h.raw scope)
  · exact fun location hm => h.unmerged location (ht location hm)

theorem onSession (h : Untouched m p) {f : Session → Session}
    (hs : ∀ scope, (f p.session).state m.key scope = p.session.state m.key scope) :
    Untouched m (p.onSession f) := by
  refine h.alike ?marked ?raw fun _ hm => hm
  · exact congrArg ScopeState.processed (hs .main)
  · exact fun scope => congrArg ScopeState.raw (hs scope)

theorem enter (h : Untouched m p) (id : Identity) : Untouched m (p.enter id) :=
  h.alike rfl (fun _ => rfl) fun _ hm => hm

theorem leave (h : Untouched m p) (id : Identity) : Untouched m (p.leave id) :=
  h.alike rfl (fun _ => rfl) fun _ hm => hm

/-- A change of the store of another module. -/
theorem updateOther (h : Untouched m p) (hk : key ≠ m.key) (f : FeatureStore → FeatureStore) :
    Untouched m (p.onSession fun s => s.modifyStore key f) := by
  apply h.onSession
  intro scope
  unfold Session.state
  rw [Session.store_modifyStore, if_neg hk.symm]

theorem recordAssembled (h : Untouched m p) (key : ModuleKey) (scope : Scope) (location : String) (g : Feature) :
    Untouched m (p.onSession fun s => s.modifyStore key fun t => t.recordAssembled scope location g) := by
  refine h.alike ?marked ?raw fun _ hm => hm
  · exact p.session.view_modifyStore ScopeState.processed rfl m.key .main
  · exact p.session.view_modifyStore ScopeState.raw rfl m.key

theorem note (h : Untouched m p) {e : Event} (he : merges [e] = []) : Untouched m (p.note e) := by
  refine h.alike rfl (fun _ => rfl) ?unmerged
  intro location hm
  have same : merges (p.note e).trace = merges p.trace := by
    show merges ([e] ++ p.trace) = _
    unfold merges at he ⊢
    rw [List.filterMap_append, he, List.nil_append]
  rwa [← same]

/-- A feature of another module is merged. -/
theorem merging (h : Untouched m p) (hk : key ≠ m.key) (scope : Scope) (location : String) (id : Identity) :
    Untouched m (p.note (.merging key scope location id)) := by
  refine h.alike rfl (fun _ => rfl) ?unmerged
  intro location' hm
  rcases List.mem_cons.1 hm with he | hm
  · cases he
    exact absurd rfl hk
  · exact hm

/-- Test is marked, or a scope of another module. -/
theorem opened (h : Untouched m p) (key : ModuleKey) (scope : Scope) (ht : key = m.key → scope ≠ .main) :
    Untouched m (Build.opened key scope p) := by
  refine h.alike ?marked ?raw fun _ hm => hm
  · exact congrArg ScopeState.processed (p.session.state_modifyStore_of_ne _ fun hk => ht hk.1.symm hk.2.symm)
  · exact p.session.view_modifyStore ScopeState.raw rfl m.key

end Untouched

end Build

/-- **Calls that spare a torn module**, or end over it. -/
structure Calls.Spare (calls : Calls) (m : Module) (features : FeatureMap) : Prop where
  process : ∀ {key scope p}, Build.Untouched m p → Ends False (calls.process key scope) p fun r q =>
    Build.Spares m features r q ∧
      (key = m.key → scope = .main → r = .error (.ambiguousPackagedUnit m.key features.keys))
  provide : ∀ {key scope id p}, Build.Untouched m p →
    Ends False (calls.provide key scope id) p (Build.Spares m features)

namespace Build

variable {b : Build} {calls : Calls} {p p' : Progress} {m : Module} {key : ModuleKey} {scope : Scope}
  {n : Site} {f g : Feature} {id : Identity} {features : FeatureMap}

theorem merge_spares (hb : b.merger = .byPrototype) (hc : calls.Spare m features) (hk : key ≠ m.key)
    (h : Untouched m p) (scope : Scope) (location : String) (f : Feature) :
    Ends False (b.merge calls key scope location f) p (Spares m features) := by
  have begun := h.merging hk scope location f.id
  apply ends_merge hb key scope location f
  case final => exact fun _ => begun.note rfl
  case alone => exact fun _ _ => begun.note rfl
  case inheriting =>
    intro prototype _ _
    apply (hc.provide begun).mono
    intro r q hq
    cases r with
    | error e => exact hq.imp (fun untouched => untouched.note rfl) id
    | ok found =>
      cases found with
      | none => exact .inl (Untouched.note hq rfl)
      | some parent => exact Untouched.note hq rfl

theorem assembleAt_spares (hb : b.merger = .byPrototype) (hc : calls.Spare m features) (hk : key ≠ m.key)
    (h : Untouched m p) (e : String × Feature) :
    Ends False (b.assembleAt calls key scope e) p (Spares m features) := by
  apply ends_assembleAt key scope e
  case done => exact fun _ => h
  case held =>
    intro _ _
    apply (merge_spares hb hc hk h scope e.1 e.2).mono
    intro r q hq
    cases r with
    | error err => exact hq
    | ok g => exact Untouched.recordAssembled hq key scope e.1 g
  case free =>
    intro _ _
    apply (merge_spares hb hc hk (h.enter e.2.id) scope e.1 e.2).mono
    intro r q hq
    cases r with
    | error err => exact hq.imp (fun untouched => untouched.leave e.2.id) id
    | ok g => exact (Untouched.leave hq e.2.id).recordAssembled key scope e.1 g

theorem forM_spares {β : Type} {x : β → Step Unit} {l : List β} (h : Untouched m p)
    (hx : ∀ a ∈ l, ∀ q, Untouched m q → Ends False (x a) q (Spares m features)) :
    Ends False (l.forM x) p (Spares m features) := by
  apply ends_forM (fun _ => Untouched m) h (fun _ hq => hq)
  intro a rest q ha hq
  apply (hx a ha q hq).mono
  intro r q' hq'
  cases r <;> exact hq'

/-- A scope of another module is processed. -/
theorem processMarked_spares (hb : b.merger = .byPrototype) (hc : calls.Spare m features) {m' : Module}
    {dependencies : List Dependency} (hk : m'.key ≠ m.key) (h : Untouched m p) :
    Ends False (b.processMarked calls (m'.dependingOn dependencies) scope) p (Spares m features) := by
  apply ends_processMarked m' dependencies scope (Untouched m) (Untouched m) (Untouched m) (Untouched m)
  case undeclared => exact fun _ _ => .inl h
  case unread => exact fun _ _ => .inl (h.note rfl)
  case check =>
    intro read _ _
    have set := (h.note (e := .loaded m'.key dependencies scope) rfl).updateOther hk fun t => t.setRaw scope read
    apply ends_checkStore m'.key
    case clean => exact fun _ => set
    case clash => exact fun e _ => .inl (set.onSession fun _ => rfl)
  case attach =>
    rintro q rfl hq
    apply ends_attachPackagedUnit m'
    case attached =>
      intro s stores _ _ _
      apply hq.onSession
      intro scope
      unfold Session.state
      rw [stores, Session.store_modifyStore, if_neg hk.symm]
    case several => exact fun _ => .inl (hq.onSession fun _ => rfl)
  case pass => exact fun _ _ hq => hq
  case assemble => exact fun q hq => forM_spares hq fun e _ q' hq' => assembleAt_spares hb hc hk hq' e
  case aggregate =>
    intro q hq
    apply forM_spares hq
    intro d _ q' hq'
    apply ends_buildAggregate m' d
    case done => exact fun _ => hq'
    case empty => exact .inl hq'
    case built => exact fun _ _ => (hq'.note rfl).recordAssembled m'.key d.scope _ _
  case augment =>
    intro q hq
    apply hq.onSession
    intro scope'
    exact Session.state_eq_of_store_eq (b.store_augmented m'.key scope q.session) m.key scope'

/-- **Main of a torn module fails**, and nothing of it is merged. -/
theorem processMarked_torn (hb : b.Regular) (torn : b.Torn m features) {dependencies : List Dependency}
    (h : Untouched m p) :
    Ends False (b.processMarked calls (m.dependingOn dependencies) .main) (opened m.key .main p) fun r q =>
      Spares m features r q ∧ r = .error (.ambiguousPackagedUnit m.key features.keys) := by
  have taken : b.load (m.dependingOn dependencies) .main = .ok features :=
    (load_dependingOn hb.ignores m dependencies .main).trans torn.loads
  let read := (opened m.key .main p).note (.loaded m.key dependencies .main) |>.onSession fun s =>
    s.modifyStore m.key fun t => t.setRaw .main features
  have main : (read.session.state m.key .main).raw = features :=
    (opened m.key .main p).session.raw_setRaw m.key .main features
  have test : (read.session.state m.key .test).raw = .empty := by
    have set : read.session.state m.key .test = (opened m.key .main p).session.state m.key .test :=
      (opened m.key .main p).session.state_modifyStore_of_ne _ (by simp)
    have marked : (opened m.key .main p).session.state m.key .test = p.session.state m.key .test :=
      p.session.state_modifyStore_of_ne _ (by simp)
    rw [set, marked]
    exact h.raw .test
  apply ends_processMarked m dependencies .main (· = read) (fun _ => False) (fun _ => False)
    (fun _ => False)
  case undeclared =>
    intro e he
    cases torn.declared.symm.trans he
  case unread =>
    intro e he
    cases taken.symm.trans he
  case check =>
    intro features' _ loads
    cases taken.symm.trans loads
    apply ends_checkStore m.key
    case clean => exact fun _ => rfl
    case clash =>
      intro e clashes
      have passes : b.checkClassifiers m.key (read.session.state m.key .main).raw
          (read.session.state m.key .test).raw = .ok () := by
        rw [main, test]
        exact torn.accepted
      cases passes.symm.trans clashes
  case attach =>
    rintro q - rfl
    have here : (read.session.store m.key).raw .main = features := main
    apply ends_attachPackagedUnit_keys m
    case attached =>
      intro s _ _ _ _ single
      rw [here, torn.attaches, torn.produces] at single
      exact absurd torn.several (by simpa using single)
    case several =>
      intro _ _
      rw [here]
      exact ⟨.inr ⟨rfl, h.unmerged⟩, rfl⟩
  case pass => exact nofun
  case assemble => exact fun _ => False.elim
  case aggregate => exact fun _ => False.elim
  case augment => exact fun _ => False.elim

theorem processWith_spares (hb : b.Regular) (torn : b.Torn m features)
    (hc : calls.Spare m features) (h : Untouched m p) :
    Ends False (b.processWith calls key scope) p fun r q => Spares m features r q ∧
      (key = m.key → scope = .main → r = .error (.ambiguousPackagedUnit m.key features.keys)) := by
  apply ends_processWith key scope
  case unknown =>
    intro unknown
    refine ⟨.inl h, ?_⟩
    rintro rfl
    cases torn.known.symm.trans unknown
  case done =>
    intro m' _ marked
    refine ⟨h, ?_⟩
    rintro rfl rfl
    cases h.unmarked.symm.trans marked
  case main =>
    rintro m' hm' _ rfl
    obtain ⟨-, rfl⟩ := mem_modules_of_get? hm'
    by_cases hk : m'.key = m.key
    · rw [hk] at hm' ⊢
      cases torn.known.symm.trans hm'
      exact (processMarked_torn hb torn h).mono fun r q hq => ⟨hq.1, fun _ _ => hq.2⟩
    · have opened := h.opened m'.key .main fun here => absurd here hk
      exact (processMarked_spares hb.merger hc hk opened).mono fun r q hq => ⟨hq, fun here => absurd here hk⟩
  case test =>
    rintro m' hm' _ rfl
    obtain ⟨-, rfl⟩ := mem_modules_of_get? hm'
    apply (hc.process (h.opened m'.key .test fun _ => nofun)).mono
    rintro r q ⟨spared, fails⟩
    cases r with
    | error e => exact ⟨spared, nofun⟩
    | ok u =>
      -- Main went well, so the module is another one.
      have hk : m'.key ≠ m.key := fun hk => nomatch fails hk rfl
      exact (processMarked_spares hb.merger hc hk spared).mono fun r q' hq' => ⟨hq', nofun⟩

theorem processReleased_spares (hc : calls.Spare m features) (h : Untouched m p) :
    Ends False (processReleased calls id key scope) p (Spares m features) := by
  apply ends_processReleased id key scope
  apply (hc.process (h.leave id)).mono
  rintro r q ⟨spared, -⟩
  cases r with
  | error e => exact spared.imp (fun untouched => untouched.enter id) fun torn => torn
  | ok u => exact Untouched.enter spared id

theorem lookIn_spares (hb : b.merger = .byPrototype) (hc : calls.Spare m features) {wanted : Scope}
    {scopes : List Scope} (h : Untouched m p) :
    Ends False (b.lookIn calls key wanted id scopes) p (Spares m features) := by
  induction scopes generalizing p with
  | nil => exact ends_lookIn_nil key wanted id h
  | cons scope rest ih =>
    apply ends_lookIn_cons key wanted id scope rest (Untouched m)
    case open_ =>
      intro _
      apply (processReleased_spares hc h).mono
      intro r q hq
      cases r <;> exact hq
    case pass => exact fun _ => h
    case found => exact fun _ _ _ hq _ => hq
    case absent => exact fun q hq _ _ => ih hq
    case raw =>
      intro q location f hq _ found
      -- The module itself has no raw feature, so the one that is found is of another.
      have hk : key ≠ m.key := by
        rintro rfl
        have there := SortedMap.get?_of_mem (List.mem_of_find?_eq_some found)
        have none := congrArg (SortedMap.get? · location) (hq.raw scope)
        cases there.symm.trans none
      apply (merge_spares hb hc hk hq scope location f).mono
      intro r q' hq'
      cases r with
      | error e => exact hq'
      | ok g => exact Untouched.recordAssembled hq' key scope location g

theorem find_spares (hb : b.merger = .byPrototype) (hc : calls.Spare m features) (h : Untouched m p) :
    Ends False (b.find calls key scope id) p (Spares m features) := by
  have asked := h.note (e := .fetched id) rfl
  apply ends_find key scope id
  case own => exact fun _ => lookIn_spares hb hc h
  case other =>
    intro _ _
    apply (processReleased_spares hc h).mono
    intro r q hq
    cases r with
    | error e => exact hq
    | ok u => exact lookIn_spares hb hc hq
  case outside => exact fun _ _ _ _ => asked
  case nowhere => exact fun _ _ _ _ _ => asked
  case broken => exact fun _ _ _ _ _ => .inl asked

theorem provideWith_spares (hb : b.merger = .byPrototype) (hc : calls.Spare m features) (h : Untouched m p) :
    Ends False (b.provideWith calls key scope id) p (Spares m features) := by
  apply ends_provideWith key scope id
  case cycle =>
    intro _
    exact (h.onSession (f := fun s => s.report (.cycle key id)) fun _ => rfl).note rfl
  case ask =>
    intro _
    apply (find_spares hb hc (h.enter id)).mono
    intro r q hq
    cases r with
    | error e => exact hq.imp (fun untouched => (untouched.leave id).note rfl) fun torn => torn
    | ok found =>
      have left : Untouched m (q.leave id) := Untouched.leave hq id
      cases found with
      | none =>
        have reported := left.onSession (f := fun s => s.report (.notFound key id)) fun _ => rfl
        exact (reported.note (e := .missing key scope id) rfl).note rfl
      | some f =>
        have referred := left.onSession (f := withReference key id) fun scope =>
          Session.state_eq_of_store_eq (store_withReference key id q.session) m.key scope
        exact referred.note rfl

/-- **Calls spare a torn module**, at any depth, or end over it. -/
theorem calls_spare (hb : b.Regular) (torn : b.Torn m features) :
    ∀ depth, (b.calls depth).Spare m features
  | 0 => ⟨fun _ => id, fun _ => id⟩
  | depth + 1 =>
    have hc := calls_spare hb torn depth
    ⟨processWith_spares hb torn hc, provideWith_spares hb.merger hc⟩

/-! ## Whole builds -/

/-- Whatever a call does, it spares a torn module or ends over it. -/
theorem process_spares (hb : b.Regular) (torn : b.Torn m features) {s : Session}
    (hs : s.Reached b.reactor (· = b)) (unmarked : (s.state m.key .main).processed = false) {o : Outcome}
    (ho : b.process s key scope = some o) :
    (∀ location, (⟨m.key, .main, location⟩ : Site) ∉ merges o.events) ∧
      ((o.session.state m.key .main).processed = true ∨ key = m.key ∧ scope = .main →
        o.result = .error (.ambiguousPackagedUnit m.key features.keys)) := by
  have onFile := onFile_of_reached hb hs
  have untouched : Untouched m ⟨s, .empty, []⟩ := by
    refine ⟨unmarked, ?_, nofun⟩
    intro scope'
    cases scope' with
    | main => exact onFile.unread m.key .main unmarked
    | test => exact onFile.behind m.key unmarked
  obtain ⟨depth, r, q, hx, rfl⟩ := exists_depth_of_process ho
  obtain ⟨spared, fails⟩ := ((calls_spare hb torn depth).process untouched).of_eq_some hx
  have same : merges q.trace.reverse = (merges q.trace).reverse := List.filterMap_reverse
  constructor
  · intro location hm
    change _ ∈ merges q.trace.reverse at hm
    rw [same, List.mem_reverse] at hm
    exact spared.unmerged location hm
  · rintro (marked | ⟨hk, hs⟩)
    · change (q.session.state m.key .main).processed = true at marked
      cases r with
      | ok u => cases (Untouched.unmarked spared).symm.trans marked
      | error e =>
        rcases spared with untouched | ⟨rfl, -⟩
        · cases untouched.unmarked.symm.trans marked
        · rfl
    · exact fails hk hs

/-- What is filed of a scope that the source has. -/
theorem filed_eq (hm : b.reactor.get? m.key = some m) (loads : b.source m scope = .ok features) :
    b.filed m.key scope =
      if scope = .main ∧ b.checkClassifiers m.key features .empty = .ok () then b.withUnit m features
      else features := by
  have source : b.sourced m.key scope = features := sourced_of_load hm (load_of_source loads)
  cases scope with
  | test => exact source
  | main =>
    cases hc : b.checkClassifiers m.key features .empty with
    | error e =>
      rw [← source] at hc
      simpa [source] using filed_main_of_refused hc
    | ok u =>
      rw [← source] at hc
      simpa [source, prepared_main hm] using filed_main_of_accepted hc

/-- **The packaged unit is attached**, in any session that processing scopes of a fresh one comes to,
also with failures on the way, to what the source has for main of a module that builds a unit.

Several features that are accepted: until main is processed no call merges any of them, and the call
that processes it fails over them, with all their locations in order.

A single one, which repeats no bundle: where it is assembled it has the unit, if it is accepted, or if no
call follows one that fails.

Raw features: a call sets them for the scopes that it reads, to what the source has for the dependencies
that the module has by then, with the unit attached in main if that is accepted, and leaves them as they
are elsewhere. -/
theorem packaged_unit_attached (b : Build) (hb : b.merger = .byPrototype) {m : Module}
    (hm : m ∈ b.reactor.modules) (attaches : b.config.attachPackagedUnit = true)
    (produces : m.hasPackagedUnit = true) {features : FeatureMap} (loads : b.source m .main = .ok features) :
    (1 < features.size → b.checkAggregates m.key = .ok () →
      b.checkClassifiers m.key features .empty = .ok () →
      ∀ s : Session, s.Reached b.reactor (· = b) → (s.store m.key).isProcessed .main = false →
        ∀ key scope, ∃ o, b.process s key scope = some o ∧
          (∀ location, (⟨m.key, .main, location⟩ : Site) ∉ merges o.events) ∧
          ((o.session.store m.key).isProcessed .main = true ∨ key = m.key ∧ scope = .main →
            o.result = .error (.ambiguousPackagedUnit m.key features.keys))) ∧
    (∀ location f, features.entries = [(location, f)] → f.bundles.ids.Nodup →
      (b.checkClassifiers m.key features .empty = .ok () → ∀ s : Session, s.Reached b.reactor (· = b) →
        ∀ g, ((s.store m.key).assembled .main).get? location = some g → b.HasUnit m g) ∧
      ∀ targets, ∃ o, b.processEach (.start b.reactor) targets = some o ∧
        ∀ g, ((o.session.store m.key).assembled .main).get? location = some g → b.HasUnit m g) ∧
    ∀ s : Session, s.Reached b.reactor (· = b) → ∀ key scope, ∃ o, b.process s key scope = some o ∧
      ∀ m' ∈ b.reactor.modules, ∀ scope',
        ((m'.key, scope') ∉ Build.loads o.events →
          (o.session.store m'.key).raw scope' = (s.store m'.key).raw scope') ∧
        ∀ dependencies features', .loaded m'.key dependencies scope' ∈ o.events →
          b.source (m'.dependingOn dependencies) scope' = .ok features' →
            (o.session.store m'.key).raw scope' =
              if scope' = .main ∧ b.checkClassifiers m'.key features' .empty = .ok () then
                b.withUnit m' features'
              else features' := by
  -- All is shown of the builds with the answers that were given, which have main alike.
  have known : ∀ l, (b.asAnswered l).reactor.get? m.key = some m := fun _ => get?_of_mem_modules hm
  have main : ∀ {s t}, b.Comes s t → (b.asAnswered t).source m .main = .ok features :=
    fun comes => (comes.source_main hb hm).trans loads
  refine ⟨?several, ?single, ?raw⟩
  case several =>
    intro several declared accepted s hs unmarked key scope
    obtain ⟨o, ho⟩ := exists_process hb s key scope
    obtain ⟨t, comes⟩ := exists_comes hs
    obtain ⟨comes', ho'⟩ := comes.process_asAnswered hb ho
    have load : (b.asAnswered (t ++ o.events)).load m .main = .ok features :=
      load_of_source (main (comes.process ho))
    have torn : (b.asAnswered (t ++ o.events)).Torn m features :=
      ⟨known _, attaches, produces, declared, load, accepted, several⟩
    exact ⟨o, ho, process_spares (regular_asAnswered hb _) torn comes'.reached unmarked ho'⟩
  case single =>
    intro location f single nodup
    have unit := get?_withUnit attaches produces single
    constructor
    · intro accepted s hs g hg
      obtain ⟨t, comes⟩ := exists_comes hs
      have filed : (b.asAnswered t).filed m.key .main = b.withUnit m features := by
        rw [filed_eq (known t) (main comes)]
        exact if_pos ⟨rfl, accepted⟩
      rw [← filed] at unit
      have onFile := onFile_of_reached (regular_asAnswered hb t) (comes.asAnswered hb).reached
      exact hasUnit_of_assembles nodup (onFile.made (n := ⟨m.key, .main, location⟩) unit hg)
    · intro targets
      obtain ⟨o, ho⟩ := exists_processEach hb targets (.start b.reactor)
      have comes : b.Comes o.session o.events := Comes.start.processEach ho
      have valid := (processEach_steady (regular_asAnswered hb o.events) (steady_start _ b.reactor)
        (processEach_asAnswered hb .start ho)).1.1
      have prepared : (b.asAnswered o.events).prepared m.key .main = b.withUnit m features := by
        rw [prepared_main (known _), sourced_of_load (known _) (load_of_source (main comes))]
        rfl
      refine ⟨o, ho, ?_⟩
      intro g hg
      rw [← prepared] at unit
      exact hasUnit_of_assembles nodup (valid.entries (n := ⟨m.key, .main, location⟩) unit hg).1
  case raw =>
    intro s hs key scope
    obtain ⟨o, ho⟩ := exists_process hb s key scope
    obtain ⟨t, comes⟩ := exists_comes hs
    obtain ⟨comes', ho'⟩ := comes.process_asAnswered hb ho
    have regular := regular_asAnswered hb (t ++ o.events)
    obtain ⟨-, raw⟩ := process_reads regular (onFile_of_reached regular comes'.reached) ho'
    refine ⟨o, ho, ?_⟩
    intro m' hm' scope'
    constructor
    · intro unread
      exact (raw m'.key scope').trans (if_neg unread)
    · intro dependencies features' asked taken
      have same := answers_alike (b := b) ((comes.process ho).loads_nodup hb) (List.mem_append_right t asked)
      have loads' := (regular.ignores m' dependencies scope').symm.trans (same.trans taken)
      have read : (m'.key, scope') ∈ Build.loads o.events := mem_loads_iff.2 ⟨dependencies, asked⟩
      exact (raw m'.key scope').trans ((if_pos read).trans (filed_eq (get?_of_mem_modules hm') loads'))

/-- A build in which `a` refers to `p`, the only feature of `lib`, and units are attached. -/
def bearers : Build :=
  let app : Identity := (Identity.of "g" "app" "1").withType featureType
  let lib : Identity := (Identity.of "g" "lib" "1").withType featureType
  { ofTable appAndLib [(⟨"g:app"⟩, .main, "a.json", .after app lib), (⟨"g:lib"⟩, .main, "p.json", .of lib)] with
    config.attachPackagedUnit := true }

/-- A build in which `app` has two features, and units are attached. -/
def rivals : Build :=
  let app : Identity := (Identity.of "g" "app" "1").withType featureType
  { ofTable appAndLib
      [(⟨"g:app"⟩, .main, "a.json", .of app), (⟨"g:app"⟩, .main, "b.json", .of (app.withClassifier "web"))] with
    config.attachPackagedUnit := true }

/-- In `bearers`, `p` has its unit although it is assembled on behalf of `a`; in `rivals`, `app` fails
over both of its features. -/
theorem bearers_have_unit : (∃ o g,
    bearers.processEach (.start bearers.reactor) [(⟨"g:app"⟩, .main)] = some o ∧
      ((o.session.store ⟨"g:lib"⟩).assembled .main).get? "p.json" = some g ∧
      bearers.HasUnit (.of "g" "lib" "1") g) ∧
    ∃ o, rivals.process (.start rivals.reactor) ⟨"g:app"⟩ .main = some o ∧
      o.result = .error (.ambiguousPackagedUnit ⟨"g:app"⟩ ["a.json", "b.json"]) := by
  constructor
  · have loads : bearers.source (.of "g" "lib" "1") .main =
        .ok (.ofList [("p.json", .of ((Identity.of "g" "lib" "1").withType featureType))]) := by
      decide +kernel
    obtain ⟨-, single, -⟩ := packaged_unit_attached bearers rfl (by decide) rfl (by decide) loads
    obtain ⟨o, ho, unit⟩ := (single "p.json" _ rfl (by decide)).2 [(⟨"g:app"⟩, .main)]
    have run : (bearers.processEach (.start bearers.reactor) [(⟨"g:app"⟩, .main)]).map (fun o =>
        ((o.session.store ⟨"g:lib"⟩).assembled .main).contains "p.json") = some true := by
      decide +kernel
    rw [ho] at run
    obtain ⟨g, hg⟩ := SortedMap.contains_iff.1 (Option.some.inj run)
    exact ⟨o, g, ho, hg, unit g hg⟩
  · let app : Identity := (Identity.of "g" "app" "1").withType featureType
    have loads : rivals.source (.of "g" "app" "1") .main =
        .ok (.ofList [("a.json", .of app), ("b.json", .of (app.withClassifier "web"))]) := by
      decide +kernel
    obtain ⟨several, -⟩ := packaged_unit_attached rivals rfl (by decide) rfl (by decide) loads
    obtain ⟨o, ho, -, fails⟩ := several (by decide) (by decide) (by decide +kernel) _ .start rfl ⟨"g:app"⟩ .main
    exact ⟨o, ho, (fails (.inr ⟨rfl, rfl⟩)).trans (by decide +kernel)⟩

/-- A build like `bearers`, but two aggregates of `lib` have the same classifier. -/
def stranded : Build :=
  { bearers with config.aggregates := .ofList [(⟨"g:lib"⟩, [.of "all" [AggregateDecl.star],
      .of "all" [AggregateDecl.star]])] }

/-- **A single feature that is refused may be assembled without the unit**: in `stranded`, `lib` fails
over its aggregates once `p` is in the store. A build that goes on all the same, with `app`, goes well
and has `p` assembled without the unit of `lib`. -/
theorem unit_not_always_attached : ∃ o o' f g,
    (stranded.source (.of "g" "lib" "1") .main).map (·.entries) = .ok [("p.json", f)] ∧
      f.bundles.ids.Nodup ∧ stranded.config.attachPackagedUnit = true ∧
      Module.hasPackagedUnit (.of "g" "lib" "1") = true ∧
      stranded.process (.start stranded.reactor) ⟨"g:lib"⟩ .main = some o ∧ o.result.isOk = false ∧
      stranded.process o.session ⟨"g:app"⟩ .main = some o' ∧ o'.result.isOk = true ∧
      ((o'.session.store ⟨"g:lib"⟩).assembled .main).get? "p.json" = some g ∧
      ¬ stranded.HasUnit (.of "g" "lib" "1") g := by
  have run : ((stranded.process (.start stranded.reactor) ⟨"g:lib"⟩ .main).bind fun o =>
      (stranded.process o.session ⟨"g:app"⟩ .main).map fun o' => (o.result.isOk, o'.result.isOk,
        (((o'.session.store ⟨"g:lib"⟩).assembled .main).get? "p.json").map (·.bundles.entries.length))) =
          some (false, true, some 0) := by
    decide +kernel
  obtain ⟨o, ho, run⟩ := Option.bind_eq_some_iff.1 run
  obtain ⟨o', ho', run⟩ := Option.map_eq_some_iff.1 run
  obtain ⟨failed, rest⟩ := Prod.mk.inj run
  obtain ⟨well, rest⟩ := Prod.mk.inj rest
  obtain ⟨g, hg, bare⟩ := Option.map_eq_some_iff.1 rest
  refine ⟨o, o', .of ((Identity.of "g" "lib" "1").withType featureType), g, by decide +kernel, by decide, rfl,
    by decide, ho, failed, ho', well, hg, ?_⟩
  intro unit
  have none : g.bundles.entries = [] := List.length_eq_zero_iff.1 bare
  unfold HasUnit Artifacts.get? at unit
  rw [none] at unit
  cases unit

end Build

end FeatureAssembly
