import FeatureAssembly.Proofs.Confluence
import FeatureAssembly.Proofs.DeclaredDependencies

/-!
# What is asked for outside

A build asks its loader for features that no module owns.

**The law** (`Build.loader_used_exactly`): the loader is never asked for a feature of a module of the
reactor; what it has is handed on as it is, before anything else is done; and a build that goes well
has asked once for each raw feature of a processed scope that is not final and has its prototype
outside (`Build.outsidePrototypes`).

A merge that begins owes what its feature wants from outside, and pays when it is provided with that
(`Build.Pays`). So what is between two stages is even, and all requests are accounted for by the merges
(`Build.Owes`). These are once for each site (`Build.Once`), and what is assembled was merged
(`Build.Traced`).

What it does not establish: how often a build that fails has asked.
-/

set_option autoImplicit false

namespace FeatureAssembly

open Relation Step

namespace Build

variable {b : Build} {calls : Calls} {p q q' : Progress} {key : ModuleKey} {scope : Scope} {n : Site}
  {f : Feature} {id : Identity} {t : List Event} {e : Event}

/-! ## What is outside -/

/-- An identity, if no module owns it. -/
def abroad? (b : Build) (id : Identity) : Option Identity :=
  if b.reactor.contains id.moduleKey then none else some id

/-- What a feature inherits from outside: nothing if it is final. -/
def outside? (b : Build) (f : Feature) : Option Identity :=
  if f.assembled then none else f.prototype.bind fun prototype => b.abroad? prototype.id

/-- What the raw feature at a site inherits from outside. -/
def wanted? (b : Build) (n : Site) : Option Identity := (b.featureAt n).bind b.outside?

/-- **The prototypes outside**, one for each raw feature of a processed scope that has one there. -/
def outsidePrototypes (b : Build) (s : Session) : List Identity :=
  b.reactor.modules.flatMap fun m => Scope.all.flatMap fun scope =>
    if (s.store m.key).isProcessed scope then ((s.store m.key).raw scope).values.filterMap b.outside? else []

theorem RawAt.wanted?_eq (h : b.RawAt n f) : b.wanted? n = b.outside? f := by
  rcases h with found | found
  · exact congrArg (Option.bind · b.outside?) found
  · obtain ⟨f₀, h₀, -, prototype, mark⟩ := get?_prepared found
    have found : b.featureAt n = some f₀ := h₀
    rw [wanted?, found, Option.bind_some, outside?, outside?, prototype, mark]

theorem outside?_of_marked (h : f.assembled = true) : b.outside? f = none := by
  rw [outside?, if_pos h]

theorem outside?_of_original (h : f.prototype = none) : b.outside? f = none := by
  rw [outside?, h]
  exact ite_self none

theorem outside?_of_derived {prototype : Prototype} (unmarked : f.assembled = false)
    (h : f.prototype = some prototype) : b.outside? f = b.abroad? prototype.id := by
  rw [outside?, unmarked, h]
  rfl

/-! ## What the loader was asked for -/

/-- The identities that the loader was asked for. -/
def fetches (l : List Event) : List Identity :=
  l.filterMap fun
    | .fetched id => some id
    | _ => none

/-- **The loader is used as it should be**, of things done last thing first: it is asked only for what
no module owns, and a feature that it has is the answer to what was asked for. -/
def Relayed (b : Build) (t : List Event) : Prop := ∀ later id earlier, t = later ++ .fetched id :: earlier →
  b.reactor.contains id.moduleKey = false ∧ ∀ f, b.loader id = .ok f →
    ∃ key scope rest, later = rest ++ [.answered key scope id (.ok (some f))]

/-- An event that is no request to the loader, and no beginning of a merge. -/
def Calm : Event → Prop
  | .fetched _ | .merging .. => False
  | _ => True

theorem Relayed.cons (h : b.Relayed t)
    (he : ∀ id, e = .fetched id → b.reactor.contains id.moduleKey = false ∧ ∃ err, b.loader id = .error err) :
    b.Relayed (e :: t) := by
  intro later id earlier split
  cases later with
  | nil =>
    cases split
    obtain ⟨foreign, err, fails⟩ := he id rfl
    exact ⟨foreign, fun f loads => (by cases loads.symm.trans fails)⟩
  | cons last later =>
    obtain ⟨rfl, behind⟩ := List.cons.inj split
    obtain ⟨foreign, answer⟩ := h later id earlier behind
    refine ⟨foreign, fun f loads => ?_⟩
    obtain ⟨key, scope, rest, rfl⟩ := answer f loads
    exact ⟨key, scope, e :: rest, rfl⟩

theorem Relayed.calm (h : b.Relayed t) (he : Calm e) : b.Relayed (e :: t) :=
  h.cons fun id fetched => by
    subst fetched
    cases he

theorem Relayed.merging (h : b.Relayed t) (n : Site) (base : Identity) :
    b.Relayed (.merging n.module n.scope n.location base :: t) := h.cons nofun

/-- What the loader has is handed on. -/
theorem Relayed.answer (h : b.Relayed t) (foreign : b.reactor.contains id.moduleKey = false)
    (loads : b.loader id = .ok f) :
    b.Relayed (.answered key scope id (.ok (some f)) :: .fetched id :: t) := by
  intro later id' earlier split
  cases later with
  | nil => cases split
  | cons last later =>
    obtain ⟨rfl, behind⟩ := List.cons.inj split
    cases later with
    | nil =>
      cases behind
      refine ⟨foreign, fun f' loads' => ?_⟩
      cases loads.symm.trans loads'
      exact ⟨key, scope, [], rfl⟩
    | cons last' later =>
      obtain ⟨rfl, before⟩ := List.cons.inj behind
      obtain ⟨foreign', answer⟩ := h later id' earlier before
      refine ⟨foreign', fun f' loads' => ?_⟩
      obtain ⟨key', scope', rest, rfl⟩ := answer f' loads'
      exact ⟨key', scope', _ :: .fetched id :: rest, rfl⟩

/-! ## What merges owe -/

/-- **The loader was asked for all that merges want from outside**, but for what is owed. -/
def Owes (b : Build) (owed : List Identity) (t : List Event) : Prop :=
  (fetches t ++ owed).Perm ((merges t).filterMap b.wanted?)

/-- **From one progress to another a debt is paid**, and nothing more is owed than before. -/
def Pays (b : Build) (debt : Option Identity) (p q : Progress) : Prop :=
  ∀ owed, b.Owes (debt.toList ++ owed) p.trace → b.Owes owed q.trace

theorem Pays.of_trace_eq {debt : Option Identity} (h : b.Pays debt p q) (ht : q'.trace = q.trace) :
    b.Pays debt p q' := fun owed owes => ht ▸ h owed owes

theorem Pays.trans {debt : Option Identity} (h : b.Pays none p q) (h' : b.Pays debt q q') :
    b.Pays debt p q' := fun owed owes => h' owed (h (debt.toList ++ owed) owes)

theorem Pays.refl (b : Build) (p : Progress) : b.Pays none p p := fun _ => id

theorem Pays.calm {debt : Option Identity} (h : b.Pays debt p q) (he : Calm e) :
    b.Pays debt p (q.note e) := by
  intro owed owes
  have before := h owed owes
  cases e with
  | fetched | merging => cases he
  | opened | loaded | merged | remarked | answered | missing | aggregated => exact before

/-- A merge that begins owes what is wanted at its site. -/
theorem Owes.merging {owed : List Identity} (h : b.Owes owed t) (n : Site) (base : Identity) :
    b.Owes ((b.wanted? n).toList ++ owed) (.merging n.module n.scope n.location base :: t) := by
  have grown : (merges (.merging n.module n.scope n.location base :: t)).filterMap b.wanted? =
      (b.wanted? n).toList ++ (merges t).filterMap b.wanted? := by
    show (n :: merges t).filterMap b.wanted? = _
    rw [List.filterMap_cons]
    cases b.wanted? n <;> rfl
  unfold Owes
  rw [grown]
  exact List.perm_append_comm_assoc _ _ _ |>.trans (List.Perm.append_left _ h)

/-- A request pays for itself. -/
theorem Owes.fetched {owed : List Identity} (h : b.Owes (id :: owed) t) : b.Owes owed (.fetched id :: t) :=
  List.perm_middle.symm.trans h

/-- **A piece that is even**: it uses the loader as it should, and if it goes well it pays for its
merges. -/
def Even (b : Build) {α : Type} (p : Progress) (r : Except AssemblyError α) (q : Progress) : Prop :=
  b.Relayed q.trace ∧ ∀ a, r = .ok a → b.Pays none p q

theorem Even.refl {α : Type} {r : Except AssemblyError α} (h : b.Relayed p.trace) : b.Even p r p :=
  ⟨h, fun _ _ => .refl b p⟩

theorem Even.error {α : Type} {err : AssemblyError} (h : b.Relayed q.trace) :
    b.Even p (.error err : Except AssemblyError α) q := ⟨h, fun _ done => by cases done⟩

theorem Even.of_trace_eq {α : Type} {r : Except AssemblyError α} (h : b.Even p r q) (ht : q'.trace = q.trace) :
    b.Even p r q' := ⟨ht ▸ h.1, fun a ha => (h.2 a ha).of_trace_eq ht⟩

theorem Even.note {α : Type} {r : Except AssemblyError α} (h : b.Even p r q) (he : Calm e) :
    b.Even p r (q.note e) := ⟨h.1.calm he, fun a ha => (h.2 a ha).calm he⟩

/-- One piece after another. -/
theorem Even.after {α β : Type} {a : α} {r : Except AssemblyError β}
    (h : b.Even p (.ok a : Except AssemblyError α) q) (h' : b.Even q r q') : b.Even p r q' :=
  ⟨h'.1, fun c hc => (h.2 a rfl).trans (h'.2 c hc)⟩

end Build

/-- **Calls that are even.** A feature that is provided is paid for if it is from outside. -/
structure Calls.Balance (calls : Calls) (b : Build) : Prop where
  process : ∀ {key scope p}, b.Honest p → b.Relayed p.trace →
    Ends False (calls.process key scope) p (b.Even p)
  provide : ∀ {key scope id p}, b.reactor.contains key = true → b.Honest p → b.Relayed p.trace →
    Ends False (calls.provide key scope id) p fun r q => b.Relayed q.trace ∧
      ∀ f, r = .ok (some f) → b.Pays (b.abroad? id) p q

namespace Build

variable {b : Build} {calls : Calls} {p q q' : Progress} {key : ModuleKey} {scope : Scope} {n : Site}
  {f : Feature} {id : Identity} {t : List Event} {e : Event}

/-! ## Assembling -/

theorem merge_balances (hb : b.Regular) (hc : calls.Balance b)
    (module : b.reactor.contains n.module = true) (hp : b.Honest p) (ht : b.Relayed p.trace)
    (hf : b.RawAt n f) :
    Ends False (b.merge calls n.module n.scope n.location f) p (b.Even p) := by
  have begun : b.Relayed (p.note (.merging n.module n.scope n.location f.id)).trace := ht.merging n f.id
  have owes : ∀ {owed}, b.Owes owed p.trace →
      b.Owes ((b.outside? f).toList ++ owed) (p.note (.merging n.module n.scope n.location f.id)).trace :=
    fun h => hf.wanted?_eq ▸ h.merging n f.id
  have nothing : b.outside? f = none →
      b.Pays none p (p.note (.merging n.module n.scope n.location f.id)) := fun none owed h => by
    have after := owes h
    rwa [none] at after
  refine ends_merge hb.merger n.module n.scope n.location f (fun marked => ?final) (fun _ original => ?alone)
    fun prototype unmarked derived => ?inheriting
  case final =>
    have pays := nothing (outside?_of_marked marked)
    exact Even.note ⟨begun, fun _ _ => pays⟩ trivial
  case alone =>
    have pays := nothing (outside?_of_original original)
    exact Even.note ⟨begun, fun _ _ => pays⟩ trivial
  case inheriting =>
    have honest : b.Honest (p.note (.merging n.module n.scope n.location f.id)) := hp.note trivial
    refine (hc.provide module honest begun).mono fun r q h => ?_
    obtain ⟨relayed, pays⟩ := h
    refine ⟨relayed.calm trivial, fun g hg => ?_⟩
    cases r with
    | error err => cases hg
    | ok found =>
      cases found with
      | none => cases hg
      | some parent =>
        intro owed h
        have paid := pays parent rfl owed (outside?_of_derived unmarked derived ▸ owes h)
        exact paid

theorem assembleAt_balances (hb : b.Regular) (hg : calls.GoOn b True) (hc : calls.Balance b)
    (module : b.reactor.contains key = true) {e : String × Feature} (hp : b.Honest p)
    (ht : b.Relayed p.trace) (he : b.RawAt ⟨key, scope, e.1⟩ e.2) :
    Ends False (b.assembleAt calls key scope e) p fun r q => b.Honest q ∧ b.Even p r q := by
  refine ((assembleAt_goesOn hb hg module (fun _ => hp) fun _ => he).and ?_).mono fun r q h =>
    ⟨h.1.1.honest trivial, h.2⟩
  refine ends_assembleAt key scope e (fun _ => .refl ht) (fun _ _ => ?held) fun _ _ => ?free
  case held =>
    refine (merge_balances (n := ⟨key, scope, e.1⟩) hb hc module hp ht he).mono fun r q h => ?_
    cases r with
    | error err => exact .error h.1
    | ok g => exact ⟨h.1, fun _ _ => h.2 g rfl⟩
  case free =>
    have entered : b.Honest (p.enter e.2.id) := hp.alike (fun _ => rfl) rfl
    refine (merge_balances (n := ⟨key, scope, e.1⟩) hb hc module entered ht he).mono fun r q h => ?_
    cases r with
    | error err => exact .error h.1
    | ok g => exact ⟨h.1, fun _ _ => h.2 g rfl⟩

/-- **The raw features of a scope** are assembled, one after the other. -/
theorem assembleAll_balances (hb : b.Regular) (hg : calls.GoOn b True) (hc : calls.Balance b)
    (module : b.reactor.contains key = true) (hp : b.Honest p) (ht : b.Relayed p.trace) :
    Ends False (((p.session.store key).raw scope).entries.forM (b.assembleAt calls key scope)) p (b.Even p) := by
  refine ends_forM (fun _ q => b.Honest q ∧ b.Even p (.ok ()) q) ⟨hp, .refl ht⟩ (fun _ h => h.2)
    fun e rest q he h => ?_
  have raw : b.RawAt ⟨key, scope, e.1⟩ e.2 := hp.raw (n := ⟨key, scope, e.1⟩) (SortedMap.get?_of_mem he)
  refine (assembleAt_balances hb hg hc module h.1 h.2.1 raw).mono fun r q' h' => ?_
  cases r with
  | error err => exact .error h'.2.1
  | ok u => exact ⟨h'.1, h.2.after h'.2⟩

theorem buildAggregates_balance (m : Module) (ht : b.Relayed p.trace) :
    Ends False (b.buildAggregates m scope) p (b.Even p) := by
  refine ends_forM (fun _ q => b.Even p (.ok ()) q) (.refl ht) (fun _ h => h) fun d rest q _ h => ?_
  exact ends_buildAggregate m d (fun _ => h) (.error h.1) fun _ _ =>
    h.note (e := .aggregated _ _) trivial

/-! ## Processing -/

theorem processMarked_balances (hb : b.Regular) (hg : calls.GoOn b True)
    (hc : calls.Balance b) {m : Module} {dependencies : List Dependency}
    (hm : b.reactor.get? m.key = some m) (hp : b.Honest p) (ht : b.Relayed p.trace) :
    Ends False (b.processMarked calls (m.dependingOn dependencies) scope) p (b.Even p) := by
  have module : b.reactor.contains m.key = true := Option.isSome_iff_exists.2 ⟨m, hm⟩
  have asked : b.Onward True p (p.note (.loaded m.key dependencies scope)) :=
    (Onward.refl fun _ => hp).note trivial
  have even : b.Even p (.ok ()) (p.note (.loaded m.key dependencies scope)) := (Even.refl ht).note trivial
  let checked : Progress → Prop := fun q =>
    (b.Onward True p q ∧ (q.session.state m.key scope).raw = b.sourced m.key scope) ∧ b.Even p (.ok ()) q
  let attached : Progress → Prop := fun q => b.Honest q ∧ b.Even p (.ok ()) q
  refine ends_processMarked m dependencies scope checked attached (b.Even p (.ok ()))
    (b.Even p (.ok ())) (fun _ _ => .error ht) (fun _ _ => .error even.1) ?check ?attach ?pass ?assemble
    ?aggregate fun q h => h
  case check =>
    intro features _ loads
    rw [load_dependingOn hb.ignores] at loads
    refine ((checkStore_goesOn hm loads asked).and (checkStore_trace m.key)).mono fun r q h => ?_
    obtain ⟨goes, trace⟩ := h
    have here : b.Even p (.ok ()) q := even.of_trace_eq trace
    cases r with
    | error err => exact .error here.1
    | ok u => exact ⟨goes, here⟩
  case attach =>
    rintro q rfl ⟨⟨onward, raw⟩, even⟩
    refine ((attachPackagedUnit_goesOn hm onward raw).and (attachPackagedUnit_trace m)).mono fun r q' h => ?_
    obtain ⟨goes, trace⟩ := h
    have here : b.Even p (.ok ()) q' := even.of_trace_eq trace
    cases r with
    | error err => exact .error here.1
    | ok u => exact ⟨goes.1.honest trivial, here⟩
  case pass =>
    rintro q - ⟨⟨onward, -⟩, even⟩
    exact ⟨onward.honest trivial, even⟩
  case assemble =>
    rintro q ⟨honest, even⟩
    refine (assembleAll_balances hb hg hc module honest even.1).mono fun r q' h => ?_
    cases r with
    | error err => exact .error h.1
    | ok u => exact even.after h
  case aggregate =>
    intro q even
    refine (buildAggregates_balance m even.1).mono fun r q' h => ?_
    cases r with
    | error err => exact .error h.1
    | ok u => exact even.after h

theorem processWith_balances (hb : b.Regular) (hg : calls.GoOn b True)
    (hc : calls.Balance b) (key : ModuleKey) (scope : Scope) (hp : b.Honest p) (ht : b.Relayed p.trace) :
    Ends False (b.processWith calls key scope) p (b.Even p) := by
  have open_ : b.Onward True p (opened key scope p) := onward_opened key scope fun _ => hp
  have even : b.Even p (.ok ()) (opened key scope p) := (Even.refl ht).note (e := .opened key scope) trivial
  refine ends_processWith key scope (fun _ => .refl ht) (fun m _ _ => .refl ht) (fun m hm _ _ => ?main)
    fun m hm _ _ => ?test
  case main =>
    obtain ⟨-, rfl⟩ := mem_modules_of_get? hm
    exact (processMarked_balances hb hg hc hm (open_.honest trivial) even.1).mono fun r q h => even.after h
  case test =>
    obtain ⟨-, rfl⟩ := mem_modules_of_get? hm
    refine ((hg.process open_.honest).and (hc.process (open_.honest trivial) even.1)).mono fun r q h => ?_
    obtain ⟨onward, main⟩ := h
    cases r with
    | error err => exact .error main.1
    | ok u =>
      refine (processMarked_balances hb hg hc hm (onward.honest trivial) main.1).mono fun r q' h' => ?_
      exact (even.after main).after h'

/-! ## Looking -/

theorem processReleased_balances (hg : calls.GoOn b True) (hc : calls.Balance b) (id : Identity)
    (key : ModuleKey) (scope : Scope) (hp : b.Honest p) (ht : b.Relayed p.trace) :
    Ends False (processReleased calls id key scope) p fun r q => b.Honest q ∧ b.Even p r q := by
  have left : b.Honest (p.leave id) := hp.alike (fun _ => rfl) rfl
  refine ((processReleased_goesOn hg id key scope fun _ => hp).and
    (ends_processReleased id key scope ?_)).mono fun r q h => ⟨h.1.honest trivial, h.2⟩
  exact (hc.process left ht).mono fun r q h => h

/-- **Some scopes of the owner are looked in.** -/
theorem lookIn_balances (hb : b.Regular) (hg : calls.GoOn b True) (hc : calls.Balance b)
    {wanted : Scope} (module : b.reactor.contains id.moduleKey = true) {scopes : List Scope}
    (hp : b.Honest p) (ht : b.Relayed p.trace) :
    Ends False (b.lookIn calls id.moduleKey wanted id scopes) p (b.Even p) := by
  induction scopes generalizing p with
  | nil => exact ends_lookIn_nil id.moduleKey wanted id (.refl ht)
  | cons scope rest ih =>
    refine ends_lookIn_cons id.moduleKey wanted id scope rest (fun q => b.Honest q ∧ b.Even p (.ok ()) q)
      (fun _ => ?open_) (fun _ => ⟨hp, .refl ht⟩) (fun q location f h _ => ⟨h.2.1, fun _ _ => h.2.2 () rfl⟩)
      (fun q h _ _ => ?absent) fun q location f h _ found => ?raw
    case open_ =>
      refine (processReleased_balances hg hc id id.moduleKey scope hp ht).mono fun r q h => ?_
      cases r with
      | error err => exact .error h.2.1
      | ok u => exact h
    case absent => exact (ih h.1 h.2.1).mono fun r q' h' => h.2.after h'
    case raw =>
      let n : Site := ⟨id.moduleKey, scope, location⟩
      have there := SortedMap.get?_of_mem (List.mem_of_find?_eq_some found)
      refine (merge_balances (n := n) hb hc module h.1 h.2.1 (h.1.raw (n := n) there)).mono fun r q' h' => ?_
      have behind := h.2.after h'
      cases r with
      | error err => exact .error behind.1
      | ok g => exact ⟨behind.1, fun _ _ => behind.2 g rfl⟩

/-- **A look that is even**, or that has just asked the loader with success. -/
def Looked (b : Build) (id : Identity) (p : Progress) (r : Except AssemblyError (Option Feature))
    (q : Progress) : Prop :=
  (b.Relayed q.trace ∧ ∀ f, r = .ok (some f) → b.Pays (b.abroad? id) p q) ∨
    ∃ f, r = .ok (some f) ∧ b.reactor.contains id.moduleKey = false ∧ b.loader id = .ok f ∧
      q.trace = .fetched id :: p.trace

theorem find_balances (hb : b.Regular) (hg : calls.GoOn b True) (hc : calls.Balance b)
    (id : Identity) (module : b.reactor.contains key = true) (hp : b.Honest p) (ht : b.Relayed p.trace) :
    Ends False (b.find calls key scope id) p (b.Looked id p) := by
  have owned : b.reactor.contains id.moduleKey = true → ∀ {r q}, b.Even p r q → b.Looked id p r q :=
    fun known r q h => by
      refine .inl ⟨h.1, fun f hf => ?_⟩
      rw [abroad?, if_pos known]
      exact h.2 (some f) hf
  have asked : b.reactor.contains id.moduleKey = false → ∀ {err}, b.loader id = .error err →
      b.Relayed (p.note (.fetched id)).trace := fun foreign err fails =>
    ht.cons fun id' same => by
      cases same
      exact ⟨foreign, err, fails⟩
  refine ends_find key scope id (fun own => ?own) (fun _ known => ?other)
    (fun f _ foreign loads => .inr ⟨f, rfl, foreign, loads, rfl⟩)
    (fun err _ foreign fails _ => .inl ⟨asked foreign fails, fun _ found => by cases found⟩)
    fun err _ foreign fails _ => .inl ⟨asked foreign fails, fun _ found => by cases found⟩
  case own =>
    subst own
    exact (lookIn_balances hb hg hc module hp ht).mono fun r q h => owned module h
  case other =>
    refine (processReleased_balances hg hc id id.moduleKey scope hp ht).mono fun r q h => ?_
    cases r with
    | error err => exact .inl ⟨h.2.1, fun _ found => by cases found⟩
    | ok u =>
      exact (lookIn_balances hb hg hc known h.1 h.2.1).mono fun r q' h' => owned known (h.2.after h')

theorem provideWith_balances (hb : b.Regular) (hg : calls.GoOn b True)
    (hc : calls.Balance b) (id : Identity) (module : b.reactor.contains key = true) (hp : b.Honest p)
    (ht : b.Relayed p.trace) :
    Ends False (b.provideWith calls key scope id) p fun r q => b.Relayed q.trace ∧
      ∀ f, r = .ok (some f) → b.Pays (b.abroad? id) p q := by
  have entered : b.Honest (p.enter id) := hp.alike (fun _ => rfl) rfl
  refine ends_provideWith key scope id (fun _ => ⟨ht.calm trivial, fun _ found => by cases found⟩) fun _ => ?_
  refine (find_balances hb hg hc id module entered ht).mono fun r q h => ?_
  rcases h with ⟨relayed, pays⟩ | ⟨f, rfl, foreign, loads, trace⟩
  · cases r with
    | error err => exact ⟨relayed.calm trivial, fun _ found => by cases found⟩
    | ok found =>
      cases found with
      | none =>
        have told := relayed.calm (e := .missing key scope id) trivial
        exact ⟨told.calm trivial, fun _ found => by cases found⟩
      | some f => exact ⟨relayed.calm trivial, fun _ _ => (pays f rfl).calm (e := .answered _ _ _ _) trivial⟩
  · have whole : (((q.leave id).onSession (withReference key id)).note
        (.answered key scope id (.ok (some f)))).trace =
          .answered key scope id (.ok (some f)) :: .fetched id :: p.trace := congrArg (_ :: ·) trace
    have debt : b.abroad? id = some id := by
      rw [abroad?, foreign]
      rfl
    refine ⟨whole ▸ ht.answer foreign loads, fun _ _ owed owes => ?_⟩
    rw [debt] at owes
    have paid : b.Owes owed (.fetched id :: p.trace) := owes.fetched
    rw [whole]
    exact paid

/-- **Calls are even**, at any depth. -/
theorem calls_balance (hb : b.Regular) : ∀ depth, (b.calls depth).Balance b
  | 0 => ⟨fun _ _ => id, fun _ _ _ => id⟩
  | depth + 1 =>
    have hg := calls_goOn hb True depth
    have hc := calls_balance hb depth
    ⟨processWith_balances hb hg hc _ _, provideWith_balances hb hg hc _⟩

/-! ## Sites and merges -/

variable {s : Session} {c c' : Stage}

/-- **What is assembled was merged**: the sites at work, and those with a raw feature that have an
assembled one. -/
structure Traced (b : Build) (c : Stage) : Prop where
  going : ∀ n ∈ c.agenda.sites, n ∈ merges c.trace
  made : ∀ n f g, (b.prepared n.module n.scope).get? n.location = some f →
    (c.session.state n.module n.scope).assembled.get? n.location = some g → n ∈ merges c.trace

/-- A move that assembles nothing and begins no merge. -/
theorem Traced.keep (h : b.Traced c) (trace : ∀ n ∈ merges c.trace, n ∈ merges c'.trace)
    (sites : c'.agenda.sites = c.agenda.sites)
    (assembled : ∀ key scope, (c'.session.state key scope).assembled = (c.session.state key scope).assembled) :
    b.Traced c' := by
  refine ⟨fun n hn => trace n (h.going n (sites ▸ hn)), fun n f g hf hg => trace n (h.made n f g hf ?_)⟩
  rwa [assembled] at hg

theorem Move.traced (hm : b.Move c c') (h : b.Traced c) : b.Traced c' := by
  cases hm with
  | mark => exact h.keep (fun _ => id) rfl (Session.view_modifyStore _ ScopeState.assembled rfl)
  | read _ _ reads => exact h.keep (fun _ => id) rfl reads.assembled
  | @begin s t a n f =>
    have grows : ∀ n' ∈ merges t, n' ∈ merges (.merging n.module n.scope n.location f.id :: t) :=
      fun _ hn => List.mem_cons_of_mem _ hn
    refine ⟨fun n' hn => ?_, fun n' f' g hf hg => grows n' (h.made n' f' g hf hg)⟩
    rcases List.mem_cons.1 hn with rfl | hn
    · exact List.mem_cons_self
    · exact grows n' (h.going n' hn)
  | @record s t a n f g =>
    refine ⟨fun n' hn => h.going n' (List.mem_cons_of_mem _ hn), fun n' f' g' hf hg => ?_⟩
    rcases s.assembled_recordAssembled n.module n'.module n.scope n'.scope hg with old | ⟨hk, hs, hl, -⟩
    · exact h.made n' f' g' hf old
    · have here : n' = n := by
        cases n
        cases n'
        cases hk
        cases hs
        cases hl
        rfl
      exact here ▸ h.going n List.mem_cons_self
  | @aggregate s t a m d ready known declared raw fresh =>
    refine ⟨h.going, fun n f g hf hg => ?_⟩
    rcases s.assembled_recordAssembled m.key n.module d.scope n.scope hg with old | ⟨hk, hs, hl, -⟩
    · exact h.made n f g hf old
    · -- Raw features come first, so there is none in the place of an aggregate.
      rw [hk, hs, hl] at hf
      obtain ⟨g', made⟩ := raw _ f hf
      cases made.symm.trans fresh
  | complete =>
    exact h.keep (fun _ => id) rfl fun key scope =>
      congrArg ScopeState.assembled (Session.state_eq_of_store_eq (b.store_augmented _ _ _) key scope)
  | supply =>
    exact h.keep (fun _ => id) rfl fun key scope =>
      congrArg ScopeState.assembled (Session.state_eq_of_store_eq (store_withReference _ _ _) key scope)
  | fetch | refuse | miss => exact h.keep (fun _ => id) rfl fun _ _ => rfl

theorem traced_start (b : Build) : b.Traced (atRest (.start b.reactor) []) := by
  refine ⟨nofun, fun n f g _ hg => ?_⟩
  have hg : ((Session.start b.reactor).state n.module n.scope).assembled.get? n.location = some g := hg
  rw [state_start] at hg
  cases hg

/-- The sites of the raw features in a scope that is processed. -/
def sitesIn (s : Session) (key : ModuleKey) (scope : Scope) : List Site :=
  if (s.store key).isProcessed scope then ((s.store key).raw scope).entries.map fun e => ⟨key, scope, e.1⟩
  else []

/-- The sites of the raw features in all processed scopes. -/
def rawSites (b : Build) (s : Session) : List Site :=
  b.reactor.modules.flatMap fun m => Scope.all.flatMap (sitesIn s m.key)

theorem mem_sitesIn : n ∈ sitesIn s key scope ↔ n.module = key ∧ n.scope = scope ∧
    (s.state key scope).processed = true ∧ ∃ f, (s.state key scope).raw.get? n.location = some f := by
  unfold sitesIn
  constructor
  · intro hn
    split at hn
    · next marked =>
      obtain ⟨e, he, rfl⟩ := List.mem_map.1 hn
      exact ⟨rfl, rfl, marked, e.2, SortedMap.get?_of_mem he⟩
    · cases hn
  · obtain ⟨module, scope', location⟩ := n
    rintro ⟨module_eq, scope_eq, marked, f, hf⟩
    subst module_eq scope_eq
    have marked : (s.store module).isProcessed scope' = true := marked
    rw [if_pos marked]
    exact List.mem_map.2 ⟨(location, f), SortedMap.get?_eq_some_iff.1 hf, rfl⟩

theorem mem_rawSites : n ∈ b.rawSites s ↔ n.module ∈ b.reactor.keys ∧
    (s.state n.module n.scope).processed = true ∧
      ∃ f, (s.state n.module n.scope).raw.get? n.location = some f := by
  simp only [rawSites, List.mem_flatMap, mem_sitesIn]
  constructor
  · rintro ⟨m, hm, scope, -, here, rfl, marked, raw⟩
    rw [here]
    exact ⟨List.mem_map_of_mem hm, marked, raw⟩
  · rintro ⟨known, marked, raw⟩
    obtain ⟨m, hm, here⟩ := List.mem_map.1 known
    exact ⟨m, hm, n.scope, n.scope.mem_all, here.symm, rfl, here ▸ marked, here ▸ raw⟩

theorem nodup_sitesIn (s : Session) (key : ModuleKey) (scope : Scope) : (sitesIn s key scope).Nodup := by
  unfold sitesIn
  split
  · refine List.pairwise_map.2 (((s.store key).raw scope).ascend.imp fun before same => ?_)
    rw [Site.mk.injEq] at same
    rw [same.2.2, Std.ReflOrd.compare_self] at before
    cases before
  · exact List.nodup_nil

theorem nodup_rawSites (b : Build) (s : Session) : (b.rawSites s).Nodup := by
  refine List.nodup_flatMap.2 ⟨fun m _ => List.nodup_flatMap.2 ⟨fun scope _ => nodup_sitesIn s m.key scope, ?_⟩, ?_⟩
  · have apart : Scope.all.Nodup := by decide
    refine apart.imp fun apart n hn hn' => ?_
    exact apart ((mem_sitesIn.1 hn).2.1.symm.trans (mem_sitesIn.1 hn').2.1)
  · refine (List.pairwise_map.1 b.reactor.distinct).imp fun apart n hn hn' => ?_
    obtain ⟨scope, -, hn⟩ := List.mem_flatMap.1 hn
    obtain ⟨scope', -, hn'⟩ := List.mem_flatMap.1 hn'
    exact apart ((mem_sitesIn.1 hn).1.symm.trans (mem_sitesIn.1 hn').1)

/-- Where what is raw is prepared, sites want what their features do. -/
theorem filterMap_sitesIn (raw : (s.state key scope).processed = true →
      (s.state key scope).raw = b.prepared key scope) :
    (sitesIn s key scope).filterMap b.wanted? =
      if (s.store key).isProcessed scope then ((s.store key).raw scope).values.filterMap b.outside? else [] := by
  unfold sitesIn
  split
  · next marked =>
    rw [SortedMap.values, List.filterMap_map, List.filterMap_map]
    refine List.filterMap_congr fun e he => ?_
    have there : (b.prepared key scope).get? e.1 = some e.2 := raw marked ▸ SortedMap.get?_of_mem he
    exact RawAt.wanted?_eq (n := ⟨key, scope, e.1⟩) (.inr there)
  · rfl

theorem Steady.filterMap_rawSites (h : b.Steady s) :
    (b.rawSites s).filterMap b.wanted? = b.outsidePrototypes s := by
  simp only [rawSites, outsidePrototypes, List.filterMap_flatMap,
    filterMap_sitesIn fun marked => (h.opened marked).raw]

/-- Lists of the same elements, as far as something is picked of them, come to the same picks. -/
theorem perm_filterMap {α β : Type} {pick : α → Option β} {l l' : List α} (h : l.Nodup) (h' : l'.Nodup)
    (same : ∀ a, (pick a).isSome → (a ∈ l ↔ a ∈ l')) : (l.filterMap pick).Perm (l'.filterMap pick) := by
  have only : ∀ l : List α, (l.filter fun a => (pick a).isSome).filterMap pick = l.filterMap pick := by
    intro l
    rw [List.filterMap_filter]
    refine List.filterMap_congr fun a _ => ?_
    cases pick a <;> rfl
  rw [← only l, ← only l']
  refine List.Perm.filterMap pick ((List.perm_ext_iff_of_nodup (h.filter _) (h'.filter _)).2 fun a => ?_)
  simp only [List.mem_filter]
  constructor
  · rintro ⟨hm, picked⟩
    exact ⟨(same a picked).1 hm, picked⟩
  · rintro ⟨hm, picked⟩
    exact ⟨(same a picked).2 hm, picked⟩

/-! ## Whole builds -/

theorem Relayed.append {t' : List Event} (h : b.Relayed t) (h' : b.Relayed t') : b.Relayed (t ++ t') := by
  intro later id earlier whole
  rcases split_append whole with ⟨rest, here⟩ | ⟨rest, rfl, there⟩
  · exact h later id rest here
  · obtain ⟨foreign, answer⟩ := h' rest id earlier there
    refine ⟨foreign, fun f loads => ?_⟩
    obtain ⟨key, scope, last, rfl⟩ := answer f loads
    exact ⟨key, scope, t ++ last, (List.append_assoc ..).symm⟩

theorem Owes.append {t' : List Event} (h : b.Owes [] t) (h' : b.Owes [] t') : b.Owes [] (t ++ t') := by
  unfold Owes at *
  rw [List.append_nil] at *
  rw [fetches, merges, List.filterMap_append, List.filterMap_append, List.filterMap_append]
  exact h.append h'

theorem process_balances (hb : b.Regular) (hs : b.Honest ⟨s, .empty, []⟩) {o : Outcome}
    (ho : b.process s key scope = some o) :
    b.Relayed o.events.reverse ∧ (o.result = .ok () → b.Owes [] o.events.reverse) := by
  obtain ⟨depth, r, q, hx, rfl⟩ := exists_depth_of_process ho
  have nothing : b.Relayed [] := fun later id earlier whole => by cases later <;> cases whole
  obtain ⟨relayed, pays⟩ := ((calls_balance hb depth).process hs nothing).of_eq_some hx
  rw [show (⟨r, q.session, q.trace.reverse⟩ : Outcome).events.reverse = q.trace from List.reverse_reverse _]
  refine ⟨relayed, fun hok => pays () hok [] ?_⟩
  exact List.Perm.refl []

/-- **Scopes that are processed in turn** use the loader as they should, and ask for all that their
merges want, if all goes well. -/
theorem processEach_balances (hb : b.Regular) {targets : List (ModuleKey × Scope)} :
    ∀ {s : Session} {o : Outcome}, b.Honest ⟨s, .empty, []⟩ → b.processEach s targets = some o →
      b.Relayed o.events.reverse ∧ (o.result = .ok () → b.Owes [] o.events.reverse) := by
  induction targets with
  | nil =>
    intro s o _ ho
    cases ho
    exact ⟨fun later id earlier whole => (by cases later <;> cases whole), fun _ => List.Perm.refl []⟩
  | cons target rest ih =>
    intro s o hs ho
    obtain ⟨first, hfirst, hrest⟩ := Option.bind_eq_some_iff.1 ho
    have balances := process_balances hb hs hfirst
    unfold andThen at hrest
    cases hr : first.result with
    | error err =>
      rw [hr] at hrest
      cases hrest
      exact balances
    | ok u =>
      rw [hr] at hrest
      obtain ⟨later, hlater, rfl⟩ := Option.map_eq_some_iff.1 hrest
      have honest := process_goesOn hb hs hfirst
      have behind := ih ⟨honest.raw, honest.whole, nofun⟩ hlater
      rw [List.reverse_append]
      exact ⟨behind.1.append balances.1, fun hok => (behind.2 hok).append (balances.2 hr)⟩

/-- **A build that goes well has merged** the raw features of processed scopes, once each, and all that
it merged is among them as far as it wants something. -/
theorem merges_perm (hb : b.Regular) {targets : List (ModuleKey × Scope)} {o : Outcome}
    (ho : b.processEach (.start b.reactor) targets = some o) (hok : o.result = .ok ()) :
    ((merges o.events.reverse).filterMap b.wanted?).Perm (b.outsidePrototypes o.session) := by
  have steady := ((processEach_steady hb (b.steady_start b.reactor) ho).1.2 hok).1
  have path := (processEach_follows hb (b.steady_start b.reactor) ho []).path hok
  rw [List.append_nil] at path
  have orderly := Path.keeps (fun _ _ hm => Move.orderly hm) path (orderly_start b.reactor)
  have traced := Path.keeps (fun _ _ hm => Move.traced hm) path b.traced_start
  rw [← steady.filterMap_rawSites]
  refine perm_filterMap orderly.merges_nodup (b.nodup_rawSites o.session) fun n wants => ?_
  rw [mem_rawSites]
  constructor
  · intro hm
    obtain ⟨g, hg⟩ := (orderly.merges_done n hm).resolve_right nofun
    have marked := steady.processed_of_assembled hg
    obtain ⟨id, wants⟩ := Option.isSome_iff_exists.1 wants
    obtain ⟨f₀, h₀, -⟩ := Option.bind_eq_some_iff.1 wants
    obtain ⟨f, hf, -⟩ := get?_prepared_of_sourced h₀
    obtain ⟨m, known⟩ := Option.isSome_iff_exists.1 (steady.opened marked).known
    obtain ⟨listed, here⟩ := mem_modules_of_get? known
    refine ⟨here ▸ List.mem_map_of_mem listed, marked, f, ?_⟩
    rw [(steady.opened marked).raw]
    exact hf
  · rintro ⟨-, marked, f, hf⟩
    rw [(steady.opened marked).raw] at hf
    obtain ⟨g, hg⟩ := steady.complete n.module n.scope marked n.location f.id (.raw hf rfl)
    exact traced.made n f g hf hg

/-- What is made of a feature with its prototype outside is laid over what the loader has. -/
theorem Valid.inherits (h : b.Valid s) {location : String} {g : Feature} {prototype : Prototype}
    (hf : ((s.store key).raw scope).get? location = some f)
    (hg : ((s.store key).assembled scope).get? location = some g) (unmarked : f.assembled = false)
    (derived : f.prototype = some prototype) (foreign : b.reactor.contains prototype.id.moduleKey = false) :
    ∃ parent, b.loader prototype.id = .ok parent ∧
      g = ((Feature.inherited f.id parent prototype).overlay f).finished := by
  cases h.assembles hf hg with
  | final marked => cases marked.symm.trans unmarked
  | alone _ original => cases original.symm.trans derived
  | @inheriting prototype' parent _ derived' supplied =>
    cases derived.symm.trans derived'
    unfold Supplies at supplied
    rw [foreign] at supplied
    exact ⟨parent, supplied, rfl⟩

/-- **The loader is used exactly**, in scopes processed in turn up to the first that fails: it is asked
for nothing that a module owns, and what it has is the answer to what was asked for. If all goes well,
it was asked once for each raw feature of a processed scope with its prototype outside, and that
feature is laid over what it inherits from what the loader has. -/
theorem loader_used_exactly (b : Build) (hb : b.merger = .byPrototype)
    (targets : List (ModuleKey × Scope)) :
    ∃ o, b.processEach (.start b.reactor) targets = some o ∧
      (∀ before id after, o.events = before ++ .fetched id :: after →
        b.reactor.contains id.moduleKey = false ∧
          ∀ f, b.loader id = .ok f → ∃ key scope rest,
            after = .answered key scope id (.ok (some f)) :: rest) ∧
      (o.result = .ok () →
        (fetches o.events).Perm (b.outsidePrototypes o.session) ∧
          ∀ key scope location f prototype, (o.session.store key).isProcessed scope = true →
            ((o.session.store key).raw scope).get? location = some f → f.assembled = false →
            f.prototype = some prototype → b.reactor.contains prototype.id.moduleKey = false →
              ∃ parent, b.loader prototype.id = .ok parent ∧
                ((o.session.store key).assembled scope).get? location =
                  some ((Feature.inherited f.id parent prototype).overlay f).finished) := by
  obtain ⟨o, ho⟩ := exists_processEach hb targets (.start b.reactor)
  have regular := regular_asAnswered hb o.events
  have same := processEach_asAnswered hb .start ho
  obtain ⟨relayed, owes⟩ := processEach_balances regular (honest_start _ b.reactor) same
  refine ⟨o, ho, fun before id after split => ?relayed, fun hok => ⟨?exactly, ?inherits⟩⟩
  case relayed =>
    have reversed : o.events.reverse = after.reverse ++ .fetched id :: before.reverse := by
      rw [split]
      simp
    obtain ⟨foreign, answer⟩ := relayed _ _ _ reversed
    refine ⟨foreign, fun f loads => ?_⟩
    obtain ⟨key, scope, rest, last⟩ := answer f loads
    refine ⟨key, scope, rest.reverse, ?_⟩
    rw [← List.reverse_reverse after, last]
    simp
  case exactly =>
    have all := (owes hok).trans (merges_perm regular same hok)
    have reversed : fetches o.events.reverse = (fetches o.events).reverse := List.filterMap_reverse
    rw [List.append_nil, reversed] at all
    exact (List.reverse_perm _).symm.trans all
  case inherits =>
    intro key scope location f prototype marked hf unmarked derived foreign
    have steady := ((processEach_steady regular (steady_start _ b.reactor) same).1.2 hok).1
    have done : (o.session.store key).isAssembled scope location = true :=
      (steady.isAssembled_iff marked location).2 (.inl (SortedMap.contains_iff.2 ⟨f, hf⟩))
    obtain ⟨g, hg⟩ := SortedMap.contains_iff.1 done
    obtain ⟨parent, loads, rfl⟩ := steady.sound.toValid.inherits hf hg unmarked derived foreign
    exact ⟨parent, loads, hg⟩

/-- In `frontier`, the loader is asked for `base` once, and not for what that refers to. -/
theorem frontier_asks_once : ∃ o, frontier.processEach (.start frontier.reactor) [(⟨"g:app"⟩, .main)] = some o ∧
    o.result = .ok () ∧ fetches o.events = [(Identity.of "org.other" "base" "1").withType featureType] := by
  obtain ⟨o, ho, -, exactly⟩ := loader_used_exactly frontier rfl [(⟨"g:app"⟩, .main)]
  have run : (frontier.processEach (.start frontier.reactor) [(⟨"g:app"⟩, .main)]).map (fun o =>
      (o.result, frontier.outsidePrototypes o.session)) =
        some (.ok (), [(Identity.of "org.other" "base" "1").withType featureType]) := by
    decide +kernel
  rw [ho, Option.map_some, Option.some.injEq, Prod.mk.injEq] at run
  obtain ⟨ok, outside⟩ := run
  have asked := (exactly ok).1
  rw [outside] at asked
  exact ⟨o, ho, ok, List.perm_singleton.1 asked⟩

end Build

end FeatureAssembly
