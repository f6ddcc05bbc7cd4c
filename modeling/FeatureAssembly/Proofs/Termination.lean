import Mathlib.Data.List.Perm.Subperm
import FeatureAssembly.Proofs.Depth

/-!
# Termination

Every assembly ends, whatever session it starts from and whatever refers to what: features may refer
to themselves, to each other, and to modules that are being processed. And whatever the source makes
of the dependencies that are added to modules.

**The law** (`Build.assembly_terminates`): for every call there is a depth that is enough, and more
depth changes nothing. If the source ignores dependencies it can be told from the session alone.

If not, the build is rehearsed. With the answers of the source fixed a depth can be told, and the
next rehearsal does the same as the one before up to the first question that was answered wrong.
That one it answers right (`Build.right_succ`). As no scope is asked for twice, all answers are
right after as many rehearsals as there are scopes, and then the build does the same as the
rehearsal (`Build.settles`).
-/

set_option autoImplicit false

namespace FeatureAssembly

open Step

/-- **A call**: processing a scope, or providing a feature. -/
inductive Calls.Call : {α : Type} → (Calls → Step α) → Prop
  | process (key : ModuleKey) (scope : Scope) : Call fun calls => calls.process key scope
  | provide (key : ModuleKey) (scope : Scope) (id : Identity) :
    Call fun calls => calls.provide key scope id

namespace Build

variable {α : Type} {b : Build} {x : Calls → Step α} {p : Progress} {n : Nat}

/-! ## Enough depth -/

theorem call_tracks (hx : Calls.Call x) {parts : Event → Prop} {calls calls' : Calls}
    (h : calls.Track parts calls') : Tracks parts (x calls) (x calls') := by
  cases hx with
  | process key scope => exact h.process key scope
  | provide key scope id => exact h.provide key scope id

/-- A call ends in the same way at any greater depth. -/
theorem call_deeper (hx : Calls.Call x) {depth depth' : Nat} (h : depth ≤ depth')
    {r : Except AssemblyError α × Progress} (hr : x (b.calls depth) p = some r) :
    x (b.calls depth') p = some r := by
  cases hx with
  | process key scope => exact (b.calls_refine_of_le h).process key scope p r hr
  | provide key scope id => exact (b.calls_refine_of_le h).provide key scope id p r hr

/-- At all depths at which a call ends it ends in the same way. -/
theorem call_unique (hx : Calls.Call x) {depth depth' : Nat} {r r' : Except AssemblyError α × Progress}
    (h : x (b.calls depth) p = some r) (h' : x (b.calls depth') p = some r') : r = r' :=
  Option.some.inj ((call_deeper hx (Nat.le_max_left depth depth') h).symm.trans
    (call_deeper hx (Nat.le_max_right depth depth') h'))

/-- Calls of builds with different sources end in the same way, or do the same up to a question
that the sources answer differently. -/
theorem call_parts (hx : Calls.Call x) {source : FeatureSource} {depth depth' : Nat}
    {r r' : Except AssemblyError α × Progress} (hr : x (b.calls depth) p = some r)
    (hr' : x ((b.withSource source).calls depth') p = some r') :
    r' = r ∨ ∃ e common rest rest', b.Unlike source e ∧
      since p.trace r.2.trace = common ++ e :: rest ∧
        since p.trace r'.2.trace = common ++ e :: rest' := by
  have tracks := call_tracks hx (b.calls_track source (Nat.le_max_left depth depth'))
  have there := call_deeper hx (Nat.le_max_right depth depth') hr'
  rcases tracks.tracks p r hr with here | ⟨e, before, unlike, start, one, other⟩
  · exact .inl (Option.some.inj (there.symm.trans here))
  · obtain ⟨rest, one⟩ := exists_since_eq start one
    obtain ⟨rest', other⟩ := exists_since_eq start (other r' there)
    exact .inr ⟨e, _, rest, rest', unlike, one, other⟩

/-- Builds whose sources answer all questions alike do the same. -/
theorem call_alike (hx : Calls.Call x) {source : FeatureSource} {depth : Nat}
    {r : Except AssemblyError α × Progress} (hr : x (b.calls depth) p = some r)
    (alike : ∀ e ∈ since p.trace r.2.trace, ¬ b.Unlike source e) :
    x ((b.withSource source).calls depth) p = some r := by
  have tracks := call_tracks hx (b.calls_track source (Nat.le_refl depth))
  refine (tracks.tracks p r hr).resolve_right ?_
  rintro ⟨e, before, unlike, start, asked, -⟩
  obtain ⟨rest, split⟩ := exists_since_eq start asked
  exact alike e (split ▸ List.mem_append_right _ List.mem_cons_self) unlike

theorem Unlike.symm {source : FeatureSource} {e : Event} (h : (b.withSource source).Unlike b.source e) :
    b.Unlike source e := by
  cases e with
  | loaded key dependencies scope =>
    obtain ⟨m, hm, differ⟩ := h
    exact ⟨m, hm, differ.symm⟩
  | _ => exact h

/-- Sources answer differently where something is asked for. -/
theorem Unlike.length_loads {source : FeatureSource} {e : Event} (h : b.Unlike source e) :
    (loads [e]).length = 1 := by
  cases e with
  | loaded key dependencies scope => rfl
  | _ => exact absurd h id

/-- A source that answers like a second one, and not like a third one, is unlike both. -/
theorem Unlike.of_alike {source source' : FeatureSource} {e : Event} (h : b.Unlike source e)
    (alike : ¬ (b.withSource source).Unlike source' e) : b.Unlike source' e := by
  cases e with
  | loaded key dependencies scope =>
    obtain ⟨m, hm, differ⟩ := h
    exact ⟨m, hm, fun same => alike ⟨m, hm, fun other => differ (other.symm.trans same)⟩⟩
  | _ => exact h

/-- What a call leaves behind, at whatever depth. -/
theorem kept_of_call (hb : b.merger = .byPrototype) (hx : Calls.Call x) {depth : Nat}
    {r : Except AssemblyError α} {q : Progress} (h : x (b.calls depth) p = some (r, q)) :
    ∃ scope, p.Kept b.reactor False [] scope q := by
  have keep : (b.calls depth).Keep b False [] depth := calls_keep hb False nofun depth
  cases hx with
  | process key scope => exact ⟨scope, ((keep.process nofun nofun).of_eq_some h).1⟩
  | provide key scope id => exact ⟨scope, (keep.provide nofun nofun).of_eq_some h⟩

/-- A call ends if the source ignores dependencies. -/
theorem call_ends (hb : b.merger = .byPrototype) (hi : b.source.IgnoresDependencies)
    (hx : Calls.Call x) (p : Progress) : ∃ r, x (b.calls (b.depthBound p.session)) p = some r := by
  have keep := calls_keep hb True (fun _ => lists_possibleIds hi p.session) (b.depthBound p.session)
  have within := b.rawsWithin_possibleIds p.session
  have enough := b.assembleDepth_le_depthBound p.session
  cases hx with
  | process key scope =>
    have deep : True → b.processDepth (b.possibleIds p.session) p.session ≤ b.depthBound p.session :=
      fun _ => Nat.le_trans processDepth_le_assembleDepth enough
    exact (keep.process (fun _ => within) deep).exists_eq_some
  | provide key scope id =>
    have deep : True → b.provideDepth (b.possibleIds p.session) p ≤ b.depthBound p.session :=
      fun _ => Nat.le_trans (provideDepth_le p) enough
    exact (keep.provide (fun _ => within) deep).exists_eq_some

/-! ## Rehearsals -/

/-- The build with the answers fixed to those of some rehearsals. -/
def rehearsed (b : Build) (x : Calls → Step α) (p : Progress) (n : Nat) : Build :=
  b.asAnswered (b.rehearse x p n)

/-- Every rehearsal ends. -/
theorem rehearsal_ends (hb : b.merger = .byPrototype) (hx : Calls.Call x) (p : Progress) (n : Nat) :
    ∃ r q, x ((b.rehearsed x p n).calls ((b.rehearsed x p n).depthBound p.session)) p = some (r, q) ∧
      b.rehearse x p (n + 1) = since p.trace q.trace ∧
        p.session.Asks b.reactor q.session p.trace q.trace := by
  have ends := call_ends (b := b.rehearsed x p n) hb (b.ignoresDependencies_asAnswered _) hx p
  obtain ⟨⟨r, q⟩, hr⟩ := ends
  obtain ⟨_, kept⟩ := kept_of_call (b := b.rehearsed x p n) hb hx hr
  refine ⟨r, q, hr, ?_, kept.asks⟩
  unfold rehearsed at hr
  rw [rehearse, hr]
  rfl

/-- **The first answers are right** of a rehearsal: they are those of the build itself. -/
def Right (b : Build) (x : Calls → Step α) (p : Progress) (n : Nat) : Prop :=
  ∀ before e after, b.rehearse x p (n + 1) = before ++ e :: after → (loads before).length < n →
    ¬ (b.rehearsed x p n).Unlike b.source e

/-- A rehearsal answers right whatever was asked in the one before. -/
theorem not_unlike_of_mem (hb : b.merger = .byPrototype) (hx : Calls.Call x) {e : Event}
    (he : e ∈ b.rehearse x p (n + 1)) : ¬ (b.rehearsed x p (n + 1)).Unlike b.source e := by
  obtain ⟨-, q, -, asked, asks⟩ := rehearsal_ends hb hx p n
  exact fun unlike => alike_asAnswered (asked ▸ asks.once) he unlike.symm

/-- **Each rehearsal gets one more answer right**: it does the same as the one before up to the first
wrong answer, and answers that right. -/
theorem right_succ (hb : b.merger = .byPrototype) (hx : Calls.Call x) (h : b.Right x p n) :
    b.Right x p (n + 1) := by
  obtain ⟨r, q, hr, first, -⟩ := rehearsal_ends hb hx p n
  obtain ⟨r', q', hr', second, -⟩ := rehearsal_ends hb hx p (n + 1)
  intro before e after split few
  suffices known : e ∈ b.rehearse x p (n + 1) from not_unlike_of_mem hb hx known
  have next : x (((b.rehearsed x p n).withSource (b.rehearsed x p (n + 1)).source).calls
      ((b.rehearsed x p (n + 1)).depthBound p.session)) p = some (r', q') := hr'
  rcases call_parts hx hr next with same | ⟨e', common, rest, rest', unlike, one, other⟩
  · cases same
    rw [first, ← second, split]
    exact List.mem_append_right before List.mem_cons_self
  · -- The event at which they part is a question, and the first one that was answered wrong.
    have one : b.rehearse x p (n + 1) = common ++ e' :: rest := first.trans one
    have asks := unlike.length_loads
    have wrong : (b.rehearsed x p n).Unlike b.source e' :=
      unlike.of_alike (not_unlike_of_mem hb hx (one ▸ List.mem_append_right common List.mem_cons_self))
    have many : n ≤ (loads common).length := Nat.le_of_not_lt fun few => h common e' rest one few wrong
    have two : common ++ e' :: rest' = before ++ e :: after := (second.trans other).symm.trans split
    rw [one]
    rcases List.append_eq_append_iff.1 two with ⟨l, rfl, hl⟩ | ⟨l, rfl, hl⟩
    · cases l with
      | nil => cases hl; simp
      | cons d l =>
        cases hl
        rw [loads_append, List.length_append] at few
        have : loads (e' :: l) = loads [e'] ++ loads l := loads_append [e'] l
        rw [this, List.length_append] at few
        omega
    · cases l with
      | nil => cases hl; simp
      | cons d l => cases hl; simp

/-- **All answers are right in the end**, for no scope is asked for twice. -/
theorem not_unlike (hb : b.merger = .byPrototype) (hx : Calls.Call x) {e : Event}
    (he : e ∈ b.rehearse x p (2 * b.reactor.modules.length + 1)) :
    ¬ (b.rehearsed x p (2 * b.reactor.modules.length)).Unlike b.source e := by
  have right : ∀ n, b.Right x p n := fun n => by
    induction n with
    | zero => exact fun _ _ _ _ few => absurd few (Nat.not_lt_zero _)
    | succ n ih => exact right_succ hb hx ih
  obtain ⟨-, q, -, all, asks⟩ := rehearsal_ends hb hx p (2 * b.reactor.modules.length)
  obtain ⟨before, after, split⟩ := List.append_of_mem he
  intro unlike
  refine right _ before e after split ?_ unlike
  have asked := unlike.length_loads
  have scopes : ∀ t ∈ loads (since p.trace q.trace), t ∈ b.slots := fun t ht => by
    obtain ⟨_, ht⟩ := mem_loads_iff.1 ht
    obtain ⟨m, hm⟩ := Option.isSome_iff_exists.1 (asks.asked _ _ _ ht).1
    exact mem_slots hm t.2
  have bounded := (List.subperm_of_subset asks.once scopes).length_le
  have parts : since p.trace q.trace = before ++ ([e] ++ after) := all.symm.trans split
  rw [length_slots, parts, loads_append, loads_append, List.length_append, List.length_append] at bounded
  omega

/-- **A call settles**: at a depth that the rehearsals tell it ends, and at any greater depth in the
same way. -/
theorem settles (hb : b.merger = .byPrototype) (hx : Calls.Call x) (p : Progress) :
    ∃ r, ∀ depth, b.settledDepth x p ≤ depth → x (b.calls depth) p = some r := by
  obtain ⟨r, q, hr, all, -⟩ := rehearsal_ends hb hx p (2 * b.reactor.modules.length)
  exact ⟨(r, q), fun depth hd => call_deeper hx hd <|
    call_alike (b := b.rehearsed x p _) hx hr fun e he => not_unlike hb hx (all ▸ he)⟩

/-- The depth can be told from the session if the source ignores dependencies. -/
theorem exists_bound (hb : b.merger = .byPrototype) (hx : Calls.Call x) (p : Progress) :
    ∃ bound r, (b.source.IgnoresDependencies → bound = b.depthBound p.session) ∧
      ∀ depth, bound ≤ depth → x (b.calls depth) p = some r := by
  obtain ⟨r, hr⟩ := settles hb hx (b := b) p
  refine ⟨b.settledDepth x p, r, fun hi => ?_, hr⟩
  unfold settledDepth
  rw [asAnswered_eq hi]

/-! ## Whole builds -/

/-- Processing a scope ends as it does at some depth. -/
theorem exists_depth_of_process {s : Session} {key : ModuleKey} {scope : Scope} {o : Outcome}
    (h : b.process s key scope = some o) :
    ∃ depth r q, (b.calls depth).process key scope ⟨s, .empty, []⟩ = some (r, q) ∧
      o = ⟨r, q.session, q.trace.reverse⟩ := by
  have attempts : ∃ depth, run s ((b.calls depth).process key scope) = some o := by
    rcases Option.or_eq_some_iff.1 h with h | ⟨-, h⟩
    · exact ⟨_, h⟩
    · exact ⟨_, h⟩
  obtain ⟨depth, h⟩ := attempts
  obtain ⟨⟨r, q⟩, hr, rfl⟩ := Option.map_eq_some_iff.1 h
  exact ⟨depth, r, q, hr, rfl⟩

/-- However deep it ends, processing a scope ends that way. -/
theorem process_of_depth (hb : b.merger = .byPrototype) {s : Session} {key : ModuleKey}
    {scope : Scope} {depth : Nat} {r : Except AssemblyError Unit} {q : Progress}
    (h : (b.calls depth).process key scope ⟨s, .empty, []⟩ = some (r, q)) :
    b.process s key scope = some ⟨r, q.session, q.trace.reverse⟩ := by
  have call : Calls.Call fun calls => calls.process key scope := .process key scope
  obtain ⟨a, settled⟩ := settles hb call (b := b) ⟨s, .empty, []⟩
  have found := settled _ (Nat.le_refl _)
  cases call_unique call found h
  refine Option.or_eq_some_iff.2 ?_
  cases first : (b.calls (b.depthBound s)).process key scope ⟨s, .empty, []⟩ with
  | none => exact .inr ⟨congrArg (Option.map _) first, congrArg (Option.map _) found⟩
  | some a =>
    cases call_unique call first h
    exact .inl (congrArg (Option.map _) first)

/-- Processing a scope has an outcome. -/
theorem exists_process (hb : b.merger = .byPrototype) (s : Session) (key : ModuleKey) (scope : Scope) :
    ∃ o, b.process s key scope = some o := by
  obtain ⟨⟨r, q⟩, hr⟩ := settles hb (.process key scope) (b := b) ⟨s, .empty, []⟩
  exact ⟨_, process_of_depth hb (hr _ (Nat.le_refl _))⟩

/-- Processing scopes in turn has an outcome. -/
theorem exists_processEach (hb : b.merger = .byPrototype) (targets : List (ModuleKey × Scope)) :
    ∀ s, ∃ o, b.processEach s targets = some o := by
  induction targets with
  | nil => exact fun s => ⟨_, rfl⟩
  | cons t rest ih =>
    intro s
    obtain ⟨o, ho⟩ := exists_process hb s t.1 t.2
    rw [processEach, ho, Option.bind_some, andThen]
    split
    · exact ⟨o, rfl⟩
    · obtain ⟨o', ho'⟩ := ih o.session
      exact ⟨_, by rw [ho']; rfl⟩

/-- **Every assembly terminates**: whatever the session, the identities in flight, the raw features
and what the source makes of dependencies are, for processing any scope and for providing any feature
there is a depth that is enough, and every greater depth gives the same outcome. If the source ignores
dependencies one depth is enough for all of them. So a build has an outcome. -/
theorem assembly_terminates (b : Build) (hb : b.merger = .byPrototype) :
    (∀ p key scope, ∃ bound r, (b.source.IgnoresDependencies → bound = b.depthBound p.session) ∧
      ∀ depth, bound ≤ depth → (b.calls depth).process key scope p = some r) ∧
    (∀ p key scope id, ∃ bound r, (b.source.IgnoresDependencies → bound = b.depthBound p.session) ∧
      ∀ depth, bound ≤ depth → (b.calls depth).provide key scope id p = some r) ∧
    (∀ s key scope, ∃ o, b.process s key scope = some o) ∧
    (∀ s targets, ∃ o, b.processEach s targets = some o) ∧
    ∀ s, ∃ o, b.processAll s = some o := by
  refine ⟨fun p key scope => exists_bound hb (.process key scope) p,
    fun p key scope id => exists_bound hb (.provide key scope id) p, exists_process hb,
    fun s targets => exists_processEach hb targets s, fun s => ?all⟩
  case all =>
    unfold processAll
    split
    · exact ⟨_, rfl⟩
    · exact exists_processEach hb _ s

/-- A build of two modules in which everything refers to itself in the end. -/
def knot : Build :=
  let app : Identity := (Identity.of "g" "app" "1").withType featureType
  let lib : Identity := (Identity.of "g" "lib" "1").withType featureType
  ofTable appAndLib
    [(⟨"g:app"⟩, .main, "a.json", .after app lib),
      (⟨"g:lib"⟩, .main, "b.json", .after lib app),
      (⟨"g:lib"⟩, .test, "c.json", .after (lib.withClassifier "c") (lib.withClassifier "c"))]

theorem assembly_terminates_knot : ∃ o, knot.processAll (.start knot.reactor) = some o :=
  (assembly_terminates knot rfl).2.2.2.2 _

end Build

end FeatureAssembly
