import FeatureAssembly.Assembly.Build
import FeatureAssembly.Reactor.BuildOrder

/-!
# Running a build

`Build.process` processes one module scope, `Build.processAll` every scope of every
module in build order, and `Build.validate` checks a module without assembling
anything.

**The depth**: between two scopes that are really processed, every feature that is
provided from a raw form keeps another identity in flight. So the depth is bounded by
the number of scopes, times the number of raw features that can occur.

Which these are can only be told if the source ignores dependencies. Otherwise the build
is rehearsed (`Build.rehearse`): with the answers of the source fixed to what it has for
some dependencies of each scope, and then again, fixed to what it has for those that it was
asked with. Each rehearsal gets the next answer right.

What it does not establish: that the bound is never reached. An outcome of `none` would
say that it was.
-/

namespace FeatureAssembly

/-- How a piece of a build ends. -/
structure Outcome where
  result : Except AssemblyError Unit
  session : Session
  events : List Event

namespace Build

/-! ## Depth -/

/-- Processing and providing, at a depth. -/
def calls (b : Build) : Nat → Calls
  | 0 => ⟨fun _ _ => Step.exhausted, fun _ _ _ => Step.exhausted⟩
  | depth + 1 => ⟨b.processWith (b.calls depth), b.provideWith (b.calls depth)⟩

def rawFeatures (s : Session) : List Feature :=
  s.stores.values.flatMap fun store => Scope.all.flatMap fun scope => (store.raw scope).values

def sourceFeatures (b : Build) (m : Module) (scope : Scope) : List Feature :=
  match b.source m scope with
  | .ok features => features.values
  | .error _ => []

/-- All raw features that can occur. -/
def possibleFeatures (b : Build) (s : Session) : List Feature :=
  rawFeatures s ++ b.reactor.modules.flatMap fun m => Scope.all.flatMap (b.sourceFeatures m)

/-- A depth that is enough to process any module scope, if the source ignores dependencies. -/
def depthBound (b : Build) (s : Session) : Nat :=
  (2 * b.reactor.modules.length + 1) * ((b.possibleFeatures s).length + 3)

/-! ## Answers of the source -/

/-- The dependencies that the source was first asked for a scope with. -/
def handed (events : List Event) (key : ModuleKey) (scope : Scope) : Option (List Dependency) :=
  events.findSome? fun
    | .loaded key' dependencies scope' =>
      if key' = key ∧ scope' = scope then some dependencies else none
    | _ => none

/-- **The build with the answers that its source gave** in the course of some events: for a
scope that it was asked for, what it has for the dependencies that it was asked with, and for
any other what it has for the declared ones. -/
def asAnswered (b : Build) (events : List Event) : Build :=
  b.withSource fun m scope =>
    b.source (m.dependingOn ((handed events m.key scope).getD (b.reactor.declared m.key))) scope

/-- What was done between two traces, in order. -/
def since (earlier later : List Event) : List Event :=
  (later.take (later.length - earlier.length)).reverse

/-- What is done in the last of some rehearsals of a step: in each of them the source answers
as it did in the one before. -/
def rehearse {α : Type} (b : Build) (x : Calls → Step α) (p : Progress) : Nat → List Event
  | 0 => []
  | n + 1 =>
    let fixed := b.asAnswered (b.rehearse x p n)
    ((x (fixed.calls (fixed.depthBound p.session)) p).map fun r => since p.trace r.2.trace).getD []

/-- A depth that is enough for a step, whatever the source makes of dependencies. -/
def settledDepth {α : Type} (b : Build) (x : Calls → Step α) (p : Progress) : Nat :=
  (b.asAnswered (b.rehearse x p (2 * b.reactor.modules.length))).depthBound p.session

/-! ## Processing -/

/-- Do a step with nothing in flight. -/
def run (s : Session) (x : Step Unit) : Option Outcome :=
  (x ⟨s, .empty, []⟩).map fun r => ⟨r.1, r.2.session, r.2.trace.reverse⟩

/-- **Process a module scope.** -/
def process (b : Build) (s : Session) (key : ModuleKey) (scope : Scope) : Option Outcome :=
  let x : Calls → Step Unit := fun calls => calls.process key scope
  (run s (x (b.calls (b.depthBound s)))).or
    (run s (x (b.calls (b.settledDepth x ⟨s, .empty, []⟩))))

def andThen (o : Outcome) (next : Session → Option Outcome) : Option Outcome :=
  match o.result with
  | .error _ => some o
  | .ok () => (next o.session).map fun o' => { o' with events := o.events ++ o'.events }

/-- Process module scopes in turn, up to the first that fails. -/
def processEach (b : Build) : Session → List (ModuleKey × Scope) → Option Outcome
  | s, [] => some ⟨.ok (), s, []⟩
  | s, (key, scope) :: rest =>
    (b.process s key scope).bind fun o => andThen o fun s => b.processEach s rest

/-- **Process every scope of every module**, in build order. -/
def processAll (b : Build) (s : Session) : Option Outcome :=
  match b.reactor.buildOrder with
  | .error e => some ⟨.error (.reactor e), s, []⟩
  | .ok order => b.processEach s (order.flatMap fun key => Scope.all.map fun scope => (key, scope))

/-! ## Validating -/

/-- **Check the features of a module** without assembling them. -/
def validate (b : Build) (m : Module) : Except AssemblyError Unit := do
  b.checkAggregates m.key
  let main ← b.load m .main
  let test ← b.load m .test
  (b.checkClassifiers m.key main test).mapError .classifier

/-- What `validate` asks the source for: main features if the declarations are in order,
and test features if there are main features. -/
def validateEvents (b : Build) (m : Module) : List Event :=
  match b.checkAggregates m.key with
  | .error _ => []
  | .ok () =>
    match b.load m .main with
    | .error _ => [.loaded m.key m.dependencies .main]
    | .ok _ => [.loaded m.key m.dependencies .main, .loaded m.key m.dependencies .test]

end Build

end FeatureAssembly
