import FeatureAssembly.Assembly.Step

/-!
# What a build does

The pieces of an assembly: how a module scope is processed, and how a feature is
provided that another one refers to. Both need each other at a smaller depth, so they
are written over `Calls`, the two of them as somebody else provides them.

**Processing a scope** marks it, processes main before test, checks what is declared,
reads the raw features, checks their classifiers, attaches the packaged unit,
assembles every raw feature that is not assembled yet, puts the aggregates together and
adds the missing dependencies. A scope is processed once.

**Providing a feature** puts its identity in flight while it is looked for: in the
module that asks if that module owns it, in the owning module, processed first, if
there is one, and otherwise at the loader. A feature that is not assembled yet is
assembled on demand. An identity that is in flight already is a cycle, and nothing is
provided. While a module is processed on behalf of an identity, that identity is not in
flight.
-/

namespace FeatureAssembly

open Step

/-- **What a build is given.** -/
structure Build where
  reactor : Reactor
  config : AssemblyConfig
  merger : Merger
  loader : FeatureLoader
  source : FeatureSource

/-- Processing a module scope, and providing a feature for a module and scope. -/
structure Calls where
  process : ModuleKey → Scope → Step Unit
  provide : ModuleKey → Scope → Identity → Step (Option Feature)

namespace Build

/-- A build with another source. -/
def withSource (b : Build) (source : FeatureSource) : Build := { b with source }

/-! ## Checks and sources -/

/-- Check that every declared aggregate of a module has a classifier. -/
def checkAggregates (b : Build) (key : ModuleKey) : Except AssemblyError Unit :=
  if (b.config.aggregatesOf key).any fun d => d.classifier == "" then
    .error (.unclassifiedAggregate key)
  else .ok ()

def load (b : Build) (m : Module) (scope : Scope) : Except AssemblyError FeatureMap :=
  (b.source m scope).mapError (.source m.key scope)

def checkClassifiers (b : Build) (key : ModuleKey) (main test : FeatureMap) :
    Except ClassifierError Unit :=
  Classifiers.checkModule key main test (b.config.aggregatesOf key)

/-- Check the classifiers of a module by what is known of its features, and report a
clash. -/
def checkStore (b : Build) (key : ModuleKey) : Step Unit := do
  let store ← store key
  match b.checkClassifiers key (store.raw .main) (store.raw .test) with
  | .ok () => return
  | .error e =>
    update fun s => s.report (.classifiers e)
    throw (.classifier e)

/-! ## The packaged unit -/

/-- The artifact that a module builds. -/
def packagedUnit (b : Build) (m : Module) : Artifact :=
  { id := m.identityAs (b.config.packagedUnitType.getD m.packaging)
    startOrder := b.config.packagedUnitStartOrder
    metadata := .empty }

/-- Attach the packaged unit of a module to its only raw main feature. -/
def attachPackagedUnit (b : Build) (m : Module) : Step Unit := do
  if b.config.attachPackagedUnit && m.hasPackagedUnit then
    match ((← store m.key).raw .main).entries with
    | [] => return
    | [(location, f)] =>
      updateStore m.key fun s =>
        s.insertRaw .main location { f with bundles := f.bundles.insert (b.packagedUnit m) }
    | entries =>
      let locations := entries.map (·.1)
      update fun s => s.report (.ambiguousUnit m.key locations)
      throw (.ambiguousPackagedUnit m.key locations)

/-! ## Assembling -/

/-- Have the raw feature at a location assembled by the merger, whose questions are asked
on behalf of the module and scope. -/
def merge (b : Build) (calls : Calls) (key : ModuleKey) (scope : Scope) (location : String)
    (base : Feature) : Step Feature := do
  record (.merging key scope location base.id)
  let result ← (b.merger.assemble base).run (fun id => attempt (calls.provide key scope id))
    fun text => record (.remarked text)
  record (.merged key scope location)
  conclude result

/-- Assemble the raw feature at a location unless that is done. -/
def assembleAt (b : Build) (calls : Calls) (key : ModuleKey) (scope : Scope)
    (e : String × Feature) : Step Unit := do
  if !(← store key).isAssembled scope e.1 then
    let held ← isInFlight e.2.id
    if !held then enter e.2.id
    let result ← attempt (b.merge calls key scope e.1 e.2)
    if !held then leave e.2.id
    let _ ← insertAssembled key scope e.1 (← conclude result)

/-! ## Aggregates -/

/-- The features that an aggregate is put together from, in location order. -/
def aggregateParts (store : FeatureStore) (d : AggregateDecl) : List Feature :=
  ((store.assembled d.scope).entries.filter fun e =>
    !isAggregateKey e.1 && d.selects e.2.classifier).map (·.2)

def aggregateIdentity (m : Module) (d : AggregateDecl) : Identity :=
  (m.identityAs featureType).withClassifier d.classifier

/-- Put an aggregate together unless that is done. -/
def buildAggregate (b : Build) (m : Module) (d : AggregateDecl) : Step Unit := do
  let store ← store m.key
  if !store.isAssembled d.scope (aggregateKey d.classifier) then
    let parts := aggregateParts store d
    if parts.isEmpty then throw (.emptyAggregate m.key d.classifier)
    let id := aggregateIdentity m d
    record (.aggregated id (parts.map Feature.id))
    let _ ← insertAssembled m.key d.scope (aggregateKey d.classifier) (b.merger.aggregate id parts)

/-- Put the declared aggregates of a module scope together, in the order of their
declaration. -/
def buildAggregates (b : Build) (m : Module) (scope : Scope) : Step Unit :=
  ((b.config.aggregatesOf m.key).filter fun d => d.scope == scope).forM (b.buildAggregate m)

/-! ## Dependencies -/

/-- All that a module scope refers to: the artifacts of its assembled features, and the
features of others that the module referred to so far. -/
def referenced (s : Session) (key : ModuleKey) (scope : Scope) : List Identity :=
  ((s.store key).assembled scope).values.flatMap Feature.referencedArtifacts ++
    (s.referencesOf key).keys

/-- Add all that a module scope refers to and that the module lacks to its
dependencies. -/
def augment (b : Build) (key : ModuleKey) (scope : Scope) (s : Session) : Session :=
  (referenced s key scope).foldl
    (fun s id => s.ensureDependency key id b.config.dependencyScope) s

/-! ## Processing -/

/-- Process a scope that is marked, with main behind it if it is test. The module has the
dependencies that it had when its processing was asked for. -/
def processMarked (b : Build) (calls : Calls) (m : Module) (scope : Scope) : Step Unit := do
  conclude (b.checkAggregates m.key)
  record (.loaded m.key m.dependencies scope)
  let features ← conclude (b.load m scope)
  updateStore m.key fun s => s.setRaw scope features
  b.checkStore m.key
  if scope = .main then b.attachPackagedUnit m
  ((← store m.key).raw scope).entries.forM (b.assembleAt calls m.key scope)
  b.buildAggregates m scope
  if !b.config.skipDependencyAugmentation then update (b.augment m.key scope)

/-- **Process a module scope**, once. -/
def processWith (b : Build) (calls : Calls) (key : ModuleKey) (scope : Scope) : Step Unit := do
  match b.reactor.get? key with
  | none => throw (.unknownModule key)
  | some m =>
    let current := (← session).current m
    if !(← store key).isProcessed scope then
      updateStore key fun s => s.markProcessed scope
      record (.opened key scope)
      if scope = .test then calls.process key .main
      b.processMarked calls current scope

/-! ## Providing -/

/-- Process a module scope on behalf of an identity, which is not in flight meanwhile. -/
def processReleased (calls : Calls) (id : Identity) (key : ModuleKey) (scope : Scope) :
    Step Unit := do
  leave id
  let result ← attempt (calls.process key scope)
  enter id
  conclude result

/-- Look for a feature of a module in some scopes, the wanted scope or those that it sees,
and assemble it if only its raw form is there. -/
def lookIn (b : Build) (calls : Calls) (key : ModuleKey) (wanted : Scope) (id : Identity) :
    List Scope → Step (Option Feature)
  | [] => return none
  | scope :: rest => do
    if scope ≠ wanted then processReleased calls id key scope
    let store ← store key
    match store.findAssembled? scope id with
    | some (_, f) => return some f
    | none =>
      match store.findRaw? scope id with
      | none => b.lookIn calls key wanted id rest
      | some (location, raw) =>
        let assembled ← b.merge calls key scope location raw
        return some (← insertAssembled key scope location assembled)

/-- Report that a feature does not exist, if that was found. -/
def reportMissing (key : ModuleKey) (scope : Scope) (id : Identity) (found : Option Feature) :
    Step (Option Feature) := do
  if found.isNone then
    update fun s => s.report (.notFound key id)
    record (.missing key scope id)
  return found

/-- Ask the loader for a feature. -/
def fetch (b : Build) (id : Identity) : Step (Option Feature) := do
  record (.fetched id)
  match b.loader id with
  | .ok f => return some f
  | .error e => if e.isNotFound then return none else throw (.externalResolution id e)

/-- Find a feature where its owner keeps it. -/
def find (b : Build) (calls : Calls) (key : ModuleKey) (scope : Scope) (id : Identity) :
    Step (Option Feature) := do
  if id.moduleKey = key then
    b.lookIn calls key scope id scope.visible
  else if b.reactor.contains id.moduleKey then
    processReleased calls id id.moduleKey scope
    b.lookIn calls id.moduleKey scope id scope.visible
  else
    b.fetch id

/-- Record that a module referred to a feature of another. -/
def recordReference (key : ModuleKey) (id : Identity) (answer : Answer) : Step Unit := do
  match answer with
  | .ok (some _) => if !id.isOwnedBy key then update fun s => s.recordReference key id
  | _ => return

/-- **Provide a feature** for a module and scope. -/
def provideWith (b : Build) (calls : Calls) (key : ModuleKey) (scope : Scope) (id : Identity) :
    Step (Option Feature) := do
  if ← isInFlight id then
    update fun s => s.report (.cycle key id)
    record (.answered key scope id (.ok none))
    return none
  else
    enter id
    let answer ← attempt (do reportMissing key scope id (← b.find calls key scope id))
    leave id
    recordReference key id answer
    record (.answered key scope id answer)
    conclude answer

end Build

end FeatureAssembly
