import FeatureAssembly.Merge.Inquiry
import FeatureAssembly.Session

/-!
# Steps of an assembly

A `Step` is a piece of an assembly: it changes the session and the set of identities
in flight, adds to the trace, and ends with a value or an error. The changes made
before an error stay. A step that needs more depth than it is given ends with nothing
at all, so that running out of depth is never taken for an error.

**The trace** tells what an assembly did, in brackets: everything between `merging` and
`merged` of one location was done on behalf of that merge.
-/

namespace FeatureAssembly

/-- **What an assembly did.** -/
inductive Event where
  /-- The processing of a scope begins. -/
  | opened (module : ModuleKey) (scope : Scope)
  /-- The source is asked for a scope of a module that has some dependencies by now. -/
  | loaded (module : ModuleKey) (dependencies : List Dependency) (scope : Scope)
  /-- The loader is asked for a feature. -/
  | fetched (id : Identity)
  /-- The merger is asked to assemble the raw feature at a location. -/
  | merging (module : ModuleKey) (scope : Scope) (location : String) (base : Identity)
  /-- The merger is done with the raw feature at a location, or gave up. -/
  | merged (module : ModuleKey) (scope : Scope) (location : String)
  /-- The merger left a remark. -/
  | remarked (text : String)
  /-- A question asked on behalf of a module and scope is answered. -/
  | answered (module : ModuleKey) (scope : Scope) (id : Identity) (answer : Answer)
  /-- A feature asked for on behalf of a module and scope does not exist. -/
  | missing (module : ModuleKey) (scope : Scope) (id : Identity)
  /-- The merger is asked to put features together. -/
  | aggregated (id : Identity) (parts : List Identity)

/-- **Where an assembly stands.** -/
structure Progress where
  session : Session
  /-- The identities that are being provided or assembled. -/
  inFlight : SortedSet Identity
  /-- What was done, last thing first. -/
  trace : List Event

/-- **A piece of an assembly.** -/
abbrev Step : Type → Type := ExceptT AssemblyError (StateT Progress Option)

namespace Step

/-- The step that lacks the depth to be done. -/
def exhausted {α : Type} : Step α := fun _ => none

/-- Do a step and go on, also after an error. -/
def attempt {α : Type} (x : Step α) : Step (Except AssemblyError α) := fun p =>
  (x p).map fun r => (.ok r.1, r.2)

def conclude {α : Type} (r : Except AssemblyError α) : Step α := fun p => some (r, p)

def record (e : Event) : Step Unit := modify fun p => { p with trace := e :: p.trace }

def session : Step Session := return (← get).session

def store (key : ModuleKey) : Step FeatureStore := return (← session).store key

def update (f : Session → Session) : Step Unit :=
  modify fun p => { p with session := f p.session }

def updateStore (key : ModuleKey) (f : FeatureStore → FeatureStore) : Step Unit :=
  update fun s => s.modifyStore key f

/-- Record an assembled feature, and answer with the one that stays at its location. -/
def insertAssembled (key : ModuleKey) (scope : Scope) (location : String) (f : Feature) :
    Step Feature := do
  let (kept, store) := (← store key).insertAssembled scope location f
  updateStore key fun _ => store
  return kept

/-- Whether an identity is in flight. -/
def isInFlight (id : Identity) : Step Bool := return (← get).inFlight.contains id

def enter (id : Identity) : Step Unit := modify fun p => { p with inFlight := p.inFlight.add id }

def leave (id : Identity) : Step Unit :=
  modify fun p => { p with inFlight := p.inFlight.erase id }

end Step

end FeatureAssembly
