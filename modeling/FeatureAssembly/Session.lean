import FeatureAssembly.Diagnostic
import FeatureAssembly.Reactor
import FeatureAssembly.Store

/-!
# Sessions

What a build has come to know: the features of every module, the features that each
module referred to, the dependencies that each module has by now, and the
diagnostics. The modules themselves never change.
-/

namespace FeatureAssembly

/-- **What a build has come to know.** -/
structure Session where
  stores : SortedMap ModuleKey FeatureStore
  /-- The features of others that each module referred to. -/
  references : SortedMap ModuleKey (SortedSet Identity)
  /-- The dependencies of each module: the declared ones, and behind them those that
  were added. -/
  dependencies : SortedMap ModuleKey (List Dependency)
  /-- The diagnostics, in the order in which they were reported. -/
  diagnostics : List Diagnostic
deriving DecidableEq

namespace Session

def start (r : Reactor) : Session :=
  { stores := .empty, references := .empty,
    dependencies := .ofList (r.modules.map fun m => (m.key, m.dependencies)),
    diagnostics := [] }

/-! ## Features -/

def store (s : Session) (key : ModuleKey) : FeatureStore := (s.stores.get? key).getD .empty

def modifyStore (s : Session) (key : ModuleKey) (f : FeatureStore → FeatureStore) : Session :=
  { s with stores := s.stores.insert key (f (s.store key)) }

theorem store_modifyStore (s : Session) (key key' : ModuleKey) (f : FeatureStore → FeatureStore) :
    (s.modifyStore key f).store key' = if key' = key then f (s.store key) else s.store key' := by
  simp only [store, modifyStore, SortedMap.get?_insert, Std.LawfulEqCmp.compare_eq_iff_eq]
  split <;> rfl

/-! ## References and dependencies -/

/-- The features of others that a module referred to, in order. -/
def referencesOf (s : Session) (key : ModuleKey) : SortedSet Identity :=
  (s.references.get? key).getD .empty

/-- Record that a module referred to a feature of another. -/
def recordReference (s : Session) (key : ModuleKey) (id : Identity) : Session :=
  { s with references := s.references.insert key ((s.referencesOf key).add id) }

/-- The dependencies of a module. -/
def dependenciesOf (s : Session) (key : ModuleKey) : List Dependency :=
  (s.dependencies.get? key).getD []

/-- A module with the dependencies that it has by now. -/
def current (s : Session) (m : Module) : Module := m.dependingOn (s.dependenciesOf m.key)

/-- Add a dependency to a module that lacks it. -/
def ensureDependency (s : Session) (key : ModuleKey) (id : Identity) (scope : String) : Session :=
  match s.dependencies.get? key with
  | none => s
  | some listed =>
    { s with dependencies := s.dependencies.insert key (Dependency.ensure key listed id scope) }

/-! ## Diagnostics -/

def report (s : Session) (d : Diagnostic) : Session :=
  { s with diagnostics := s.diagnostics ++ [d] }

def count (s : Session) (kind : DiagnosticKind) : Nat :=
  s.diagnostics.countP fun d => d.kind == kind

/-! ## Bundles from outside -/

/-- The bundles of a store's features that no module owns. Aggregates are left out, for
they have only bundles of other features. -/
def externalBundles (r : Reactor) (store : FeatureStore) : List Identity :=
  Scope.all.flatMap fun scope =>
    ((store.assembled scope).entries.filter fun e => !isAggregateKey e.1).flatMap fun e =>
      e.2.bundles.ids.filter fun id => !r.contains id.moduleKey

/-- **The bundles of all assembled features that no module owns**, in order. -/
def externalArtifacts (s : Session) (r : Reactor) : SortedSet Identity :=
  SortedSet.addAll SortedMap.empty (s.stores.values.flatMap (externalBundles r))

end Session

end FeatureAssembly
