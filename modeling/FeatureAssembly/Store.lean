import FeatureAssembly.Feature
import FeatureAssembly.Scope

/-!
# Stores

What is known of the features of one module, scope by scope: the raw features, the
assembled ones, and whether the scope is processed. Features are kept by location,
because a module may define several.

**The law**: assembled features are never replaced. The first one that is recorded
under a location stays, and `insertAssembled` answers with it.
-/

namespace FeatureAssembly

/-- What is known of the features of one scope. -/
structure ScopeState where
  raw : FeatureMap
  assembled : FeatureMap
  /-- Processing has begun, and perhaps ended. -/
  processed : Bool
deriving DecidableEq

namespace ScopeState

def empty : ScopeState := ⟨.empty, .empty, false⟩

instance : Inhabited ScopeState := ⟨empty⟩

end ScopeState

/-- **The features of one module.** -/
structure FeatureStore where
  main : ScopeState
  test : ScopeState
deriving DecidableEq

namespace FeatureStore

def empty : FeatureStore := ⟨.empty, .empty⟩

instance : Inhabited FeatureStore := ⟨empty⟩

def state (s : FeatureStore) : Scope → ScopeState
  | .main => s.main
  | .test => s.test

def modify (s : FeatureStore) (scope : Scope) (f : ScopeState → ScopeState) : FeatureStore :=
  match scope with
  | .main => { s with main := f s.main }
  | .test => { s with test := f s.test }

theorem state_modify (s : FeatureStore) (scope scope' : Scope) (f : ScopeState → ScopeState) :
    (s.modify scope f).state scope' =
      if scope' = scope then f (s.state scope) else s.state scope' := by
  cases scope <;> cases scope' <;> rfl

/-! ## Reading -/

def raw (s : FeatureStore) (scope : Scope) : FeatureMap := (s.state scope).raw

def assembled (s : FeatureStore) (scope : Scope) : FeatureMap := (s.state scope).assembled

def isProcessed (s : FeatureStore) (scope : Scope) : Bool := (s.state scope).processed

def isAssembled (s : FeatureStore) (scope : Scope) (location : String) : Bool :=
  (s.assembled scope).contains location

/-- The first assembled feature with an identity. -/
def findAssembled? (s : FeatureStore) (scope : Scope) (id : Identity) :
    Option (String × Feature) :=
  FeatureMap.findById? (s.assembled scope) id

/-- The first raw feature with an identity. -/
def findRaw? (s : FeatureStore) (scope : Scope) (id : Identity) : Option (String × Feature) :=
  FeatureMap.findById? (s.raw scope) id

/-! ## Writing -/

def markProcessed (s : FeatureStore) (scope : Scope) : FeatureStore :=
  s.modify scope fun t => { t with processed := true }

def setRaw (s : FeatureStore) (scope : Scope) (features : FeatureMap) : FeatureStore :=
  s.modify scope fun t => { t with raw := features }

/-- Put a raw feature at a location, over an earlier one. -/
def insertRaw (s : FeatureStore) (scope : Scope) (location : String) (f : Feature) :
    FeatureStore :=
  s.modify scope fun t => { t with raw := t.raw.insert location f }

/-- Record an assembled feature, unless there is one at its location. -/
def recordAssembled (s : FeatureStore) (scope : Scope) (location : String) (f : Feature) :
    FeatureStore :=
  s.modify scope fun t => { t with assembled := t.assembled.insertIfNew location f }

/-- Record an assembled feature, unless there is one at its location, and answer with
the one that is there then. -/
def insertAssembled (s : FeatureStore) (scope : Scope) (location : String) (f : Feature) :
    Feature × FeatureStore :=
  (((s.assembled scope).get? location).getD f, s.recordAssembled scope location f)

end FeatureStore

end FeatureAssembly
