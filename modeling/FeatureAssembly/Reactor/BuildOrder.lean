import FeatureAssembly.Reactor

/-!
# The build order

The order in which modules are built: each one behind all modules that it depends
on, and of those that could come next always the one that is declared first. Each
module has a count of the build dependencies it still waits for; when a module is
taken into the order, the counts of its dependents fall, and those that reach zero
become ready.

If some modules wait for each other, there is no such order, and the members of
one cyclic component are reported. Components are found by two depth-first walks: one
along the build dependencies, and one against them that starts from the modules
backwards from the end of the first. The one that is reported is the first that has a
cycle, with its members in the order of their declaration.

Modules are named by their positions in the declaration.
-/

namespace FeatureAssembly.Reactor

/-! ## The graph of positions -/

/-- The positions of the modules that a module depends on, in the order of their
first mention. -/
def dependencyPositions (r : Reactor) (position : Nat) : List Nat :=
  match r.modules[position]? with
  | none => []
  | some m => (m.dependsOn.filterMap fun d => r.modules.findIdx? fun n => n.key == d).eraseDups

def positions (r : Reactor) : List Nat := List.range r.modules.length

/-- The positions of the modules that depend on a module. -/
def dependentPositions (r : Reactor) (position : Nat) : List Nat :=
  r.positions.filter fun p => (r.dependencyPositions p).contains position

def keysAt (r : Reactor) (positions : List Nat) : List ModuleKey :=
  positions.filterMap fun p => (r.modules[p]?).map Module.key

/-! ## Taking modules into the order -/

/-- The modules that are not taken yet: how many dependencies each still waits for,
by position, and the positions of those that wait for none, ascending. -/
structure Pending where
  waiting : List Nat
  ready : List Nat

/-- Put a position into an ascending list. -/
def insertAscending (p : Nat) : List Nat → List Nat
  | [] => [p]
  | q :: rest => if p < q then p :: q :: rest else q :: insertAscending p rest

/-- One dependency of a module is taken: its count falls by one, and at zero it is
ready. -/
def Pending.release (s : Pending) (position : Nat) : Pending :=
  let count := s.waiting.getD position 0 - 1
  { waiting := s.waiting.set position count
    ready := if count = 0 then insertAscending position s.ready else s.ready }

/-- Take modules while one is ready, at most a number of them. -/
def takeReady (dependents : Nat → List Nat) : Nat → Pending → List Nat
  | 0, _ => []
  | bound + 1, s =>
    match s.ready with
    | [] => []
    | p :: rest =>
      p :: takeReady dependents bound ((dependents p).foldl Pending.release { s with ready := rest })

def pending (r : Reactor) : Pending :=
  let waiting := r.positions.map fun p => (r.dependencyPositions p).length
  { waiting, ready := r.positions.filter fun p => waiting.getD p 0 == 0 }

/-- The positions that can be taken, in order. -/
def takeable (r : Reactor) : List Nat :=
  takeReady r.dependentPositions r.modules.length r.pending

/-! ## Cycles -/

/-- What a depth-first walk has met, and what it has left behind, last one first. -/
structure Walk where
  met : List Nat
  left : List Nat

/-- Walk along edges from a position that is not met yet. The bound on the depth is
never reached if it exceeds the number of positions. -/
def walkFrom (edges : Nat → List Nat) : Nat → Walk → Nat → Walk
  | 0, w, _ => w
  | depth + 1, w, p =>
    if w.met.contains p then w
    else
      let w := (edges p).foldl (walkFrom edges depth) { w with met := p :: w.met }
      { w with left := p :: w.left }

/-- All positions, backwards from the end of a walk along the dependencies. -/
def walkOrder (r : Reactor) : List Nat :=
  (r.positions.foldl (walkFrom r.dependencyPositions (r.modules.length + 1)) ⟨[], []⟩).left

/-- One more component, unless the position is in one already: what a walk along dependents
meets, apart from the components that were found. -/
def addComponent (r : Reactor) (found : List (List Nat)) (position : Nat) : List (List Nat) :=
  if found.flatten.contains position then found
  else
    let walk := walkFrom r.dependentPositions (r.modules.length + 1) ⟨found.flatten, []⟩ position
    found ++ [walk.left]

/-- **The components**: the members of each depend on each other, perhaps through others. -/
def components (r : Reactor) : List (List Nat) := r.walkOrder.foldl r.addComponent []

/-- Whether there is a cycle in a component: it has several members, or the one that it has
depends on itself. -/
def isCyclic (r : Reactor) (component : List Nat) : Bool :=
  1 < component.length || component.head?.any fun p => (r.dependencyPositions p).contains p

def ascending (positions : List Nat) : List Nat := positions.foldr insertAscending []

/-- The members of the component that is reported: the first with a cycle. -/
def cycleMembers (r : Reactor) : List Nat :=
  ascending ((r.components.find? r.isCyclic).getD [])

/-- **The order in which the modules are built.** -/
def buildOrder (r : Reactor) : Except ReactorError (List ModuleKey) :=
  if r.takeable.length < r.modules.length then .error (.cycle (r.keysAt r.cycleMembers))
  else .ok (r.keysAt r.takeable)

end FeatureAssembly.Reactor
