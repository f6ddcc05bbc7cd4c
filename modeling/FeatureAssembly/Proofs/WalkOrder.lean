import FeatureAssembly.Files.FileSystem
import FeatureAssembly.Proofs.ByteOrder
import FeatureAssembly.Proofs.SortedMap

/-!
# The order of a walk

What a walk through a directory meets, and when.

**The laws**: where the entries of all directories ascend by name (`FileNode.Ordered`), a walk meets
exactly what lies at some names below its start (`FileNode.mem_nodes_iff`), and it meets them in the
order of these names, compared one by one from the first on (`FileNode.pairwise_nodes`).

That is not the order of the paths as texts. A slash between two names counts as a character there, and
comes behind some characters of names: `a-b` is before `a/b` as a text, and behind it on a walk.
-/

set_option autoImplicit false

namespace FeatureAssembly

/-- **The order of a walk**: names are compared one by one, each by its bytes, and what lies at some
names is met before all that lies below. -/
def WalkedBefore : List String → List String → Prop :=
  List.Lex fun name name' => Text.bytes name < Text.bytes name'

section WalkedBefore

variable {names names' : List String}

theorem walkedBefore_below (names : List String) (name : String) (rest : List String) :
    WalkedBefore names (names ++ name :: rest) := by
  induction names with
  | nil => exact .nil
  | cons first names ih => exact .cons ih

/-- All that is below one name is met before all that is below a later one. -/
theorem walkedBefore_of_lt {name name' : String} (h : compare name name' = .lt) (above rest rest' : List String) :
    WalkedBefore (above ++ name :: rest) (above ++ name' :: rest') := by
  have before : name < name' := compareOfLessAndEq_eq_lt.1 h
  induction above with
  | nil => exact .rel (Text.lt_iff_bytes_lt.1 before)
  | cons first above ih => exact .cons ih

theorem WalkedBefore.asymm (h : WalkedBefore names names') : ¬ WalkedBefore names' names := by
  induction h with
  | nil => exact nofun
  | cons _ ih =>
    intro back
    cases back with
    | cons back => exact ih back
    | rel back => exact List.lt_irrefl _ back
  | rel first =>
    intro back
    cases back with
    | cons => exact List.lt_irrefl _ first
    | rel back => exact List.lt_asymm first back

end WalkedBefore

namespace FileNode

mutual

/-- **Entries ascend by name**, in a directory and in all directories below. -/
def Ordered : FileNode → Prop
  | .file _ => True
  | .directory entries => KeysAscend entries ∧ OrderedIn entries

def OrderedIn : List (String × FileNode) → Prop
  | [] => True
  | (_, n) :: rest => Ordered n ∧ OrderedIn rest

end

theorem orderedIn_iff {entries : List (String × FileNode)} : OrderedIn entries ↔ ∀ e ∈ entries, e.2.Ordered := by
  induction entries with
  | nil => exact ⟨nofun, fun _ => trivial⟩
  | cons e entries ih =>
    obtain ⟨name, n⟩ := e
    rw [OrderedIn, ih, List.forall_mem_cons]

theorem Ordered.of_at? {names : List String} {n below : FileNode} (ordered : n.Ordered)
    (found : n.at? names = some below) : below.Ordered := by
  induction names generalizing n with
  | nil =>
    cases found
    exact ordered
  | cons name rest ih =>
    cases n with
    | file _ => cases found
    | directory entries =>
      obtain ⟨next, there, found⟩ := Option.bind_eq_some_iff.1 found
      exact ih (orderedIn_iff.1 ordered.2 _ (SortedMap.mem_of_lookupEntry there)) found

mutual

/-- **A node and all nodes below it**, with the names that lead to them. -/
def nodes (above : List String) : FileNode → List (List String × FileNode)
  | .file content => [(above, .file content)]
  | .directory entries => (above, .directory entries) :: nodesIn above entries

def nodesIn (above : List String) : List (String × FileNode) → List (List String × FileNode)
  | [] => []
  | (name, n) :: rest => nodes (above ++ [name]) n ++ nodesIn above rest

end

mutual

/-- **A walk meets the nodes below names.** -/
theorem mem_nodes_iff {n m : FileNode} (ordered : n.Ordered) {above names : List String} :
    (names, m) ∈ n.nodes above ↔ ∃ below, names = above ++ below ∧ n.at? below = some m := by
  cases n with
  | file content =>
    simp only [nodes, List.mem_singleton, Prod.mk.injEq]
    constructor
    · rintro ⟨rfl, rfl⟩
      exact ⟨[], (List.append_nil _).symm, rfl⟩
    · rintro ⟨below, rfl, found⟩
      cases below with
      | nil => exact ⟨List.append_nil _, (Option.some.inj found).symm⟩
      | cons name rest => cases found
  | directory entries =>
    obtain ⟨ascend, ordered⟩ := ordered
    rw [nodes, List.mem_cons, mem_nodesIn_iff ordered]
    constructor
    · rintro (here | ⟨name, n, rest, listed, rfl, found⟩)
      · cases here
        exact ⟨[], (List.append_nil _).symm, rfl⟩
      · refine ⟨name :: rest, rfl, ?_⟩
        rw [at?, (SortedMap.lookupEntry_eq_some_iff ascend).2 listed]
        exact found
    · rintro ⟨below, rfl, found⟩
      cases below with
      | nil =>
        cases found
        exact .inl (by rw [List.append_nil])
      | cons name rest =>
        obtain ⟨n, there, found⟩ := Option.bind_eq_some_iff.1 found
        exact .inr ⟨name, n, rest, SortedMap.mem_of_lookupEntry there, rfl, found⟩
termination_by structural n

theorem mem_nodesIn_iff {entries : List (String × FileNode)} {m : FileNode} (ordered : OrderedIn entries)
    {above names : List String} :
    (names, m) ∈ nodesIn above entries ↔
      ∃ name n rest, (name, n) ∈ entries ∧ names = above ++ name :: rest ∧ n.at? rest = some m := by
  cases entries with
  | nil => simp [nodesIn]
  | cons e entries =>
    obtain ⟨name, n⟩ := e
    obtain ⟨first, ordered⟩ := ordered
    rw [nodesIn, List.mem_append, mem_nodes_iff first, mem_nodesIn_iff ordered]
    constructor
    · rintro (⟨rest, rfl, found⟩ | ⟨name', n', rest, listed, rfl, found⟩)
      · exact ⟨name, n, rest, List.mem_cons_self, List.append_assoc .., found⟩
      · exact ⟨name', n', rest, List.mem_cons_of_mem _ listed, rfl, found⟩
    · rintro ⟨name', n', rest, listed, rfl, found⟩
      rcases List.mem_cons.1 listed with same | listed
      · cases same
        exact .inl ⟨rest, List.append_cons .., found⟩
      · exact .inr ⟨name', n', rest, listed, rfl, found⟩
termination_by structural entries

end

mutual

/-- **A walk goes by names.** -/
theorem pairwise_nodes {n : FileNode} (ordered : n.Ordered) (above : List String) :
    (n.nodes above).Pairwise fun x y => WalkedBefore x.1 y.1 := by
  cases n with
  | file content => exact List.pairwise_singleton _ _
  | directory entries =>
    obtain ⟨ascend, ordered⟩ := ordered
    rw [nodes]
    refine List.pairwise_cons.2 ⟨fun x hx => ?_, pairwise_nodesIn ascend ordered above⟩
    obtain ⟨names, m⟩ := x
    obtain ⟨name, n, rest, -, rfl, -⟩ := (mem_nodesIn_iff ordered).1 hx
    exact walkedBefore_below above name rest
termination_by structural n

theorem pairwise_nodesIn {entries : List (String × FileNode)} (ascend : KeysAscend entries)
    (ordered : OrderedIn entries) (above : List String) :
    (nodesIn above entries).Pairwise fun x y => WalkedBefore x.1 y.1 := by
  cases entries with
  | nil => exact .nil
  | cons e entries =>
    obtain ⟨name, n⟩ := e
    obtain ⟨first, ordered⟩ := ordered
    obtain ⟨least, ascend⟩ := List.pairwise_cons.1 ascend
    rw [nodesIn]
    refine List.pairwise_append.2
      ⟨pairwise_nodes first _, pairwise_nodesIn ascend ordered above, fun x hx y hy => ?_⟩
    obtain ⟨names, m⟩ := x
    obtain ⟨names', m'⟩ := y
    obtain ⟨rest, rfl, -⟩ := (mem_nodes_iff first).1 hx
    obtain ⟨name', n', rest', listed, rfl, -⟩ := (mem_nodesIn_iff ordered).1 hy
    rw [List.append_assoc]
    exact walkedBefore_of_lt (least _ listed) above rest rest'
termination_by structural entries

end

/-! ## Visits -/

/-- The visit of a node that lies at some names below a start. -/
def visitOf (start : String) : List String × FileNode → Visit
  | (names, .file content) => .file (names.foldl Path.join start) names content
  | (names, .directory _) => .directory (names.foldl Path.join start)

mutual

/-- A walk visits nodes at the paths that their names make. -/
theorem visits_eq (start : String) (above : List String) (n : FileNode) :
    n.visits (above.foldl Path.join start) above = (n.nodes above).map (visitOf start) := by
  cases n with
  | file content => rfl
  | directory entries =>
    rw [visits, nodes, List.map_cons, visitsIn_eq]
    rfl
termination_by structural n

theorem visitsIn_eq (start : String) (above : List String) (entries : List (String × FileNode)) :
    visitsIn (above.foldl Path.join start) above entries = (nodesIn above entries).map (visitOf start) := by
  cases entries with
  | nil => rfl
  | cons e entries =>
    obtain ⟨name, n⟩ := e
    have inner : Path.join (above.foldl Path.join start) name = (above ++ [name]).foldl Path.join start := by
      rw [List.foldl_append]
      rfl
    rw [visitsIn, nodesIn, List.map_append, inner, visits_eq start (above ++ [name]) n, visitsIn_eq]
termination_by structural entries

end

end FileNode

end FeatureAssembly
