import FeatureAssembly.Proofs.Overlay
import Mathlib.Logic.Function.Basic

/-!
# Artifacts as a table in order

A list of artifacts is searched from the front. What it stands for is a table: identities in an order,
and one artifact under each.

**The law** (`Artifacts.refines_ordered_table`): a list that was collected from artifacts, an empty one
too, answers every sequence of operations as its table does, and stands for the table that they lead to.
In the table an insertion adds an identity at the end or keeps the order, a removal takes one identity
out of it, and either changes what is found under that identity only.

One operation keeps the list and the table in step (`Artifacts.Represents.perform`), so a run of them
does, by induction.

What it does not establish: anything of a list that was decoded. That may repeat an identity, and then
the list stands for no table.
-/

set_option autoImplicit false

namespace FeatureAssembly

/-- What is done to a collection of artifacts, or asked of it. -/
inductive ArtifactOperation where
  | insert (a : Artifact)
  | remove (id : Identity)
  | get (id : Identity)
  | contains (id : Identity)

/-- What an operation answers. -/
inductive ArtifactAnswer where
  | told (yes : Bool)
  | found (a : Option Artifact)
deriving DecidableEq

/-! ## Tables -/

/-- **A table of artifacts in order**: the identities in their order, and what is found under each. -/
structure ArtifactTable where
  order : List Identity
  find : Identity → Option Artifact
  distinct : order.Nodup
  listed : ∀ id, id ∈ order ↔ (find id).isSome = true

namespace ArtifactTable

/-- An identity that is new goes to the end, and one that is there keeps its place. -/
def insert (t : ArtifactTable) (a : Artifact) : ArtifactTable where
  order := if a.id ∈ t.order then t.order else t.order ++ [a.id]
  find := Function.update t.find a.id (some a)
  distinct := by
    split
    · exact t.distinct
    · next absent => exact List.nodup_append.2 ⟨t.distinct, List.nodup_singleton _, by grind⟩
  listed id := by
    by_cases same : id = a.id
    · subst same
      rw [Function.update_self]
      split <;> simp [*]
    · rw [Function.update_of_ne same, ← t.listed]
      split <;> simp [same]

/-- The others keep their order. -/
def erase (t : ArtifactTable) (id : Identity) : ArtifactTable where
  order := t.order.filter fun other => other != id
  find := Function.update t.find id none
  distinct := t.distinct.filter _
  listed other := by
    rw [List.mem_filter, t.listed]
    by_cases same : other = id
    · simp [same]
    · simp [same]

def perform (t : ArtifactTable) : ArtifactOperation → ArtifactAnswer × ArtifactTable
  | .insert a => (.told (t.find a.id).isNone, t.insert a)
  | .remove id => (.found (t.find id), t.erase id)
  | .get id => (.found (t.find id), t)
  | .contains id => (.told (t.find id).isSome, t)

/-- Perform operations in turn. -/
def run (t : ArtifactTable) : List ArtifactOperation → List ArtifactAnswer × ArtifactTable
  | [] => ([], t)
  | op :: ops =>
    let (answer, t) := t.perform op
    let (answers, t) := t.run ops
    (answer :: answers, t)

/-- **The table of some artifacts**: their identities in the order in which they first occur, each with
the last artifact that has it. -/
def collect (l : List Artifact) : ArtifactTable where
  order := (l.map (·.id)).eraseDups
  find := Artifacts.last? l
  distinct := Reactor.nodup_eraseDups _
  listed id := by
    rw [List.mem_eraseDups, Artifacts.last?, List.findRev?_eq_find?_reverse, List.find?_isSome, List.mem_map]
    simp

end ArtifactTable

/-! ## Lists -/

namespace Artifacts

variable {c : Artifacts} {t : ArtifactTable}

/-- Putting an artifact in is inserting it, and its identity is new if it is not there. -/
theorem put_eq (c : Artifacts) (a : Artifact) : c.put a = (!c.contains a.id, c.insert a) := by
  obtain ⟨l⟩ := c
  unfold put contains get? insert
  induction l with
  | nil => rfl
  | cons b rest ih =>
    dsimp only at ih ⊢
    rw [List.findIdx?_cons, List.find?_cons, insertEntry]
    by_cases same : b.id = a.id
    · simp [same]
    · rw [if_neg same, beq_false_of_ne same]
      -- the place in the whole list is one behind that in the rest
      cases place : rest.findIdx? fun b => b.id == a.id <;>
      · rw [place] at ih
        obtain ⟨isNew, there⟩ := Prod.mk.inj ih
        exact Prod.ext isNew (congrArg (fun c : Artifacts => Artifacts.mk (b :: c.entries)) there)

/-- Taking an artifact out is erasing it, and it is the one that is found. -/
theorem take_eq (c : Artifacts) (id : Identity) : c.take id = (c.get? id, c.erase id) := by
  unfold take get? erase
  rw [List.eraseP_eq_eraseIdx, List.find?_eq_bind_findIdx?_getElem?]
  cases c.entries.findIdx? fun a => a.id == id <;> rfl

def perform (c : Artifacts) : ArtifactOperation → ArtifactAnswer × Artifacts
  | .insert a =>
    let (isNew, c) := c.put a
    (.told isNew, c)
  | .remove id =>
    let (removed, c) := c.take id
    (.found removed, c)
  | .get id => (.found (c.get? id), c)
  | .contains id => (.told (c.contains id), c)

/-- Perform operations in turn. -/
def run (c : Artifacts) : List ArtifactOperation → List ArtifactAnswer × Artifacts
  | [] => ([], c)
  | op :: ops =>
    let (answer, c) := c.perform op
    let (answers, c) := c.run ops
    (answer :: answers, c)

/-- **A list represents a table**: it has the identities in their order, and finds what the table does. -/
structure Represents (c : Artifacts) (t : ArtifactTable) : Prop where
  order : c.ids = t.order
  find : ∀ id, c.get? id = t.find id

theorem Represents.distinct (h : c.Represents t) : c.ids.Nodup := by
  rw [h.order]
  exact t.distinct

theorem Represents.insert (h : c.Represents t) (a : Artifact) : (c.insert a).Represents (t.insert a) where
  order := by
    rw [ids_insert, h.order]
    rfl
  find id := by
    rw [get?_insert, h.find]
    show _ = Function.update t.find a.id (some a) id
    rw [Function.update_apply]
    simp only [eq_comm]

theorem Represents.erase (h : c.Represents t) (id : Identity) : (c.erase id).Represents (t.erase id) where
  order := by
    show (c.erase id).entries.map _ = t.order.filter _
    rw [entries_erase h.distinct, ← h.order, ids, List.filter_map]
    rfl
  find other := by
    show (c.erase id).entries.find? _ = Function.update t.find id none other
    rw [entries_erase h.distinct, List.find?_filter]
    by_cases same : other = id
    · subst same
      rw [Function.update_self, List.find?_eq_none]
      exact fun a _ => by simp
    · rw [Function.update_of_ne same, ← h.find, get?]
      congr 1
      funext a
      by_cases here : a.id = other <;> simp [here, same]

/-- **One operation** gets the same answer from a list and its table, and keeps them in step. -/
theorem Represents.perform (h : c.Represents t) (op : ArtifactOperation) :
    (c.perform op).1 = (t.perform op).1 ∧ (c.perform op).2.Represents (t.perform op).2 := by
  cases op with
  | insert a =>
    rw [Artifacts.perform, put_eq, ArtifactTable.perform, contains, h.find]
    exact ⟨by simp, h.insert a⟩
  | remove id =>
    rw [Artifacts.perform, take_eq, ArtifactTable.perform, h.find]
    exact ⟨rfl, h.erase id⟩
  | get id => exact ⟨congrArg ArtifactAnswer.found (h.find id), h⟩
  | contains id =>
    rw [Artifacts.perform, ArtifactTable.perform, contains, h.find]
    exact ⟨rfl, h⟩

/-- **A run of operations** does, too. -/
theorem Represents.run (h : c.Represents t) (ops : List ArtifactOperation) :
    (c.run ops).1 = (t.run ops).1 ∧ (c.run ops).2.Represents (t.run ops).2 := by
  induction ops generalizing c t with
  | nil => exact ⟨rfl, h⟩
  | cons op ops ih =>
    obtain ⟨answer, next⟩ := h.perform op
    obtain ⟨answers, last⟩ := ih next
    exact ⟨congrArg₂ List.cons answer answers, last⟩

/-- A list that was collected represents the table of what it was collected from. -/
theorem represents_ofList (l : List Artifact) : (ofList l).Represents (.collect l) where
  order := by
    refine (ids_insertAll empty l).trans ?_
    simp [ids, empty, List.removeAll, ArtifactTable.collect]
  find id := (get?_insertAll empty l id).trans (Option.or_none)

/-- **A list of artifacts is a table in order.** What was collected from some artifacts, and what is
empty, has their identities in the order in which they first occur, each with its last artifact. It
answers all operations as its table does, and afterwards it has the identities of the table in their
order, each once, and the artifacts under them. -/
theorem refines_ordered_table (l : List Artifact) (ops : List ArtifactOperation) :
    ((ofList l).entries = (ArtifactTable.collect l).order.filterMap (ArtifactTable.collect l).find ∧
      ofList [] = empty) ∧
    ((ofList l).run ops).1 = ((ArtifactTable.collect l).run ops).1 ∧
    ((ofList l).run ops).2.Represents ((ArtifactTable.collect l).run ops).2 ∧
    ((ofList l).run ops).2.ids.Nodup ∧
    ((ofList l).run ops).2.entries =
      ((ArtifactTable.collect l).run ops).2.order.filterMap ((ArtifactTable.collect l).run ops).2.find := by
  have entries : ∀ {c : Artifacts} {t : ArtifactTable}, c.Represents t → c.entries = t.order.filterMap t.find := by
    intro c t h
    rw [entries_eq h.distinct, h.order]
    exact List.filterMap_congr fun id _ => h.find id
  obtain ⟨answers, after⟩ := (represents_ofList l).run ops
  exact ⟨⟨entries (represents_ofList l), rfl⟩, answers, after, after.distinct, entries after⟩

end Artifacts

end FeatureAssembly
