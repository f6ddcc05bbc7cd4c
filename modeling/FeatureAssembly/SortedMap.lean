/-!
# Sorted maps

A finite map whose entries are listed in strictly ascending key order. Every
table of the library whose order an answer can show is one of these: raw and
assembled features by location, extensions by name, variables by name,
aggregates by module.

**The law**: a map is its list of entries, and the list is strictly sorted.
So the order of the entries never depends on the order of the insertions, and a
look-up after an insertion answers from the inserted entry or from the rest
(`get?_insert`).

What it does not establish: any bound on cost. Look-up and insertion walk the
list.
-/

namespace FeatureAssembly

/-- The strict key order of a list of entries. -/
abbrev KeysAscend {κ : Type} [Ord κ] {α : Type} (entries : List (κ × α)) : Prop :=
  entries.Pairwise fun a b => compare a.1 b.1 = .lt

/-- **A finite map in key order.** -/
structure SortedMap (κ : Type) [Ord κ] (α : Type) where
  /-- The entries, by ascending key. -/
  entries : List (κ × α)
  /-- No key occurs twice, and the keys ascend. -/
  ascend : KeysAscend entries
deriving DecidableEq

namespace SortedMap

variable {κ α β : Type} [Ord κ]

/-! ## Entry lists -/

/-- Put a value under a key: over the entry that has the key, or at its place in
the order. -/
def insertEntry (k : κ) (v : α) : List (κ × α) → List (κ × α)
  | [] => [(k, v)]
  | e :: rest =>
    match compare k e.1 with
    | .lt => (k, v) :: e :: rest
    | .eq => (e.1, v) :: rest
    | .gt => e :: insertEntry k v rest

/-- The value under a key. -/
def lookupEntry (k : κ) : List (κ × α) → Option α
  | [] => none
  | e :: rest =>
    match compare k e.1 with
    | .eq => some e.2
    | _ => lookupEntry k rest

theorem mem_insertEntry {k : κ} {v : α} {e : κ × α} {l : List (κ × α)}
    (h : e ∈ insertEntry k v l) : e.1 = k ∨ ∃ e' ∈ l, e'.1 = e.1 := by
  induction l with
  | nil => simp only [insertEntry, List.mem_singleton] at h; exact .inl (by rw [h])
  | cons d rest ih =>
    rw [insertEntry] at h
    split at h
    · rcases List.mem_cons.1 h with h | h
      · exact .inl (by rw [h])
      · exact .inr ⟨e, h, rfl⟩
    · rcases List.mem_cons.1 h with h | h
      · exact .inr ⟨d, List.mem_cons_self, by rw [h]⟩
      · exact .inr ⟨e, List.mem_cons_of_mem _ h, rfl⟩
    · rcases List.mem_cons.1 h with h | h
      · exact .inr ⟨d, List.mem_cons_self, by rw [h]⟩
      · rcases ih h with h | ⟨e', h', he⟩
        · exact .inl h
        · exact .inr ⟨e', List.mem_cons_of_mem _ h', he⟩

theorem keysAscend_insertEntry [Std.TransOrd κ] (k : κ) (v : α) {l : List (κ × α)}
    (h : KeysAscend l) : KeysAscend (insertEntry k v l) := by
  induction l with
  | nil => simp [insertEntry]
  | cons e rest ih =>
    obtain ⟨hd, tl⟩ := List.pairwise_cons.1 h
    rw [insertEntry]
    split
    · next hk =>
      refine List.pairwise_cons.2 ⟨fun d hmem => ?_, h⟩
      rcases List.mem_cons.1 hmem with rfl | hmem
      · exact hk
      · exact Std.TransCmp.lt_trans hk (hd d hmem)
    · exact List.pairwise_cons.2 ⟨hd, tl⟩
    · next hk =>
      refine List.pairwise_cons.2 ⟨fun d hmem => ?_, ih tl⟩
      rcases mem_insertEntry hmem with hmem | ⟨d', hmem, hd'⟩
      · rw [hmem]; exact Std.OrientedCmp.gt_iff_lt.1 hk
      · rw [← hd']; exact hd d' hmem

/-! ## Operations -/

def empty : SortedMap κ α := ⟨[], .nil⟩

instance : EmptyCollection (SortedMap κ α) := ⟨empty⟩
instance : Inhabited (SortedMap κ α) := ⟨empty⟩

def get? (m : SortedMap κ α) (k : κ) : Option α := lookupEntry k m.entries

def contains (m : SortedMap κ α) (k : κ) : Bool := (m.get? k).isSome

/-- Put a value under a key, over an earlier one. -/
def insert [Std.TransOrd κ] (m : SortedMap κ α) (k : κ) (v : α) : SortedMap κ α :=
  ⟨insertEntry k v m.entries, keysAscend_insertEntry k v m.ascend⟩

/-- Put a value under a key that has none; an earlier value stays. -/
def insertIfNew [Std.TransOrd κ] (m : SortedMap κ α) (k : κ) (v : α) : SortedMap κ α :=
  if m.contains k then m else m.insert k v

def erase (m : SortedMap κ α) (k : κ) : SortedMap κ α :=
  ⟨m.entries.filter fun e => compare k e.1 != .eq, m.ascend.filter _⟩

/-- Put all entries of a list, in turn: the last value of a key stays. -/
def insertAll [Std.TransOrd κ] (m : SortedMap κ α) (entries : List (κ × α)) : SortedMap κ α :=
  entries.foldl (fun m e => m.insert e.1 e.2) m

/-- The map of a list of entries, in which the last value of a key stays. -/
def ofList [Std.TransOrd κ] (entries : List (κ × α)) : SortedMap κ α := empty.insertAll entries

def toList (m : SortedMap κ α) : List (κ × α) := m.entries

def keys (m : SortedMap κ α) : List κ := m.entries.map (·.1)

/-- The values, by ascending key. -/
def values (m : SortedMap κ α) : List α := m.entries.map (·.2)

def size (m : SortedMap κ α) : Nat := m.entries.length

def isEmpty (m : SortedMap κ α) : Bool := m.entries.isEmpty

/-! ## The view by look-up -/

@[simp] theorem get?_empty (k : κ) : (empty : SortedMap κ α).get? k = none := rfl

theorem lookupEntry_insertEntry [Std.TransOrd κ] (k : κ) (v : α) (k' : κ) (l : List (κ × α)) :
    lookupEntry k' (insertEntry k v l) =
      if compare k' k = .eq then some v else lookupEntry k' l := by
  induction l with
  | nil =>
    simp only [insertEntry, lookupEntry]
    cases compare k' k <;> simp
  | cons e rest ih =>
    rw [insertEntry]
    split
    · rw [lookupEntry]
      cases h : compare k' k <;> simp
    · next hk =>
      have : compare k' e.1 = compare k' k := (Std.TransCmp.congr_right hk).symm
      rw [lookupEntry, lookupEntry, this]
      cases h : compare k' k <;> simp
    · next hk =>
      rw [lookupEntry, ih]
      by_cases h : compare k' k = .eq
      · rw [if_pos h, if_pos h, Std.TransCmp.congr_left h, hk]
      · rw [if_neg h, if_neg h, lookupEntry]

theorem get?_insert [Std.TransOrd κ] (m : SortedMap κ α) (k : κ) (v : α) (k' : κ) :
    (m.insert k v).get? k' = if compare k' k = .eq then some v else m.get? k' :=
  lookupEntry_insertEntry k v k' m.entries

end SortedMap

/-- **A finite set in order**: a map without values. -/
abbrev SortedSet (κ : Type) [Ord κ] : Type := SortedMap κ Unit

namespace SortedSet

variable {κ : Type} [Ord κ]

def add [Std.TransOrd κ] (s : SortedSet κ) (k : κ) : SortedSet κ := s.insert k ()

def addAll [Std.TransOrd κ] (s : SortedSet κ) (l : List κ) : SortedSet κ := l.foldl add s

end SortedSet

end FeatureAssembly
