import FeatureAssembly.Files.FileSystem
import FeatureAssembly.Proofs.Coordinates

/-!
# Joined paths

Paths that are put together of names.

**The law** (`Path.parts_foldl_join`): where names are joined to a path, one after the other, the parts
of what comes out are those of the path, and behind them the names. So different names make different
paths (`Path.foldl_join_injective`). Names with slashes between them are joined as if one after the
other (`Path.join_eq_foldl`).

A slash at the end of a path does not count, and the empty path has no parts (`Path.leading`).

What it does not establish: what the paths lead to. That is up to the file system.
-/

set_option autoImplicit false

namespace FeatureAssembly.Path

open Text

/-- **A plain name**: the name of an entry of a directory, and no way through directories. -/
structure Plain (name : String) : Prop where
  nonempty : name ≠ ""
  not_here : name ≠ "."
  not_above : name ≠ ".."
  flat : hasChar '/' name = false

instance (name : String) : Decidable (Plain name) :=
  decidable_of_iff (name ≠ "" ∧ name ≠ "." ∧ name ≠ ".." ∧ hasChar '/' name = false)
    ⟨fun ⟨h, h', h'', h'''⟩ => ⟨h, h', h'', h'''⟩, fun ⟨h, h', h'', h'''⟩ => ⟨h, h', h'', h'''⟩⟩

/-- What can be a component of a repository path is a plain name. -/
theorem plain_of_isPathComponent {name : String} (h : isPathComponent name = true) : Plain name := by
  simp only [isPathComponent, Bool.and_eq_true, bne_iff_ne, Bool.not_eq_true'] at h
  obtain ⟨⟨⟨⟨nonempty, not_here⟩, not_above⟩, flat⟩, -⟩ := h
  exact ⟨nonempty, not_here, not_above, flat⟩

/-- The parts of a path, but for an empty one at the end. -/
def leading (p : String) : List String :=
  if p = "" then [] else if endsWithSlash p then (parts p).dropLast else parts p

variable {p name : String}

/-! ## One name -/

theorem parts_of_plain (h : Plain name) : parts name = [name] := segments_of_flat h.flat

/-- A path is absolute if it begins with a slash. -/
theorem isAbsolute_iff (p : String) : isAbsolute p = true ↔ p.toList.head? = some '/' := by
  unfold isAbsolute startsWith stripLeading?
  have slash : "/".toList = ['/'] := rfl
  rw [slash]
  cases p.toList with
  | nil => simp
  | cons c rest =>
    by_cases same : c = '/'
    · simp [same, List.isPrefixOf]
    · simp [same, Ne.symm same, List.isPrefixOf]

theorem not_isAbsolute_of_plain (h : Plain name) : isAbsolute name = false := by
  rw [← Bool.not_eq_true, isAbsolute_iff]
  exact fun head => hasChar_eq_false.1 h.flat (List.mem_of_head? head)

theorem not_endsWithSlash_of_plain (h : Plain name) (base : String) : endsWithSlash (base ++ name) = false := by
  have flat := hasChar_eq_false.1 h.flat
  have some_char : name.toList ≠ [] := by simpa using h.nonempty
  unfold endsWithSlash
  rw [String.toList_append, List.getLast?_append, beq_eq_false_iff_ne]
  cases hl : name.toList.getLast? with
  | none => exact absurd (List.getLast?_eq_none_iff.1 hl) some_char
  | some c =>
    rintro ⟨⟩
    exact flat (List.mem_of_getLast? hl)

/-- The parts before a slash and behind it. -/
theorem parts_append_slash (a b : String) : parts (a ++ "/" ++ b) = parts a ++ parts b :=
  segments_append '/' a b

/-- A path with slashes at its end is one with a slash behind it. -/
theorem exists_of_endsWithSlash (h : endsWithSlash p = true) : ∃ a, p = a ++ "/" := by
  unfold endsWithSlash at h
  have last : p.toList.getLast? = some '/' := eq_of_beq h
  obtain ⟨front, split⟩ := List.getLast?_eq_some_iff.1 last
  refine ⟨String.ofList front, ?_⟩
  rw [← String.ofList_toList (s := p), split, String.ofList_append]

/-- **A plain name that is joined to a path** is one more part. -/
theorem parts_join (h : Plain name) (p : String) : parts (join p name) = leading p ++ [name] := by
  unfold join leading
  rw [not_isAbsolute_of_plain h, if_neg Bool.false_ne_true]
  by_cases empty : p = ""
  · subst empty
    simpa using parts_of_plain h
  · rw [if_neg empty]
    cases slash : endsWithSlash p with
    | false =>
      rw [if_neg (by simpa using empty), if_neg Bool.false_ne_true, parts_append_slash, parts_of_plain h]
    | true =>
      obtain ⟨a, rfl⟩ := exists_of_endsWithSlash slash
      have behind : parts (a ++ "/") = parts a ++ [""] := by
        have split := parts_append_slash a ""
        rw [String.append_empty] at split
        exact split
      rw [if_pos (by simp), if_pos rfl, parts_append_slash, parts_of_plain h, behind, List.dropLast_concat]

theorem join_ne_empty (h : Plain name) (p : String) : join p name ≠ "" := by
  unfold join
  rw [not_isAbsolute_of_plain h, if_neg Bool.false_ne_true]
  have nonempty := h.nonempty
  split <;> simp [nonempty]

theorem not_endsWithSlash_join (h : Plain name) (p : String) : endsWithSlash (join p name) = false := by
  unfold join
  rw [not_isAbsolute_of_plain h, if_neg Bool.false_ne_true]
  split
  · exact not_endsWithSlash_of_plain h p
  · exact not_endsWithSlash_of_plain h (p ++ "/")

theorem leading_join (h : Plain name) (p : String) : leading (join p name) = leading p ++ [name] := by
  rw [← parts_join h p]
  unfold leading
  rw [if_neg (join_ne_empty h p), not_endsWithSlash_join h, if_neg Bool.false_ne_true]

/-- A path starts where it did when a name is joined to it. -/
theorem isAbsolute_join (h : Plain name) (p : String) : isAbsolute (join p name) = isAbsolute p := by
  have local_ := not_isAbsolute_of_plain h
  by_cases empty : p = ""
  · subst empty
    unfold join
    rw [local_, if_neg Bool.false_ne_true, if_pos (by simp), String.empty_append, local_]
    rfl
  · have nonempty : p.toList ≠ [] := by simpa using empty
    obtain ⟨c, rest, hp⟩ := List.exists_cons_of_ne_nil nonempty
    refine Bool.eq_iff_iff.2 ?_
    rw [isAbsolute_iff, isAbsolute_iff]
    unfold join
    rw [local_, if_neg Bool.false_ne_true]
    split <;> simp [hp]

/-! ## Several names -/

variable {names names' : List String}

theorem leading_foldl_join (h : ∀ name ∈ names, Plain name) (p : String) :
    leading (names.foldl join p) = leading p ++ names := by
  induction names generalizing p with
  | nil => simp
  | cons name rest ih =>
    rw [List.foldl_cons, ih (fun n hn => h n (List.mem_cons_of_mem name hn)),
      leading_join (h name List.mem_cons_self), List.append_assoc]
    rfl

theorem isAbsolute_foldl_join (h : ∀ name ∈ names, Plain name) (p : String) :
    isAbsolute (names.foldl join p) = isAbsolute p := by
  induction names generalizing p with
  | nil => rfl
  | cons name rest ih =>
    rw [List.foldl_cons, ih (fun n hn => h n (List.mem_cons_of_mem name hn)),
      isAbsolute_join (h name List.mem_cons_self)]

/-- **Plain names that are joined to a path** are its last parts. -/
theorem parts_foldl_join (h : ∀ name ∈ names, Plain name) (ne : names ≠ []) (p : String) :
    parts (names.foldl join p) = leading p ++ names := by
  obtain ⟨front, last, rfl⟩ := (List.eq_nil_or_concat names).resolve_left ne
  rw [List.concat_eq_append] at h ⊢
  have plain : Plain last := h last (by simp)
  rw [List.foldl_append, List.foldl_cons, List.foldl_nil, parts_join plain,
    leading_foldl_join (fun n hn => h n (List.mem_append_left _ hn)), List.append_assoc]

/-- **Different names make different paths.** -/
theorem foldl_join_injective (h : ∀ name ∈ names, Plain name) (h' : ∀ name ∈ names', Plain name)
    (same : names.foldl join p = names'.foldl join p) : names = names' := by
  have parts := congrArg leading same
  rw [leading_foldl_join h, leading_foldl_join h'] at parts
  exact List.append_cancel_left parts

/-- **A path strictly below another one**: it has plain names behind it. -/
def Below (base p : String) : Prop :=
  ∃ names, names ≠ [] ∧ (∀ name ∈ names, Plain name) ∧ p = names.foldl join base

/-! ## Names with slashes between them -/

/-- What begins with a plain name does not start at the root. -/
theorem not_isAbsolute_append (h : Plain name) (rest : String) : isAbsolute (name ++ rest) = false := by
  obtain ⟨c, cs, chars⟩ := List.exists_cons_of_ne_nil (l := name.toList) (by simpa using h.nonempty)
  rw [← Bool.not_eq_true, isAbsolute_iff]
  intro head
  refine hasChar_eq_false.1 h.flat ?_
  simp only [String.toList_append, chars, List.cons_append, List.head?_cons, Option.some.injEq] at head
  rw [chars, head]
  exact List.mem_cons_self

/-- A plain name and what stands behind it may be joined one after the other. -/
theorem join_join {rest : String} (h : Plain name) (local_ : isAbsolute rest = false) (p : String) :
    join (join p name) rest = join p (name ++ "/" ++ rest) := by
  have local' : isAbsolute (name ++ "/" ++ rest) = false := by
    rw [String.append_assoc]
    exact not_isAbsolute_append h _
  have behind : join (join p name) rest = join p name ++ "/" ++ rest := by
    rw [join, local_, if_neg Bool.false_ne_true, if_neg]
    simp [join_ne_empty h, not_endsWithSlash_join h]
  rw [behind, join, join, local', not_isAbsolute_of_plain h, if_neg Bool.false_ne_true,
    if_neg Bool.false_ne_true]
  split <;> simp only [String.append_assoc]

theorem not_isAbsolute_joinWith (h : ∀ name ∈ names, Plain name) : isAbsolute (joinWith "/" names) = false := by
  cases names with
  | nil => rfl
  | cons name rest =>
    have plain := h name List.mem_cons_self
    cases rest with
    | nil => exact not_isAbsolute_of_plain plain
    | cons next rest =>
      rw [joinWith_cons, String.append_assoc]
      exact not_isAbsolute_append plain _

/-- **Plain names with slashes between them** may be joined one after the other. -/
theorem join_joinWith (h : ∀ name ∈ names, Plain name) (ne : names ≠ []) (p : String) :
    join p (joinWith "/" names) = names.foldl join p := by
  induction names generalizing p with
  | nil => exact absurd rfl ne
  | cons name rest ih =>
    have later : ∀ n ∈ rest, Plain n := fun n hn => h n (List.mem_cons_of_mem name hn)
    cases rest with
    | nil => rfl
    | cons next rest =>
      rw [joinWith_cons, List.foldl_cons, ← ih later (List.cons_ne_nil next rest),
        join_join (h name List.mem_cons_self) (not_isAbsolute_joinWith later)]

/-- A path without empty segments, dots and double dots may be joined segment by segment. -/
theorem join_eq_foldl (h : ∀ name ∈ segments '/' p, Plain name) (base : String) :
    join base p = (segments '/' p).foldl join base := by
  rw [← join_joinWith h (segments_ne_nil '/' p)]
  exact congrArg (join base) (joinWith_segments '/' p).symm

end FeatureAssembly.Path
