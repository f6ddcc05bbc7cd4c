import FeatureAssembly.SortedMap

/-!
# Sorted maps by look-up

The look-up view of `SortedMap`: what each operation does to it, and that it is all there
is to a map.

**The law** (`SortedMap.ext_get?`): two maps that answer every look-up alike are the same
map, entry list and all. With it an equation between maps is an equation between look-ups,
which is how a set that an element was put into and taken out of is seen to be what it was
(`SortedSet.erase_add`, `SortedSet.add_erase`).
-/

set_option autoImplicit false

namespace FeatureAssembly.SortedMap

variable {κ α : Type} [Ord κ] [Std.LawfulEqOrd κ]

/-! ## Entries and look-ups -/

/-- In an ascending list the look-up finds exactly the entries. -/
theorem lookupEntry_eq_some_iff {l : List (κ × α)} (h : KeysAscend l) {k : κ} {v : α} :
    lookupEntry k l = some v ↔ (k, v) ∈ l := by
  induction l with
  | nil => simp [lookupEntry]
  | cons e rest ih =>
    obtain ⟨first, later⟩ := List.pairwise_cons.1 h
    rw [lookupEntry, List.mem_cons]
    split
    · next hk =>
      have hk : k = e.1 := Std.LawfulEqOrd.eq_of_compare hk
      have absent : (k, v) ∉ rest := fun hm => by
        have := first _ hm
        rw [hk, Std.ReflOrd.compare_self] at this
        cases this
      constructor
      · intro hv
        exact .inl (by rw [hk, ← Option.some.inj hv])
      · rintro (rfl | hm)
        · rfl
        · exact absurd hm absent
    · next hk =>
      rw [ih later]
      constructor
      · exact .inr
      · rintro (rfl | hm)
        · exact absurd Std.ReflOrd.compare_self hk
        · exact hm

/-- In any list the look-up finds an entry. -/
theorem mem_of_lookupEntry {l : List (κ × α)} {k : κ} {v : α} (h : lookupEntry k l = some v) :
    (k, v) ∈ l := by
  induction l with
  | nil => cases h
  | cons e rest ih =>
    rw [lookupEntry] at h
    split at h
    · next hk =>
      cases h
      rw [Std.LawfulEqOrd.eq_of_compare hk]
      exact List.mem_cons_self
    · exact List.mem_cons_of_mem e (ih h)

/-- **In a list that ascends, the first element of a kind is the least one.** -/
theorem find?_eq_some_iff_of_pairwise {τ : Type} {R : τ → τ → Prop} (asymm : ∀ a b, R a b → ¬ R b a)
    {l : List τ} (ascend : l.Pairwise R) {p : τ → Bool} {a : τ} :
    l.find? p = some a ↔ a ∈ l ∧ p a = true ∧ ∀ b ∈ l, p b = true → b = a ∨ R a b := by
  induction l with
  | nil => simp
  | cons d rest ih =>
    obtain ⟨first, ascend⟩ := List.pairwise_cons.1 ascend
    cases kind : p d with
    | true =>
      rw [List.find?_cons_of_pos kind]
      constructor
      · rintro ⟨⟩
        exact ⟨List.mem_cons_self, kind, fun b hb _ => (List.mem_cons.1 hb).imp_right (first b)⟩
      · rintro ⟨ha, -, least⟩
        rcases least d List.mem_cons_self kind with same | before
        · rw [same]
        · rcases List.mem_cons.1 ha with rfl | ha
          · rfl
          · exact absurd before (asymm d a (first a ha))
    | false =>
      rw [List.find?_cons_of_neg (by simp [kind]), ih ascend]
      have other : ∀ {b}, p b = true → b ≠ d := by
        rintro b hb rfl
        rw [kind] at hb
        cases hb
      constructor
      · rintro ⟨ha, pa, least⟩
        exact ⟨List.mem_cons_of_mem d ha, pa, fun b hb pb =>
          least b ((List.mem_cons.1 hb).resolve_left (other pb)) pb⟩
      · rintro ⟨ha, pa, least⟩
        exact ⟨(List.mem_cons.1 ha).resolve_left (other pa), pa, fun b hb =>
          least b (List.mem_cons_of_mem d hb)⟩

theorem nodup_of_keysAscend {l : List (κ × α)} (h : KeysAscend l) : l.Nodup := by
  refine h.imp fun {a b} hab hne => ?_
  rw [hne, Std.ReflOrd.compare_self] at hab
  cases hab

/-- The look-up finds exactly the entries. -/
theorem get?_eq_some_iff {m : SortedMap κ α} {k : κ} {v : α} :
    m.get? k = some v ↔ (k, v) ∈ m.entries :=
  lookupEntry_eq_some_iff m.ascend

theorem get?_of_mem {m : SortedMap κ α} {e : κ × α} (h : e ∈ m.entries) :
    m.get? e.1 = some e.2 :=
  get?_eq_some_iff.2 h

omit [Std.LawfulEqOrd κ] in
theorem contains_iff {m : SortedMap κ α} {k : κ} : m.contains k ↔ ∃ v, m.get? k = some v :=
  Option.isSome_iff_exists

/-- Ascending lists with the same entries are the same. -/
theorem eq_of_keysAscend [Std.TransOrd κ] {l l' : List (κ × α)} (h : KeysAscend l) (h' : KeysAscend l')
    (mem : ∀ e, e ∈ l ↔ e ∈ l') : l = l' := by
  refine List.Perm.eq_of_pairwise (fun a b _ _ hab hba => ?_) h h'
    ((List.perm_ext_iff_of_nodup (nodup_of_keysAscend h) (nodup_of_keysAscend h')).2 mem)
  have := Std.OrientedCmp.not_lt_of_lt hab
  exact absurd hba this

/-- **A map is what its look-ups answer.** -/
theorem ext_get? [Std.TransOrd κ] {m m' : SortedMap κ α} (h : ∀ k, m.get? k = m'.get? k) : m = m' := by
  obtain ⟨l, hl⟩ := m
  obtain ⟨l', hl'⟩ := m'
  have same : l = l' := eq_of_keysAscend hl hl' fun e => by
    rw [← lookupEntry_eq_some_iff hl, ← lookupEntry_eq_some_iff hl',
      show lookupEntry e.1 l = lookupEntry e.1 l' from h e.1]
  subst same
  rfl

/-- What is picked from a map depends only on the look-ups that are picked. -/
theorem filter_entries_eq [Std.TransOrd κ] {m m' : SortedMap κ α} {pick : κ × α → Bool}
    (h : ∀ k v, pick (k, v) = true → (m.get? k = some v ↔ m'.get? k = some v)) :
    m.entries.filter pick = m'.entries.filter pick := by
  refine eq_of_keysAscend (m.ascend.filter _) (m'.ascend.filter _) fun e => ?_
  rw [List.mem_filter, List.mem_filter]
  refine and_congr_left fun hp => ?_
  rw [← get?_eq_some_iff (m := m), ← get?_eq_some_iff (m := m')]
  exact h e.1 e.2 hp

theorem mem_values_of_get? {m : SortedMap κ α} {k : κ} {v : α} (h : m.get? k = some v) :
    v ∈ m.values :=
  List.mem_map_of_mem (f := Prod.snd) (get?_eq_some_iff.1 h)

theorem exists_get?_of_mem_values {m : SortedMap κ α} {v : α} (h : v ∈ m.values) :
    ∃ k, m.get? k = some v := by
  obtain ⟨e, he, rfl⟩ := List.mem_map.1 h
  exact ⟨e.1, get?_of_mem he⟩

theorem mem_keys_iff {m : SortedMap κ α} {k : κ} : k ∈ m.keys ↔ m.contains k = true := by
  rw [contains_iff, keys, List.mem_map]
  constructor
  · rintro ⟨e, he, rfl⟩
    exact ⟨e.2, get?_of_mem he⟩
  · rintro ⟨v, found⟩
    exact ⟨(k, v), get?_eq_some_iff.1 found, rfl⟩

/-! ## What insertions do to the entries -/

section Entries

omit [Std.LawfulEqOrd κ]

/-- An entry has the value that was put in, or it was there. -/
theorem of_mem_insertEntry {k : κ} {v : α} {l : List (κ × α)} {e : κ × α} (h : e ∈ insertEntry k v l) :
    e.2 = v ∨ e ∈ l := by
  induction l with
  | nil =>
    cases List.mem_singleton.1 h
    exact .inl rfl
  | cons d rest ih =>
    rw [insertEntry] at h
    split at h
    · rcases List.mem_cons.1 h with rfl | h
      · exact .inl rfl
      · exact .inr h
    · rcases List.mem_cons.1 h with rfl | h
      · exact .inl rfl
      · exact .inr (List.mem_cons_of_mem d h)
    · rcases List.mem_cons.1 h with rfl | h
      · exact .inr List.mem_cons_self
      · exact (ih h).imp_right (List.mem_cons_of_mem d)

/-- After a list is put in, an entry has a value of the list, or it was there. -/
theorem of_mem_insertAll [Std.TransOrd κ] {l : List (κ × α)} {m : SortedMap κ α} {e : κ × α}
    (h : e ∈ (m.insertAll l).entries) : (∃ d ∈ l, e.2 = d.2) ∨ e ∈ m.entries := by
  induction l generalizing m with
  | nil => exact .inr h
  | cons d l ih =>
    rcases ih h with ⟨d', hd', value⟩ | h
    · exact .inl ⟨d', List.mem_cons_of_mem d hd', value⟩
    · exact (of_mem_insertEntry h).imp_left fun value => ⟨d, List.mem_cons_self, value⟩

theorem ext_entries {m m' : SortedMap κ α} (h : m.entries = m'.entries) : m = m' := by
  cases m
  cases m'
  cases h
  rfl

/-- A key above all others goes to the end. -/
theorem insertEntry_append [Std.TransOrd κ] {k : κ} (v : α) {l : List (κ × α)}
    (h : ∀ e ∈ l, compare e.1 k = .lt) : insertEntry k v l = l ++ [(k, v)] := by
  induction l with
  | nil => rfl
  | cons d rest ih =>
    have above : compare k d.1 = .gt := Std.OrientedCmp.gt_iff_lt.2 (h d List.mem_cons_self)
    rw [insertEntry, above]
    show d :: insertEntry k v rest = _
    rw [ih fun e he => h e (List.mem_cons_of_mem d he), List.cons_append]

/-- A map is what its entries give, put in one after the other. -/
theorem foldl_insert_entries [Std.TransOrd κ] (m : SortedMap κ α) :
    m.entries.foldl (fun m e => m.insert e.1 e.2) empty = m := by
  have step : ∀ (rest : List (κ × α)) (done : SortedMap κ α), KeysAscend (done.entries ++ rest) →
      (rest.foldl (fun m e => m.insert e.1 e.2) done).entries = done.entries ++ rest := by
    intro rest
    induction rest with
    | nil => exact fun done _ => (List.append_nil _).symm
    | cons e rest ih =>
      intro done ascend
      have put : (done.insert e.1 e.2).entries = done.entries ++ [e] :=
        insertEntry_append e.2 fun d hd =>
          (List.pairwise_append.1 ascend).2.2 d hd e List.mem_cons_self
      rw [List.foldl_cons, ih _ (by rw [put, List.append_assoc]; exact ascend), put, List.append_assoc]
      rfl
  exact ext_entries (step m.entries empty m.ascend)

end Entries

/-! ## What the operations do to look-ups -/

section Decidable

variable [Std.TransOrd κ] [DecidableEq κ]

theorem get?_insert_eq (m : SortedMap κ α) (k k' : κ) (v : α) :
    (m.insert k v).get? k' = if k' = k then some v else m.get? k' := by
  simp only [get?_insert, Std.LawfulEqCmp.compare_eq_iff_eq]

omit [Std.TransOrd κ] in
theorem get?_erase (m : SortedMap κ α) (k k' : κ) :
    (m.erase k).get? k' = if k' = k then none else m.get? k' := by
  refine Option.ext fun v => ?_
  rw [get?_eq_some_iff]
  show (k', v) ∈ m.entries.filter _ ↔ _
  rw [List.mem_filter, ← get?_eq_some_iff]
  by_cases h : k' = k
  · simp [h, Std.ReflCmp.compare_self]
  · have : compare k k' ≠ .eq := fun hc => h (Std.LawfulEqOrd.eq_of_compare hc).symm
    simp [h, this]

theorem get?_insertIfNew (m : SortedMap κ α) (k k' : κ) (v : α) :
    (m.insertIfNew k v).get? k' = if k' = k then some ((m.get? k).getD v) else m.get? k' := by
  unfold insertIfNew
  cases hk : m.get? k with
  | none =>
    have : m.contains k = false := by simp [contains, hk]
    simp only [this, Bool.false_eq_true, if_false, get?_insert_eq, Option.getD_none]
  | some w =>
    have : m.contains k = true := by simp [contains, hk]
    simp only [this, if_true, Option.getD_some]
    split
    · next h => rw [h, hk]
    · rfl

/-- What is there stays when something new is put in. -/
theorem get?_insertIfNew_of_some {m : SortedMap κ α} {k k' : κ} {v w : α}
    (h : m.get? k' = some w) : (m.insertIfNew k v).get? k' = some w := by
  rw [get?_insertIfNew]
  split
  · next hk => rw [← hk, h]; rfl
  · exact h

/-- A key that a list does not have keeps its value. -/
theorem get?_insertAll_of_notMem {l : List (κ × α)} {k : κ} (h : k ∉ l.map Prod.fst) (m : SortedMap κ α) :
    (m.insertAll l).get? k = m.get? k := by
  induction l generalizing m with
  | nil => rfl
  | cons d l ih =>
    rw [List.map_cons, List.mem_cons, not_or] at h
    exact (ih h.2 (m.insert d.1 d.2)).trans ((get?_insert_eq m d.1 k d.2).trans (if_neg h.1))

/-- What is put in under distinct keys is found there. -/
theorem get?_insertAll_of_mem {l : List (κ × α)} (distinct : (l.map Prod.fst).Nodup) {e : κ × α} (h : e ∈ l)
    (m : SortedMap κ α) : (m.insertAll l).get? e.1 = some e.2 := by
  induction l generalizing m with
  | nil => cases h
  | cons d l ih =>
    obtain ⟨absent, distinct⟩ := List.nodup_cons.1 distinct
    rcases List.mem_cons.1 h with rfl | h
    · exact (get?_insertAll_of_notMem absent (m.insert e.1 e.2)).trans
        ((get?_insert_eq m e.1 e.1 e.2).trans (if_pos rfl))
    · exact ih distinct h (m.insert d.1 d.2)

/-- A list with distinct keys makes a map of its entries. -/
theorem get?_ofList_eq_some_iff {l : List (κ × α)} (distinct : (l.map Prod.fst).Nodup) {k : κ} {v : α} :
    (ofList l).get? k = some v ↔ (k, v) ∈ l := by
  constructor
  · intro h
    by_cases listed : k ∈ l.map Prod.fst
    · obtain ⟨⟨_, w⟩, there, rfl⟩ := List.mem_map.1 listed
      have found : (ofList l).get? _ = some w := get?_insertAll_of_mem distinct there empty
      cases h.symm.trans found
      exact there
    · have absent : (ofList l).get? k = none := get?_insertAll_of_notMem listed empty
      cases h.symm.trans absent
  · exact fun there => get?_insertAll_of_mem distinct there empty

end Decidable

end SortedMap

namespace SortedSet

variable {κ : Type} [Ord κ] [Std.TransOrd κ] [Std.LawfulEqOrd κ] [DecidableEq κ]

theorem contains_add (s : SortedSet κ) (k k' : κ) :
    (s.add k).contains k' = (decide (k' = k) || s.contains k') := by
  simp only [add, SortedMap.contains, SortedMap.get?_insert_eq]
  split <;> simp [*]

theorem contains_addAll (s : SortedSet κ) (l : List κ) (k : κ) :
    (s.addAll l).contains k = (decide (k ∈ l) || s.contains k) := by
  induction l generalizing s with
  | nil => simp [addAll]
  | cons a rest ih =>
    show ((s.add a).addAll rest).contains k = _
    rw [ih, contains_add]
    by_cases ha : k = a <;> simp [ha]

omit [Std.TransOrd κ] in
theorem contains_erase (s : SortedSet κ) (k k' : κ) :
    SortedMap.contains (s.erase k) k' = (!decide (k' = k) && s.contains k') := by
  simp only [SortedMap.contains, SortedMap.get?_erase]
  split <;> simp [*]

omit [DecidableEq κ] in
/-- Two sets with the same members are the same. -/
theorem ext_contains {s t : SortedSet κ} (h : ∀ k, s.contains k = t.contains k) : s = t := by
  refine SortedMap.ext_get? fun k => ?_
  have := h k
  simp only [SortedMap.contains] at this
  cases hs : s.get? k <;> cases ht : t.get? k <;> simp_all

/-- Taking out what was just put in. -/
theorem erase_add {s : SortedSet κ} {k : κ} (h : s.contains k = false) :
    SortedMap.erase (s.add k) k = s := by
  refine ext_contains fun k' => ?_
  rw [contains_erase, contains_add]
  by_cases hk : k' = k <;> simp [hk, h]

/-- Putting back what was just taken out. -/
theorem add_erase {s : SortedSet κ} {k : κ} (h : s.contains k = true) :
    add (SortedMap.erase s k) k = s := by
  refine ext_contains fun k' => ?_
  rw [contains_add, contains_erase]
  by_cases hk : k' = k <;> simp [hk, h]

end FeatureAssembly.SortedSet
