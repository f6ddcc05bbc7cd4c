import FeatureAssembly.Classifiers
import FeatureAssembly.Proofs.SortedMap
import Mathlib.Data.List.Nodup

/-!
# What a classifier check establishes

A bucket holds the locations of exactly the entries with its classifier, in their order, so
no bucket is crowded exactly if the classifiers are distinct.

**The law** (`Classifiers.checkModule_eq_ok_iff`): a module passes exactly if its features have
distinct classifiers within each scope and, classified test features only, together with the
declared aggregates of both. So main and test are distinct from each other only as far as they
have classifiers, a module with fewer features still passes, and the raw features of each scope
are distinct from all aggregates (`Classifiers.distinct_of_checkModule`).
-/

set_option autoImplicit false

namespace FeatureAssembly.Classifiers

variable {module : ModuleKey} {entries : List Entry}

theorem getD_addEntry (buckets : SortedMap (Option String) (List String)) (e : Entry)
    (c : Option String) :
    ((addEntry buckets e).get? c).getD [] =
      (buckets.get? c).getD [] ++ if e.2 = c then [e.1] else [] := by
  unfold addEntry
  rw [SortedMap.get?_insert_eq]
  by_cases h : c = e.2
  · rw [if_pos h, if_pos h.symm, h]
    rfl
  · rw [if_neg h, if_neg (Ne.symm h), List.append_nil]

/-- **A bucket** holds the locations of the entries with its classifier. -/
theorem getD_buckets (entries : List Entry) (c : Option String) :
    ((buckets entries).get? c).getD [] = (entries.filter fun e => e.2 == c).map (·.1) := by
  have folded : ∀ m : SortedMap (Option String) (List String),
      ((entries.foldl addEntry m).get? c).getD [] =
        (m.get? c).getD [] ++ (entries.filter fun e => e.2 == c).map (·.1) := by
    induction entries with
    | nil => exact fun m => (List.append_nil _).symm
    | cons e rest ih =>
      intro m
      rw [List.foldl_cons, ih, getD_addEntry, List.append_assoc, List.filter_cons]
      by_cases h : e.2 = c <;> simp [h]
  exact folded .empty

theorem length_getD_buckets (entries : List Entry) (c : Option String) :
    (((buckets entries).get? c).getD []).length = (entries.map (·.2)).count c := by
  rw [getD_buckets, List.length_map, List.count, List.countP_map, List.countP_eq_length_filter]
  rfl

/-- **A check passes** exactly if the classifiers are distinct. -/
theorem check_eq_ok_iff : check module entries = .ok () ↔ (entries.map (·.2)).Nodup := by
  have found : check module entries = .ok () ↔
      (buckets entries).entries.find? (fun b => 2 ≤ b.2.length) = none := by
    unfold check
    split
    · next h => simp [h]
    · next h => simp [h]
  rw [found, List.find?_eq_none, List.nodup_iff_count_le_one]
  constructor
  · intro h c
    rw [← length_getD_buckets]
    cases hc : (buckets entries).get? c with
    | none => exact Nat.zero_le 1
    | some locations =>
      have := h _ (SortedMap.get?_eq_some_iff.1 hc)
      simp only [decide_eq_true_eq] at this
      exact Nat.le_of_lt_succ (Nat.lt_of_not_le this)
  · intro h bucket hb
    have := h bucket.1
    rw [← length_getD_buckets, SortedMap.get?_of_mem hb] at this
    simpa using Nat.lt_succ_of_le this

/-- The classifiers of some features. -/
def ofFeatures (features : FeatureMap) : List (Option String) :=
  features.values.map Feature.classifier

/-- The classifiers of declared aggregates. -/
def ofAggregates (decls : List AggregateDecl) : List (Option String) :=
  decls.map fun d => some d.classifier

theorem map_entriesOf (features : FeatureMap) :
    (entriesOf features).map (·.2) = ofFeatures features := by
  unfold entriesOf ofFeatures SortedMap.values
  rw [List.map_map, List.map_map]
  rfl

theorem map_entriesOfAggregates (decls : List AggregateDecl) :
    (entriesOfAggregates decls).map (·.2) = ofAggregates decls := by
  unfold entriesOfAggregates ofAggregates
  rw [List.map_map]
  rfl

theorem map_classifiedEntriesOf (features : FeatureMap) :
    ((entriesOf features).filter fun e => e.2.isSome).map (·.2) =
      (ofFeatures features).filter Option.isSome := by
  rw [← map_entriesOf, List.filter_map]
  rfl

/-- **A module passes** exactly if main and test have distinct classifiers each, and the main
features, the classified test features and the aggregates have distinct ones together. -/
theorem checkModule_eq_ok_iff {main test : FeatureMap} {decls : List AggregateDecl} :
    checkModule module main test decls = .ok () ↔
      (ofFeatures main).Nodup ∧ (ofFeatures test).Nodup ∧
        (ofFeatures main ++ (ofFeatures test).filter Option.isSome ++ ofAggregates decls).Nodup := by
  have alone : ∀ features : FeatureMap,
      checkFeatures module features = .ok () ↔ (ofFeatures features).Nodup := fun features => by
    rw [← map_entriesOf]
    exact check_eq_ok_iff
  have joint : check module (entriesOf main ++ (entriesOf test).filter (fun e => e.2.isSome) ++
      entriesOfAggregates decls) = .ok () ↔
      (ofFeatures main ++ (ofFeatures test).filter Option.isSome ++ ofAggregates decls).Nodup := by
    rw [check_eq_ok_iff, List.map_append, List.map_append, map_entriesOf, map_classifiedEntriesOf,
      map_entriesOfAggregates]
  rw [← alone main, ← alone test, ← joint]
  unfold checkModule
  cases checkFeatures module main <;> cases checkFeatures module test <;> simp [bind, Except.bind]

/-- With fewer features a module still passes. -/
theorem checkModule_mono {main main' test test' : FeatureMap} {decls : List AggregateDecl}
    (h : checkModule module main test decls = .ok ())
    (hm : (ofFeatures main').Sublist (ofFeatures main))
    (ht : (ofFeatures test').Sublist (ofFeatures test)) :
    checkModule module main' test' decls = .ok () := by
  obtain ⟨main, test, joint⟩ := checkModule_eq_ok_iff.1 h
  exact checkModule_eq_ok_iff.2 ⟨main.sublist hm, test.sublist ht,
    joint.sublist ((hm.append (ht.filter _)).append (.refl _))⟩

/-- **A module that passes**: within a scope, raw features and declared aggregates have
distinct classifiers. -/
theorem distinct_of_checkModule {main test : FeatureMap} {decls : List AggregateDecl}
    (h : checkModule module main test decls = .ok ()) :
    (ofFeatures main ++ ofAggregates decls).Nodup ∧ (ofFeatures test ++ ofAggregates decls).Nodup := by
  obtain ⟨-, testAlone, joint⟩ := checkModule_eq_ok_iff.1 h
  rw [List.append_assoc] at joint
  obtain ⟨-, classified, -⟩ := List.nodup_append'.1 joint
  refine ⟨joint.sublist (List.Sublist.append_left (List.sublist_append_right _ _) _), ?_⟩
  refine List.nodup_append'.2 ⟨testAlone, (List.nodup_append'.1 classified).2.1, ?_⟩
  -- An aggregate has a classifier, so a test feature that shares it was compared with it.
  intro c hc ha
  refine (List.nodup_append'.1 classified).2.2 ?_ ha
  obtain ⟨d, -, rfl⟩ := List.mem_map.1 ha
  exact List.mem_filter.2 ⟨hc, rfl⟩

/-- Where classifiers are distinct, an identity is found at one location. -/
theorem location_of_nodup {features : FeatureMap} (nodup : (ofFeatures features).Nodup)
    {location location' : String} {f f' : Feature} (hf : features.get? location = some f)
    (hf' : features.get? location' = some f') (same : f.id = f'.id) : location = location' := by
  unfold ofFeatures SortedMap.values at nodup
  rw [List.map_map] at nodup
  have named : f.classifier = f'.classifier := congrArg Identity.classifier same
  have entry := List.inj_on_of_nodup_map nodup (SortedMap.get?_eq_some_iff.1 hf)
    (SortedMap.get?_eq_some_iff.1 hf') named
  exact congrArg Prod.fst entry

end FeatureAssembly.Classifiers
