import FeatureAssembly.Proofs.ByteOrder
import FeatureAssembly.Proofs.Classifiers

/-!
# The conflict that is reported

What a check of classifiers says when it does not pass.

**The law** (`Classifiers.check_reports_first`): a check passes exactly if no two entries have the same
classifier, and otherwise names the first crowded bucket (that without classifier before all others, and
these in byte order), with the locations of all its entries as they were given. So the error depends on
the order of the entries only as far as the locations of one bucket do, and with entries taken out a
check that passed still does.

The buckets ascend by classifier, so the first one that is found to be crowded is the least one
(`SortedMap.find?_eq_some_iff_of_pairwise`), and each holds what `getD_buckets` says.
-/

set_option autoImplicit false

namespace FeatureAssembly.Classifiers

variable {module : ModuleKey} {entries : List Entry} {c d : Option String}

/-- The locations of the entries with a classifier, or of those without, in their order. -/
def locationsOf (entries : List Entry) (c : Option String) : List String :=
  (entries.filter fun e => e.2 == c).map (·.1)

/-- A bucket holds more than one entry. -/
def Crowded (entries : List Entry) (c : Option String) : Prop := 2 ≤ (locationsOf entries c).length

/-- **A bucket comes before another**: the one without classifier before all others, and these in the
order of their bytes. -/
def Before : Option String → Option String → Prop
  | none, some _ => True
  | some c, some d => Text.bytes c < Text.bytes d
  | _, none => False

/-- **The conflict** among some entries is the first of their crowded buckets. -/
structure Conflict (entries : List Entry) (c : Option String) : Prop where
  crowded : Crowded entries c
  first : ∀ d, Crowded entries d → d = c ∨ Before c d

theorem compare_eq_lt_iff : compare c d = .lt ↔ Before c d := by
  cases c with
  | none => cases d <;> simp [Before, compare]
  | some c =>
    cases d with
    | none => exact ⟨nofun, nofun⟩
    | some d =>
      show compareOfLessAndEq c d = .lt ↔ _
      rw [compareOfLessAndEq_eq_lt, Text.lt_iff_bytes_lt]
      rfl

/-- A crowded bucket is one of those that are checked, with the locations of its entries. -/
theorem mem_buckets_iff {locations : List String} :
    (c, locations) ∈ (buckets entries).entries ∧ 2 ≤ locations.length ↔
      locations = locationsOf entries c ∧ Crowded entries c := by
  have held := getD_buckets entries c
  rw [← SortedMap.get?_eq_some_iff, Crowded]
  unfold locationsOf
  rw [← held]
  cases (buckets entries).get? c with
  | none => simp
  | some there =>
    simp only [Option.some.injEq, Option.getD_some]
    constructor
    · rintro ⟨rfl, several⟩
      exact ⟨rfl, several⟩
    · rintro ⟨rfl, several⟩
      exact ⟨rfl, several⟩

/-- **A check fails with the conflict**, and with nothing else. -/
theorem check_eq_error_iff {e : ClassifierError} :
    check module entries = .error e ↔
      ∃ c, Conflict entries c ∧ e = clash module c (locationsOf entries c) := by
  have found : check module entries = .error e ↔ ∃ bucket : Option String × List String,
      (buckets entries).entries.find? (fun b => 2 ≤ b.2.length) = some bucket ∧
        e = clash module bucket.1 bucket.2 := by
    unfold check
    split
    · next nothing => simp [nothing]
    · next classifier locations first => simp [first, eq_comm]
  have asymm : ∀ a b : Option String × List String, compare a.1 b.1 = .lt → ¬ compare b.1 a.1 = .lt :=
    fun _ _ => Std.OrientedCmp.not_lt_of_lt
  simp only [found, SortedMap.find?_eq_some_iff_of_pairwise asymm (buckets entries).ascend, decide_eq_true_eq]
  constructor
  · rintro ⟨⟨c, locations⟩, ⟨listed, several, least⟩, rfl⟩
    obtain ⟨rfl, crowded⟩ := mem_buckets_iff.1 ⟨listed, several⟩
    refine ⟨c, ⟨crowded, fun d hd => ?_⟩, rfl⟩
    obtain ⟨listed', several'⟩ := mem_buckets_iff.2 ⟨rfl, hd⟩
    exact (least _ listed' several').imp (congrArg Prod.fst) compare_eq_lt_iff.1
  · rintro ⟨c, ⟨crowded, first⟩, rfl⟩
    obtain ⟨listed, several⟩ := mem_buckets_iff.2 ⟨rfl, crowded⟩
    refine ⟨(c, locationsOf entries c), ⟨listed, several, fun bucket listed' several' => ?_⟩, rfl⟩
    obtain ⟨d, locations⟩ := bucket
    obtain ⟨rfl, crowded'⟩ := mem_buckets_iff.1 ⟨listed', several'⟩
    rcases first d crowded' with rfl | before
    · exact .inl rfl
    · exact .inr (compare_eq_lt_iff.2 before)

/-- **A check reports the first conflict.** It passes exactly if no two entries have the same classifier,
where having none is like a classifier of its own. Otherwise it names the first of the crowded buckets
and lists the locations of all its entries, repeated ones as often as they are there. What passes still
does with entries taken out. -/
theorem check_reports_first (module : ModuleKey) (entries : List Entry) :
    (check module entries = .ok () ↔
      ∀ i j : Fin entries.length, (entries.get i).2 = (entries.get j).2 → i = j) ∧
    (∀ e, check module entries = .error e ↔ ∃ c, Conflict entries c ∧
      e = match c with
        | none => .multipleUnclassified module (locationsOf entries none)
        | some s => .duplicateClassifier module s (locationsOf entries (some s))) ∧
    (check module entries = .ok () → ∀ fewer : List Entry, fewer.Sublist entries →
      check module fewer = .ok ()) := by
  refine ⟨?passes, fun e => ?fails, fun passes fewer taken => ?fewer⟩
  case passes =>
    rw [check_eq_ok_iff, List.Nodup, List.pairwise_map, List.pairwise_iff_getElem]
    constructor
    · intro apart i j same
      rcases Nat.lt_trichotomy i j with before | here | behind
      · exact absurd same (apart i j i.isLt j.isLt before)
      · exact Fin.ext here
      · exact absurd same.symm (apart j i j.isLt i.isLt behind)
    · intro distinct i j hi hj before same
      exact absurd (congrArg Fin.val (distinct ⟨i, hi⟩ ⟨j, hj⟩ same)) (Nat.ne_of_lt before)
  case fails =>
    rw [check_eq_error_iff]
    refine exists_congr fun c => and_congr_right fun _ => ?_
    cases c <;> rfl
  case fewer => exact check_eq_ok_iff.2 ((check_eq_ok_iff.1 passes).sublist (taken.map _))

/-- Entries of which two have an empty classifier, three the classifier `x`, and one has none. -/
def crowdedEntries : List Entry :=
  [("x.json", some "x"), ("blank.json", some ""), ("plain.json", none), ("x.json", some "x"),
    ("other.json", some ""), ("x.json", some "x")]

/-- The empty classifier is reported: the bucket before it is not crowded. -/
theorem blank_reported :
    (∃ c, Conflict crowdedEntries c ∧
      ClassifierError.duplicateClassifier (.of "g" "app") "" ["blank.json", "other.json"] = match c with
        | none => .multipleUnclassified (.of "g" "app") (locationsOf crowdedEntries none)
        | some s => .duplicateClassifier (.of "g" "app") s (locationsOf crowdedEntries (some s))) ∧
    check (.of "g" "app") [("blank.json", some ""), ("plain.json", none)] = .ok () ∧
    check (.of "g" "app") [("plain.json", none)] = .ok () :=
  have passes : check (.of "g" "app") [("blank.json", some ""), ("plain.json", none)] = .ok () := by decide
  ⟨((check_reports_first (.of "g" "app") crowdedEntries).2.1 _).1 (by decide), passes,
    (check_reports_first _ _).2.2 passes _ (List.sublist_cons_self _ _)⟩

end FeatureAssembly.Classifiers
