import FeatureAssembly.Config
import FeatureAssembly.Reactor.Module
import FeatureAssembly.Proofs.Coordinates
import FeatureAssembly.Proofs.Json.Records

/-!
# Documents read back

What can be read back of features, modules and configurations. An identity can if it is legible, a
content of an extension if its identities are and if a document in it is in the sorted form, has no
numbers but integers and nests no deeper than what can be read; everything else always can. Each
type has the two directions: what is obtained is legible, and what is legible is kept.

**The law** (`documents_round_trip`): whatever is read from a text is read back from what is written
for it. A field that is hidden has the value that stands for a missing field, so nothing is lost
with it.

What it does not establish: anything of documents with fractions or exponents in extensions, and of
values that were put together in another way than by reading. Those are read back if they are
legible (`Feature.keeps_codec`).
-/

set_option autoImplicit false

namespace FeatureAssembly

open Json

/-! ## Hidden values -/

theorem SortedMap.eq_empty_of_isEmpty {κ α : Type} [Ord κ] {m : SortedMap κ α} (h : m.isEmpty = true) :
    m = .empty :=
  ext_entries (List.isEmpty_iff.1 h)

theorem Artifacts.eq_empty_of_isEmpty {c : Artifacts} (h : c.isEmpty = true) : c = .empty := by
  obtain ⟨l⟩ := c
  cases List.isEmpty_iff.1 h
  rfl

/-! ## Identities -/

variable {depth : Nat}

theorem Identity.keeps_codec {id : Identity} (h : id.Legible) (depth : Nat) : Identity.codec.Keeps depth id :=
  Codec.keeps_viaText (by rw [parse_text h]; rfl) depth

theorem Identity.legible_of_obtains {id : Identity} (h : Identity.codec.Obtains depth id) : id.Legible := by
  obtain ⟨s, parsed⟩ := Codec.obtains_viaText h
  cases hp : Identity.parse s with
  | error e =>
    rw [hp] at parsed
    cases parsed
  | ok id' =>
    rw [hp] at parsed
    cases parsed
    exact legible_of_parse hp

/-! ## Tables of strings, optional strings and numbers -/

theorem keeps_stringsCodec (depth : Nat) (m : SortedMap String String) : stringsCodec.Keeps (depth + 1) m :=
  Codec.keeps_named fun e _ => Codec.keeps_textAs _ depth e.2

theorem keeps_nullableText (depth : Nat) (s : Option String) : Codec.text.nullable.Keeps depth s :=
  Codec.keeps_nullable fun s _ => ⟨Codec.keeps_textAs _ depth s, nofun⟩

theorem keeps_nullableWord (depth : Nat) (n : Option UInt32) : Codec.word.nullable.Keeps depth n :=
  Codec.keeps_nullable fun n _ => ⟨Codec.keeps_word depth n, nofun⟩

theorem keeps_listText (depth : Nat) (l : List String) : Codec.text.list.Keeps (depth + 1) l :=
  Codec.keeps_list fun s _ => Codec.keeps_textAs _ depth s

/-! ## Artifacts -/

theorem Artifact.keeps_codec {a : Artifact} (h : a.id.Legible) (depth : Nat) :
    Artifact.codec.Keeps (depth + 2) a :=
  Codec.keeps_record (by decide) rfl <|
    .required (Identity.keeps_codec h _) <|
    .optional Option.isNone_iff_eq_none.1 (keeps_nullableWord _ _) <|
    .optional SortedMap.eq_empty_of_isEmpty (keeps_stringsCodec _ _) trivial

theorem Artifact.legible_of_obtains {a : Artifact} (h : Artifact.codec.Obtains depth a) : a.id.Legible := by
  obtain ⟨d, ⟨id, startOrder, metadata, _⟩, -, rfl, obtained⟩ := Codec.obtains_record h
  exact Identity.legible_of_obtains obtained.required.1

/-- All artifacts have legible identities. -/
def Artifacts.Legible (c : Artifacts) : Prop := ∀ a ∈ c.entries, a.id.Legible

theorem Artifacts.keeps_codec {c : Artifacts} (h : c.Legible) (depth : Nat) :
    Artifacts.codec.Keeps (depth + 3) c :=
  Codec.keeps_via rfl (Codec.keeps_list fun a ha => Artifact.keeps_codec (h a ha) depth)

theorem Artifacts.legible_of_obtains {c : Artifacts} (h : Artifacts.codec.Obtains depth c) : c.Legible := by
  obtain ⟨l, rfl, items⟩ := Codec.obtains_via h
  obtain ⟨d, -, each⟩ := Codec.obtains_list items
  exact fun a ha => Artifact.legible_of_obtains (each a ha)

/-! ## Extensions -/

theorem ExtensionState.keeps_codec (depth : Nat) (state : ExtensionState) :
    ExtensionState.codec.Keeps depth state :=
  Codec.keeps_choice (by cases state <;> decide) depth

theorem ExtensionKind.keeps_codec (depth : Nat) (kind : ExtensionKind) :
    ExtensionKind.codec.Keeps depth kind :=
  Codec.keeps_choice (by cases kind <;> decide) depth

/-- **A content that can be read back**: its identities are legible, and a document in it is in the
sorted form, has no numbers but integers and nests no deeper than a bound. -/
def ExtensionContent.Legible (depth : Nat) : ExtensionContent → Prop
  | .artifacts list => list.Legible
  | .structured value => value.sorted = value ∧ value.integral = true ∧ value.height ≤ depth
  | .text _ => True

namespace ExtensionContent

theorem ofJson_toJson {content : ExtensionContent} (h : content.Legible depth) :
    ofJson content.kind content.toJson = .ok content := by
  cases content with
  | artifacts list =>
    show (Artifacts.codec.ofJson (Artifacts.codec.toJson list)).map _ = _
    rw [(Artifacts.keeps_codec h 0).take]
    rfl
  | structured value => exact congrArg (fun j => Except.ok (structured j)) h.1
  | text s => rfl

theorem height_toJson {content : ExtensionContent} (h : content.Legible (depth + 3)) :
    content.toJson.height ≤ depth + 3 := by
  cases content with
  | artifacts list => exact (Artifacts.keeps_codec h depth).height
  | structured value => exact h.2.2
  | text s => exact Nat.zero_le _

theorem integral_toJson {content : ExtensionContent} (h : content.Legible depth) :
    content.toJson.integral = true := by
  cases content with
  | artifacts list => exact (Artifacts.keeps_codec h depth).integral
  | structured value => exact h.2.1
  | text s => rfl

/-- The documents that a content has numbers in. -/
def Integral (content : ExtensionContent) : Prop :=
  ∀ value, content = .structured value → value.integral = true

theorem legible_of_ofJson {kind : ExtensionKind} {j : Json} {content : ExtensionContent}
    (taken : ofJson kind j = .ok content) (height : j.height ≤ depth) (integral : content.Integral) :
    content.Legible depth := by
  cases kind with
  | artifacts =>
    obtain ⟨list, read, rfl⟩ := ok_of_map (x := Artifacts.codec.ofJson j) taken
    have obtained : Artifacts.codec.Obtains depth list := .inr ⟨j, height, read⟩
    exact Artifacts.legible_of_obtains obtained
  | structured =>
    cases taken
    exact ⟨sorted_sorted j, integral _ rfl, Nat.le_trans (height_sorted_le j) height⟩
  | text =>
    obtain ⟨s, -, rfl⟩ := ok_of_map (x := Codec.text.ofJson j) taken
    trivial

/-- The content of fields comes from one of them. -/
theorem exists_of_ofFields {fields : List (String × Json)} {content : ExtensionContent}
    (h : ofFields fields = .ok content) : ∃ kind, ∃ f ∈ fields, ofJson kind f.2 = .ok content := by
  unfold ofFields at h
  split at h
  · cases h
  · obtain ⟨kind, -, h⟩ := ok_of_bind h
    split at h
    · cases h
    · obtain ⟨content, taken, h⟩ := ok_of_bind h
      obtain ⟨_, -, h⟩ := ok_of_bind h
      cases h
      exact ⟨kind, _, List.mem_cons_of_mem _ List.mem_cons_self, taken⟩
    · cases h
  · split at h
    · cases h
    · obtain ⟨kind, -, h⟩ := ok_of_bind h
      obtain ⟨content, taken, h⟩ := ok_of_bind h
      obtain ⟨_, -, h⟩ := ok_of_bind h
      cases h
      exact ⟨kind, _, List.mem_cons_self, taken⟩
    · cases h

end ExtensionContent

namespace Extension

def Legible (depth : Nat) (e : Extension) : Prop := e.content.Legible depth

def Integral (e : Extension) : Prop := e.content.Integral

/-- What is read or taken of an extension so far nests no deeper than the bound. -/
def Partial.Bounded (depth : Nat) (p : Partial) : Prop := ∀ f ∈ p.2, f.2.height ≤ depth

theorem legible_of_ofPartial {p : Partial} {e : Extension} (bounded : p.Bounded depth)
    (h : ofPartial p = .ok e) (integral : e.Integral) : e.Legible depth := by
  obtain ⟨content, read, h⟩ := ok_of_bind h
  cases h
  obtain ⟨kind, f, hf, taken⟩ := ExtensionContent.exists_of_ofFields read
  have hf : f ∈ p.2 := List.mem_reverse.1 (List.mem_filter.1 hf).1
  exact ExtensionContent.legible_of_ofJson taken (bounded f hf) integral

theorem bounded_of_readField {p p' : Partial} {name : String} {cs rest : List Char}
    (bounded : p.Bounded depth) (h : readField depth p name cs = .ok (p', rest)) : p'.Bounded depth := by
  unfold readField at h
  split at h
  · split at h
    · cases h
    · obtain ⟨_, -, h⟩ := ok_of_bind h
      obtain ⟨_, -, h⟩ := ok_of_bind h
      cases h
      exact bounded
  · obtain ⟨_, -, h⟩ := ok_of_bind h
    obtain ⟨⟨j, more⟩, read, h⟩ := ok_of_bind h
    cases h
    intro f hf
    rcases List.mem_cons.1 hf with rfl | hf
    · exact height_le_of_readAny read
    · exact bounded f hf

theorem bounded_of_takeField {p p' : Partial} {f : String × Json} (bounded : p.Bounded depth)
    (height : f.2.height ≤ depth) (h : takeField p f = .ok p') : p'.Bounded depth := by
  unfold takeField at h
  split at h
  · split at h
    · cases h
    · obtain ⟨_, -, rfl⟩ := ok_of_map h
      exact bounded
  · cases h
    intro g hg
    rcases List.mem_cons.1 hg with rfl | hg
    · exact height
    · exact bounded g hg

theorem legible_of_obtains {e : Extension} (h : Extension.codec.Obtains (depth + 1) e)
    (integral : e.Integral) : e.Legible depth := by
  rcases h with ⟨cs, rest, h⟩ | ⟨j, height, h⟩
  · simp only [codec] at h
    split at h
    · obtain ⟨d, deep, h⟩ := ok_of_bind h
      cases Codec.depth_of_deeper deep
      obtain ⟨⟨p, tail⟩, read, h⟩ := ok_of_bind h
      obtain ⟨e, made, h⟩ := ok_of_bind h
      obtain ⟨_, -, h⟩ := ok_of_bind h
      cases h
      have bounded : p.Bounded depth := readFields_keeps (P := Partial.Bounded depth)
        (fun _ _ _ _ _ bounded step => bounded_of_readField bounded step) read nofun
      exact legible_of_ofPartial bounded made integral
    · exact absurd h Codec.wrongStart_ne_ok
  · simp only [codec] at h
    split at h
    · next members =>
      have heights := heightFields_le_iff.1 (Nat.le_of_succ_le_succ height)
      obtain ⟨p, taken, made⟩ := ok_of_bind h
      have bounded : p.Bounded depth := foldlM_keeps (P := Partial.Bounded depth)
        (fun f hf _ _ bounded step => bounded_of_takeField bounded (heights f hf) step) taken nofun
      exact legible_of_ofPartial bounded made integral
    · cases h

/-- The fields that are written for an extension. -/
def written (e : Extension) : List (String × Json) :=
  [("state", ExtensionState.codec.toJson e.state), ("kind", ExtensionKind.codec.toJson e.content.kind),
    ("content", e.content.toJson)]

/-- What is written for a legible extension nests no deeper than the bound and has no numbers but
integers. -/
theorem written_bounds {e : Extension} (h : e.Legible (depth + 3)) :
    ∀ f ∈ e.written, f.2.height ≤ depth + 3 ∧ f.2.integral = true := by
  intro f hf
  simp only [written, List.mem_cons, List.not_mem_nil, or_false] at hf
  rcases hf with rfl | rfl | rfl
  · exact ⟨Nat.zero_le _, rfl⟩
  · exact ⟨Nat.zero_le _, rfl⟩
  · exact ⟨ExtensionContent.height_toJson h, ExtensionContent.integral_toJson h⟩

/-- What is read of an extension when its written fields are read. -/
def readBack (e : Extension) : Partial :=
  (some e.state, [("content", e.content.toJson), ("kind", ExtensionKind.codec.toJson e.content.kind)])

theorem foldlM_written (e : Extension) : e.written.foldlM takeField (none, []) = .ok e.readBack := by
  have state : ExtensionState.codec.ofJson (ExtensionState.codec.toJson e.state) = .ok e.state :=
    (ExtensionState.keeps_codec 0 e.state).take
  simp only [written, List.foldlM_cons, List.foldlM_nil, takeField, if_true, state]
  rfl

theorem ofPartial_readBack {e : Extension} (h : e.Legible depth) : ofPartial e.readBack = .ok e := by
  have kind : ExtensionKind.codec.ofJson (ExtensionKind.codec.toJson e.content.kind) = .ok e.content.kind :=
    (ExtensionKind.keeps_codec 0 e.content.kind).take
  have tagged : (e.readBack.2.reverse.filter fun f => f.1 == "kind" || f.1 == "content") =
      [("kind", ExtensionKind.codec.toJson e.content.kind), ("content", e.content.toJson)] := rfl
  unfold ofPartial
  rw [tagged]
  simp only [ExtensionContent.ofFields, kind, ExtensionContent.ofJson_toJson h, noThird, bind, Except.bind]
  rfl

/-- A written field is read from any spelling to what it is taken to. -/
theorem readField_written {e : Extension} (h : e.Legible (depth + 3)) {f : String × Json} (hf : f ∈ e.written)
    {p p' : Partial} (taken : takeField p f = .ok p') {gap cs tail : List Char} (hg : Blank gap)
    (spelled : Spells f.2 cs) (ends : Ends tail) :
    readField (depth + 3) p f.1 (':' :: (gap ++ (cs ++ tail))) = .ok (p', tail) := by
  obtain ⟨height, integral⟩ := written_bounds h f hf
  unfold takeField at taken
  unfold readField
  split
  · next named =>
    -- The state is the only written field of its name.
    have state : f.2 = ExtensionState.codec.toJson e.state := by
      simp only [written, List.mem_cons, List.not_mem_nil, or_false] at hf
      rcases hf with rfl | rfl | rfl
      · rfl
      · exact absurd named (show "kind" ≠ "state" by decide)
      · exact absurd named (show "content" ≠ "state" by decide)
    have kept := ExtensionState.keeps_codec (depth + 3) e.state
    rw [if_pos named] at taken
    rw [state] at taken spelled
    split at taken
    · cases taken
    · next free =>
      rw [kept.take] at taken
      cases taken
      rw [if_neg free, skipColon_colon]
      simp only [bind, Except.bind, kept.read gap cs tail hg spelled ends]
      rfl
  · next other =>
    rw [if_neg other] at taken
    cases taken
    rw [skipColon_colon]
    simp only [bind, Except.bind, readAny_spells height integral hg spelled ends]
    rfl

theorem keeps_codec {e : Extension} (h : e.Legible (depth + 3)) : Extension.codec.Keeps (depth + 4) e := by
  refine ⟨?_, ?_, fun gap cs tail hg spelled ends => ?_, ?_⟩
  · exact Nat.succ_le_succ (heightFields_le_iff.2 fun f hf => (written_bounds h f hf).1)
  · exact integralFields_iff.2 fun f hf => (written_bounds h f hf).2
  · obtain ⟨body, rfl, spelled⟩ := spelled
    obtain ⟨rest, read, closed⟩ := readFields_spells (readField (depth + 3))
      (fun f hf _ _ _ _ _ taken hg spelled ends => readField_written h hf taken hg spelled ends)
      spelled ((body ++ tail).length + 1) (by simp; omega) (foldlM_written e) tail
    simp only [codec, skipBlanks_append hg, List.cons_append, skipBlanks_cons (c := '\x7b') rfl, deeper,
      bind, Except.bind, read, ofPartial_readBack h, closed]
    rfl
  · show (e.written.foldlM takeField (none, []) >>= ofPartial) = _
    rw [foldlM_written]
    exact ofPartial_readBack h

end Extension

/-! ## Prototypes -/

/-- The prototype and what is left out of it have legible identities. -/
structure Prototype.Legible (p : Prototype) : Prop where
  id : p.id.Legible
  removedBundles : ∀ id ∈ p.removedBundles, id.Legible

theorem Prototype.keeps_codec {p : Prototype} (h : p.Legible) (depth : Nat) :
    Prototype.codec.Keeps (depth + 2) p :=
  Codec.keeps_record (by decide) rfl <|
    .required (Identity.keeps_codec h.id _) <|
    .optional List.isEmpty_iff.1
      (Codec.keeps_list fun id hid => Identity.keeps_codec (h.removedBundles id hid) _) <|
    .optional List.isEmpty_iff.1 (keeps_listText _ _) trivial

theorem Prototype.legible_of_obtains {p : Prototype} (h : Prototype.codec.Obtains depth p) : p.Legible := by
  obtain ⟨d, ⟨id, bundles, extensions, _⟩, -, rfl, obtained⟩ := Codec.obtains_record h
  obtain ⟨hid, obtained⟩ := obtained.required
  refine ⟨Identity.legible_of_obtains hid, ?_⟩
  rcases obtained.optional.1 with rfl | removed
  · exact nofun
  · obtain ⟨d, -, each⟩ := Codec.obtains_list removed
    exact fun id hid => Identity.legible_of_obtains (each id hid)

/-! ## Features -/

/-- **A feature that can be read back**: all its identities are legible, and the contents of its
extensions can be read back within a bound on their depth. -/
structure Feature.Legible (depth : Nat) (f : Feature) : Prop where
  id : f.id.Legible
  bundles : f.bundles.Legible
  extensions : ∀ e ∈ f.extensions.entries, e.2.Legible depth
  prototype : ∀ p ∈ f.prototype, p.Legible

/-- All documents in the extensions have no numbers but integers. -/
def Feature.Integral (f : Feature) : Prop := ∀ e ∈ f.extensions.entries, e.2.Integral

theorem Feature.keeps_codec {f : Feature} (h : f.Legible (depth + 3)) : Feature.codec.Keeps (depth + 6) f :=
  Codec.keeps_record (by decide) rfl <|
    .required (Identity.keeps_codec h.id _) <|
    .optional Option.isNone_iff_eq_none.1 (keeps_nullableText _ _) <|
    .optional Option.isNone_iff_eq_none.1 (keeps_nullableText _ _) <|
    .optional Option.isNone_iff_eq_none.1 (keeps_nullableText _ _) <|
    .optional Option.isNone_iff_eq_none.1 (keeps_nullableText _ _) <|
    .optional Artifacts.eq_empty_of_isEmpty (Artifacts.keeps_codec h.bundles _) <|
    .optional SortedMap.eq_empty_of_isEmpty
      (Codec.keeps_named fun e he => Extension.keeps_codec (h.extensions e he)) <|
    .optional SortedMap.eq_empty_of_isEmpty (keeps_stringsCodec _ _) <|
    .optional SortedMap.eq_empty_of_isEmpty (keeps_stringsCodec _ _) <|
    .optional Option.isNone_iff_eq_none.1
      (Codec.keeps_nullable fun p hp => ⟨Prototype.keeps_codec (h.prototype p hp) _, nofun⟩) <|
    .defaulted (Codec.keeps_flag _ _) trivial

/-- The bundles of a feature that is read are legible, whatever is in its extensions. -/
theorem Feature.bundles_legible_of_obtains {f : Feature} (h : Feature.codec.Obtains depth f) :
    f.bundles.Legible := by
  obtain ⟨d, ⟨id, title, description, vendor, license, bundles, _⟩, -, rfl, obtained⟩ := Codec.obtains_record h
  obtain ⟨listed, -⟩ := obtained.required.2.2.2.2.2.optional
  rcases listed with rfl | listed
  · exact nofun
  · exact Artifacts.legible_of_obtains listed

theorem Feature.legible_of_obtains {f : Feature} (h : Feature.codec.Obtains (depth + 3) f)
    (integral : f.Integral) : f.Legible depth := by
  have listed := bundles_legible_of_obtains h
  obtain ⟨d, ⟨id, title, description, vendor, license, bundles, extensions, variableValues,
    frameworkProperties, prototype, assembled, _⟩, deep, rfl, obtained⟩ := Codec.obtains_record h
  cases deep
  obtain ⟨hid, obtained⟩ := obtained.required
  obtain ⟨hextensions, obtained⟩ := obtained.2.2.2.2.2.optional
  obtain ⟨hprototype, -⟩ := obtained.2.2.optional
  refine ⟨Identity.legible_of_obtains hid, listed, ?_, ?_⟩
  · rcases hextensions with rfl | listed
    · exact nofun
    · obtain ⟨_, ⟨⟩, each⟩ := Codec.obtains_named listed
      exact fun e he => Extension.legible_of_obtains (each e he) (integral e he)
  · rcases hprototype with rfl | named
    · exact nofun
    · rintro p rfl
      exact Prototype.legible_of_obtains (Codec.obtains_nullable named)

/-! ## Modules -/

theorem Dependency.keeps_codec {d : Dependency} (h : d.id.Legible) (depth : Nat) :
    Dependency.codec.Keeps (depth + 1) d :=
  Codec.keeps_record (by decide) rfl <|
    .required (Identity.keeps_codec h _) <|
    .required (Codec.keeps_textAs _ _ _) trivial

theorem Dependency.legible_of_obtains {d : Dependency} (h : Dependency.codec.Obtains depth d) :
    d.id.Legible := by
  obtain ⟨_, ⟨id, scope, _⟩, -, rfl, obtained⟩ := Codec.obtains_record h
  exact Identity.legible_of_obtains obtained.required.1

theorem keeps_moduleKeys (depth : Nat) (keys : List ModuleKey) : ModuleKey.codec.list.Keeps (depth + 1) keys :=
  Codec.keeps_list fun key _ => Codec.keeps_via rfl (Codec.keeps_textAs _ _ key.text)

theorem Module.keeps_codec {m : Module} (h : ∀ d ∈ m.dependencies, d.id.Legible) (depth : Nat) :
    Module.codec.Keeps (depth + 3) m :=
  Codec.keeps_record (by decide) rfl <|
    .required (Codec.keeps_textAs _ _ _) <|
    .required (Codec.keeps_textAs _ _ _) <|
    .required (Codec.keeps_textAs _ _ _) <|
    .defaulted (Codec.keeps_textAs _ _ _) <|
    .defaulted (Codec.keeps_textAs _ _ _) <|
    .optional List.isEmpty_iff.1 (keeps_moduleKeys _ _) <|
    .optional List.isEmpty_iff.1
      (Codec.keeps_list fun d hd => Dependency.keeps_codec (h d hd) _) trivial

theorem Module.legible_of_obtains {m : Module} (h : Module.codec.Obtains depth m) :
    ∀ d ∈ m.dependencies, d.id.Legible := by
  obtain ⟨_, ⟨group, name, version, packaging, dir, dependsOn, dependencies, _⟩, -, rfl, obtained⟩ :=
    Codec.obtains_record h
  rcases obtained.2.2.2.2.2.2.optional.1 with rfl | listed
  · exact nofun
  · obtain ⟨_, -, each⟩ := Codec.obtains_list listed
    exact fun d hd => Dependency.legible_of_obtains (each d hd)

/-! ## Configuration -/

theorem AggregateDecl.keeps_codec (d : AggregateDecl) (depth : Nat) : AggregateDecl.codec.Keeps (depth + 2) d :=
  Codec.keeps_record (by decide) rfl <|
    .required (Codec.keeps_textAs _ _ _) <|
    .defaulted (Codec.keeps_choice (by cases d.scope <;> decide) _) <|
    .required (keeps_listText _ _) trivial

theorem AssemblyConfig.keeps_codec (c : AssemblyConfig) (depth : Nat) : AssemblyConfig.codec.Keeps (depth + 5) c :=
  Codec.keeps_record (by decide) rfl <|
    .defaulted (Codec.keeps_flag _ _) <|
    .optional Option.isNone_iff_eq_none.1 (keeps_nullableText _ _) <|
    .optional Option.isNone_iff_eq_none.1 (keeps_nullableWord _ _) <|
    .defaulted (Codec.keeps_flag _ _) <|
    .defaulted (Codec.keeps_textAs _ _ _) <|
    .optional SortedMap.eq_empty_of_isEmpty
      (Codec.keeps_table (fun _ => rfl) fun e _ =>
        Codec.keeps_list fun d _ => AggregateDecl.keeps_codec d _) trivial

/-! ## The round trip -/

/-- **What a codec writes for a value of a kind is read back**, in the compact and in the indented
form, if the value was read from some text. -/
def Json.Codec.RoundTrips {α : Type} (c : Codec α) (kind : α → Prop) : Prop :=
  ∀ text x, c.decode text = .ok x → kind x →
    c.decode (c.encode x) = .ok x ∧ c.decode (c.encodeIndented x) = .ok x

theorem Json.Codec.roundTrips_of_keeps {α : Type} {c : Codec α} {kind : α → Prop}
    (h : ∀ x, c.Obtains depthLimit x → kind x → c.Keeps depthLimit x) : c.RoundTrips kind := by
  intro text x read hx
  have kept : c.Keeps depthLimit x := h x (obtains_of_decode read) hx
  exact ⟨kept.decode (spells_compact _), kept.decode (spells_indented 0 _)⟩

/-- **Documents round trip**: whatever is read from a text is read back from what is written for it,
for features and extensions as long as the documents in them have no numbers but integers. -/
theorem documents_round_trip :
    Artifact.codec.RoundTrips (fun _ => True) ∧
    Artifacts.codec.RoundTrips (fun _ => True) ∧
    Prototype.codec.RoundTrips (fun _ => True) ∧
    Extension.codec.RoundTrips Extension.Integral ∧
    Feature.codec.RoundTrips Feature.Integral ∧
    Dependency.codec.RoundTrips (fun _ => True) ∧
    Module.codec.RoundTrips (fun _ => True) ∧
    AggregateDecl.codec.RoundTrips (fun _ => True) ∧
    AssemblyConfig.codec.RoundTrips (fun _ => True) := by
  refine ⟨?_, ?_, ?_, ?_, ?_, ?_, ?_, ?_, ?_⟩
  · exact Codec.roundTrips_of_keeps fun a h _ => Artifact.keeps_codec (Artifact.legible_of_obtains h) 125
  · exact Codec.roundTrips_of_keeps fun c h _ => Artifacts.keeps_codec (Artifacts.legible_of_obtains h) 124
  · exact Codec.roundTrips_of_keeps fun p h _ => Prototype.keeps_codec (Prototype.legible_of_obtains h) 125
  · exact Codec.roundTrips_of_keeps fun e h integral =>
      Extension.keeps_codec (show e.Legible (123 + 3) from Extension.legible_of_obtains h integral)
  · exact Codec.roundTrips_of_keeps fun f h integral =>
      Feature.keeps_codec (show f.Legible (121 + 3) from Feature.legible_of_obtains h integral)
  · exact Codec.roundTrips_of_keeps fun d h _ => Dependency.keeps_codec (Dependency.legible_of_obtains h) 126
  · exact Codec.roundTrips_of_keeps fun m h _ => Module.keeps_codec (Module.legible_of_obtains h) 124
  · exact Codec.roundTrips_of_keeps fun d _ _ => AggregateDecl.keeps_codec d 125
  · exact Codec.roundTrips_of_keeps fun c _ _ => AssemblyConfig.keeps_codec c 122

/-! A feature with a document among its extensions, and a text of it with fields in another order. -/

def noted : Feature :=
  { Feature.of ((Identity.of "g" "app" "1").withType featureType) with
    extensions := ⟨[("limits", ⟨.optional, .structured (.object
      [("high", .number (.integer 7)), ("low", .array [.number (.integer (-7)), .null])])⟩)],
      List.pairwise_singleton _ _⟩ }

def notedText : String :=
  "\x7b\"title\": null, \"id\": \"g:app:feature:1\", \"extensions\": \x7b\"limits\": " ++
    "\x7b\"content\": \x7b\"low\": [-7, null], \"high\": 7\x7d, \"kind\": \"structured\"\x7d\x7d\x7d"

theorem noted_round_trip : Feature.codec.decode notedText = .ok noted ∧ noted.Integral ∧
    Feature.codec.decode (Feature.codec.encode noted) = .ok noted := by
  have read : Feature.codec.decode notedText = .ok noted := ok_of_toOption (by decide +kernel)
  have integral : noted.Integral := by
    rintro e he _ h
    cases List.mem_singleton.1 he
    cases h
    decide
  exact ⟨read, integral, (documents_round_trip.2.2.2.2.1 notedText noted read integral).1⟩

end FeatureAssembly
