import FeatureAssembly.Reactor.Module

/-!
# The reactor

The modules of one build. No two of them share a key, and every module that one of
them depends on is among them; `Reactor.ofModules` refuses all other lists.
-/

namespace FeatureAssembly

/-- Why modules make no reactor, or why it has no build order. -/
inductive ReactorError where
  | duplicateModule (key : ModuleKey)
  /-- A module depends on one that is not declared. -/
  | unknownModule (key dependency : ModuleKey)
  /-- Modules depend on each other. -/
  | cycle (members : List ModuleKey)
deriving DecidableEq

def ReactorError.message : ReactorError → String
  | .duplicateModule key => s!"module {key.text} is declared more than once"
  | .unknownModule key dependency =>
    s!"module {key.text} depends on unknown module {dependency.text}"
  | .cycle members =>
    "module dependency cycle: " ++ Text.joinWith " -> " (members.map ModuleKey.text)

/-- **The modules of one build.** -/
structure Reactor where
  /-- The modules, in the order of their declaration. -/
  modules : List Module
  distinct : (modules.map Module.key).Nodup
  closed : ∀ m ∈ modules, ∀ d ∈ m.dependsOn, d ∈ modules.map Module.key

namespace Reactor

def empty : Reactor := ⟨[], .nil, nofun⟩

instance : Inhabited Reactor := ⟨empty⟩

/-- The first key of a list that occurred before, given the keys before the list. -/
def firstRepeated? (seen : List ModuleKey) : List ModuleKey → Option ModuleKey
  | [] => none
  | k :: rest => if k ∈ seen then some k else firstRepeated? (k :: seen) rest

/-- The first build dependency that is not declared, with the module that has it. -/
def firstUnknown? (keys : List ModuleKey) : List Module → Option (ModuleKey × ModuleKey)
  | [] => none
  | m :: rest =>
    match m.dependsOn.find? fun d => !keys.contains d with
    | some d => some (m.key, d)
    | none => firstUnknown? keys rest

theorem nodup_of_firstRepeated? {seen l : List ModuleKey} (h : firstRepeated? seen l = none) :
    l.Nodup ∧ ∀ k ∈ l, k ∉ seen := by
  induction l generalizing seen with
  | nil => exact ⟨.nil, nofun⟩
  | cons k rest ih =>
    rw [firstRepeated?] at h
    split at h
    · simp at h
    · next hk =>
      obtain ⟨hn, hs⟩ := ih h
      refine ⟨List.nodup_cons.2 ⟨fun hm => hs k hm List.mem_cons_self, hn⟩, fun j hj => ?_⟩
      rcases List.mem_cons.1 hj with rfl | hj
      · exact hk
      · exact fun hm => hs j hj (List.mem_cons_of_mem _ hm)

theorem closed_of_firstUnknown? {keys : List ModuleKey} {l : List Module}
    (h : firstUnknown? keys l = none) : ∀ m ∈ l, ∀ d ∈ m.dependsOn, d ∈ keys := by
  induction l with
  | nil => nofun
  | cons m rest ih =>
    rw [firstUnknown?] at h
    split at h
    · simp at h
    · next hf =>
      intro j hj d hd
      rcases List.mem_cons.1 hj with rfl | hj
      · simpa using List.find?_eq_none.1 hf d hd
      · exact ih h j hj d hd

/-- **The reactor of a list of modules.** A key that is declared again is reported
before a build dependency that is not declared. -/
def ofModules (modules : List Module) : Except ReactorError Reactor :=
  match hr : firstRepeated? [] (modules.map Module.key) with
  | some key => .error (.duplicateModule key)
  | none =>
    match hu : firstUnknown? (modules.map Module.key) modules with
    | some (key, dependency) => .error (.unknownModule key dependency)
    | none => .ok ⟨modules, (nodup_of_firstRepeated? hr).1, closed_of_firstUnknown? hu⟩

/-- The module with a key. -/
def get? (r : Reactor) (key : ModuleKey) : Option Module := r.modules.find? fun m => m.key == key

def contains (r : Reactor) (key : ModuleKey) : Bool := (r.get? key).isSome

def keys (r : Reactor) : List ModuleKey := r.modules.map Module.key

/-- The dependencies that the module with a key declares. -/
def declared (r : Reactor) (key : ModuleKey) : List Dependency :=
  ((r.get? key).map Module.dependencies).getD []

end Reactor

end FeatureAssembly
