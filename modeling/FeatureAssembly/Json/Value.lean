import FeatureAssembly.SortedMap
import FeatureAssembly.Json.Binary64

/-!
# Document values

A document as a tree. The fields of an object stand in the order in which they
were read or are to be written, and one name may occur twice. `Json.sorted` is
the form in which a tree is kept as a value: names ascend and the last field of
a name stays.
-/

namespace FeatureAssembly

/-- A number: an integer of at most 64 bits, or a finite binary64 number. -/
inductive Number where
  | integer (n : Int)
  | real (x : Binary64)
deriving DecidableEq, Repr, Inhabited

/-- **A document.** -/
inductive Json where
  | null
  | boolean (b : Bool)
  | number (n : Number)
  | string (s : String)
  | array (items : List Json)
  | object (fields : List (String × Json))
deriving Repr, Inhabited

namespace Json

/-! ## Equality -/

mutual

def decEq : (a b : Json) → Decidable (a = b)
  | .null, .null => isTrue rfl
  | .boolean a, .boolean b =>
    if h : a = b then isTrue (h ▸ rfl) else isFalse fun e => h (by injection e)
  | .number a, .number b =>
    if h : a = b then isTrue (h ▸ rfl) else isFalse fun e => h (by injection e)
  | .string a, .string b =>
    if h : a = b then isTrue (h ▸ rfl) else isFalse fun e => h (by injection e)
  | .array a, .array b =>
    match decEqItems a b with
    | isTrue h => isTrue (h ▸ rfl)
    | isFalse h => isFalse fun e => h (by injection e)
  | .object a, .object b =>
    match decEqFields a b with
    | isTrue h => isTrue (h ▸ rfl)
    | isFalse h => isFalse fun e => h (by injection e)
  | .null, .boolean _ | .null, .number _ | .null, .string _ | .null, .array _ | .null, .object _
  | .boolean _, .null | .boolean _, .number _ | .boolean _, .string _ | .boolean _, .array _
  | .boolean _, .object _
  | .number _, .null | .number _, .boolean _ | .number _, .string _ | .number _, .array _
  | .number _, .object _
  | .string _, .null | .string _, .boolean _ | .string _, .number _ | .string _, .array _
  | .string _, .object _
  | .array _, .null | .array _, .boolean _ | .array _, .number _ | .array _, .string _
  | .array _, .object _
  | .object _, .null | .object _, .boolean _ | .object _, .number _ | .object _, .string _
  | .object _, .array _ => isFalse nofun

def decEqItems : (a b : List Json) → Decidable (a = b)
  | [], [] => isTrue rfl
  | [], _ :: _ | _ :: _, [] => isFalse nofun
  | x :: a, y :: b =>
    match decEq x y, decEqItems a b with
    | isTrue h, isTrue h' => isTrue (h ▸ h' ▸ rfl)
    | isFalse h, _ => isFalse fun e => h (by injection e)
    | _, isFalse h => isFalse fun e => h (by injection e)

def decEqFields : (a b : List (String × Json)) → Decidable (a = b)
  | [], [] => isTrue rfl
  | [], _ :: _ | _ :: _, [] => isFalse nofun
  | (k, x) :: a, (l, y) :: b =>
    match decEq x y, decEqFields a b with
    | isTrue h, isTrue h' =>
      if hk : k = l then isTrue (by rw [h, h', hk])
      else isFalse fun e => hk (by injection e with e; injection e)
    | isFalse h, _ => isFalse fun e => h (by injection e with e; injection e)
    | _, isFalse h => isFalse fun e => h (by injection e)

end

instance : DecidableEq Json := decEq

/-! ## The sorted form -/

mutual

/-- The document with the fields of every object sorted by name, the last field of
a name standing for all of them. -/
def sorted : Json → Json
  | .array items => .array (sortedItems items)
  | .object fields => .object (sortedFields [] fields)
  | other => other

def sortedItems : List Json → List Json
  | [] => []
  | x :: rest => sorted x :: sortedItems rest

def sortedFields (done : List (String × Json)) : List (String × Json) → List (String × Json)
  | [] => done
  | (name, x) :: rest => sortedFields (SortedMap.insertEntry name (sorted x) done) rest

end

end Json

end FeatureAssembly
