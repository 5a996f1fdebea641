import DocAnnotations.Binary64
import DocAnnotations.Entries
import DocAnnotations.Generic

/-!
Values of annotation arguments, and the annotations that are made of them.
-/

namespace DocAnnotations

/-- A value: plain data, an annotation kept as text, or an instance of an annotation type. -/
inductive Value where
  | null
  | bool (b : Bool)
  | int (n : Int)
  | float (x : Binary64)
  | text (s : String)
  | list (items : List Value)
  | map (entries : List (String × Value))
  | generic (g : Generic)
  | object (type : String) (fields : List (String × Value))
  deriving Inhabited

namespace Value

def isGeneric : Value → Bool
  | generic _ => true
  | _ => false

/-- Whether the value counts as nothing where a default takes its place. -/
def isFalsy : Value → Bool
  | null => true
  | bool b => !b
  | int n => n = 0
  | float x => x.magnitude = 0
  | text s => s = ""
  | list items => items.isEmpty
  | map entries => entries.isEmpty
  | generic _ => false
  | object _ _ => false

/-- The text that a value is. -/
def text? : Value → Option String
  | text s => some s
  | _ => none

/-- The values of the fields of an instance; other values have none. -/
def fields : Value → Entries Value
  | object _ fields => fields
  | _ => []

mutual

/-- Whether two values are the same. -/
def same : Value → Value → Bool
  | null, null => true
  | bool a, bool b => a = b
  | int m, int n => m = n
  | float x, float y => x = y
  | text s, text t => s = t
  | list items, list others => sameItems items others
  | map entries, map others => sameEntries entries others
  | generic g, generic h => g = h
  | object type fields, object other others => type = other && sameEntries fields others
  | _, _ => false

def sameItems : List Value → List Value → Bool
  | [], [] => true
  | v :: vs, w :: ws => v.same w && sameItems vs ws
  | _, _ => false

def sameEntries : List (String × Value) → List (String × Value) → Bool
  | [], [] => true
  | (k, v) :: vs, (l, w) :: ws => k = l && v.same w && sameEntries vs ws
  | _, _ => false

end

mutual

theorem same_iff : (v w : Value) → (v.same w = true ↔ v = w)
  | list items, w => by cases w <;> simp [same, sameItems_iff items]
  | map entries, w => by cases w <;> simp [same, sameEntries_iff entries]
  | object _ fields, w => by cases w <;> simp [same, sameEntries_iff fields]
  | null, w | bool _, w | int _, w | float _, w | text _, w | generic _, w => by
    cases w <;> simp [same]

theorem sameItems_iff : (vs ws : List Value) → (sameItems vs ws = true ↔ vs = ws)
  | [], ws => by cases ws <;> simp [sameItems]
  | v :: vs, ws => by cases ws <;> simp [sameItems, same_iff v, sameItems_iff vs]

theorem sameEntries_iff :
    (vs ws : List (String × Value)) → (sameEntries vs ws = true ↔ vs = ws)
  | [], ws => by cases ws <;> simp [sameEntries]
  | (k, v) :: vs, ws => by
    cases ws <;> simp [sameEntries, same_iff v, sameEntries_iff vs, Prod.ext_iff]

end

instance : DecidableEq Value := fun v w => decidable_of_iff _ (same_iff v w)

end Value

end DocAnnotations
