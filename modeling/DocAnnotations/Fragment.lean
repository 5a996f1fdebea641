/-!
Occurrences of annotations as they are written.
-/

namespace DocAnnotations

/-- One occurrence of an annotation: the name as it is written, the text after it, and the
annotations that stood inside its parentheses. -/
structure Fragment where
  name : String
  raw : String
  children : List Fragment
  deriving Inhabited

namespace Fragment

mutual

def decEq : (f g : Fragment) → Decidable (f = g)
  | ⟨name, raw, children⟩, ⟨other, text, others⟩ =>
    have := decEqAll children others
    decidable_of_iff (name = other ∧ raw = text ∧ children = others) (by simp)

def decEqAll : (fs gs : List Fragment) → Decidable (fs = gs)
  | [], [] => isTrue rfl
  | f :: fs, g :: gs =>
    have := f.decEq g
    have := decEqAll fs gs
    decidable_of_iff (f = g ∧ fs = gs) (by simp)
  | [], _ :: _ | _ :: _, [] => isFalse nofun

end

instance : DecidableEq Fragment := decEq

/-- What stands in the text in place of the child at an index. -/
def placeholder (index : Nat) : String :=
  s!"_child_{index}"

end Fragment

end DocAnnotations
