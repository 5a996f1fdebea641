import DocAnnotations.Value

/-!
Annotations by name. Those of one name stay together in the order in which they stand, and the names
in the order in which they first come.
-/

namespace DocAnnotations

/-- The annotations of a declaration by name. No group is empty. -/
abbrev AnnotationGroups := Entries (List Value)

namespace AnnotationGroups

/-- Adds an annotation at the end of the group of its name. -/
def add (groups : AnnotationGroups) (name : String) (v : Value) : AnnotationGroups :=
  Entries.insert groups name ((Entries.get? groups name).getD [] ++ [v])

/-- A group as one value: its only annotation, or the list of several. -/
def shown : List Value → Value
  | [v] => v
  | vs => .list vs

/-- The value shown under a name. -/
def shown? (groups : AnnotationGroups) (name : String) : Option Value :=
  (Entries.get? groups name).map shown

/-- The values shown under all names. -/
def toEntries (groups : AnnotationGroups) : Entries Value :=
  Entries.mapContents (fun _ => shown) groups

/-- All values that are shown, where lists give their items. -/
def flatten (entries : Entries Value) : List Value :=
  entries.flatMap fun e =>
    match e.2 with
    | .list items => items
    | v => [v]

end AnnotationGroups

end DocAnnotations
