import DocAnnotations.AliasTable
import DocAnnotations.Generic

/-!
The names of one class together with the classes that exist.
-/

namespace DocAnnotations

/-- The alias table of a class, and which classes exist. -/
structure NameScope where
  table : AliasTable
  known : String → Bool

namespace NameScope

/-- The class that a written name stands for. -/
def find? (scope : NameScope) (name : String) : Option String :=
  scope.table.find? scope.known name

/-- The class that a written name stands for, or the trimmed name. -/
def find (scope : NameScope) (name : String) : String :=
  scope.table.find scope.known name

/-- The scope as it serves to look up the types that annotations are kept with. -/
def lookup (scope : NameScope) : TypeLookup :=
  fun name => some (scope.find name)

end NameScope

end DocAnnotations
