import DocAnnotations.Entries
import DocAnnotations.QualifiedName

/-!
The names that are valid in the scope of one class: its namespace and its imports. `find?` says
which class a written name stands for, and `aliasesFor` which names stand for a class.
-/

namespace DocAnnotations

/-- A namespace, and imports from qualified names to the local names they are known by. -/
structure AliasTable where
  scope : String := ""
  imports : Entries String := []
  deriving DecidableEq, Repr, Inhabited

namespace AliasTable

open QualifiedName

/-- What is stored under a key: the namespace under the empty key, and else a local name. -/
def get? (table : AliasTable) (key : String) : Option String :=
  if key = "" then some table.scope else table.imports.get? key

def hasKey (table : AliasTable) (key : String) : Bool :=
  key = "" || table.imports.hasKey key

/-- The name that a local name stands for at the front of a relative name. -/
def throughImport (qualified localName name : String) : Option String :=
  if name = localName then some qualified
  else (relativeTo? localName name).map (below qualified)

/-- The name through the last import that applies. -/
def throughImports (table : AliasTable) (name : String) : Option String :=
  (table.imports.filterMap fun i => throughImport i.1 i.2 name).getLast?.filter (· ≠ "")

/-- The name in the namespace, if that class is known, or else the bare name. -/
def ambient (known : String → Bool) (table : AliasTable) (name : String) : Option String :=
  if table.scope ≠ "" ∧ known (below table.scope name) then some (below table.scope name)
  else if known name then some name
  else none

/-- The class that a trimmed name stands for. Absolute names are looked up as they are. -/
def findTrimmed? (known : String → Bool) (table : AliasTable) (name : String) : Option String :=
  if dropLeading name = "" then none
  else if isAbsolute name then
    if known (dropLeading name) then some (dropLeading name) else none
  else if table.imports.hasKey name then some name
  else (table.throughImports name).or (table.ambient known name)

/-- The class that a written name stands for. -/
def find? (known : String → Bool) (table : AliasTable) (name : String) : Option String :=
  table.findTrimmed? known (Text.strip name)

/-- The class that a written name stands for, or the trimmed name if it stands for none. -/
def find (known : String → Bool) (table : AliasTable) (name : String) : String :=
  (table.find? known name).getD (Text.strip name)

/-- The name that one scope, with the local name that stands for it, gives a class. -/
def aliasIn (qualified localName className : String) : Option String :=
  if className = qualified ∧ localName ≠ "" then some localName
  else (relativeTo? qualified className).map fun rest =>
    if localName = "" then rest
    else if rest = "" then localName
    else below localName rest

/-- The namespace, which needs no name of its own, and the imports. -/
def scopes (table : AliasTable) : List (String × String) :=
  if table.scope = "" then table.imports else (table.scope, "") :: table.imports

/-- The names that stand for a class, each once. -/
def aliasesFor (table : AliasTable) (className : String) : List String :=
  (table.scopes.filterMap fun s => aliasIn s.1 s.2 (dropLeading className)).eraseDups

end AliasTable

end DocAnnotations
