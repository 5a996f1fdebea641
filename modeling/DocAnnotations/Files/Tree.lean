import DocAnnotations.Files.Path

/-!
Folders with their files.
-/

namespace DocAnnotations.Files

/-- A file with its octets, or a folder with its entries. -/
inductive Tree where
  | file (octets : List UInt8)
  | folder (entries : List (String × Tree))
  deriving Inhabited

namespace Tree

def isFolder : Tree → Bool
  | folder _ => true
  | file _ => false

/-- The entries of a folder. -/
def entries : Tree → List (String × Tree)
  | folder entries => entries
  | file _ => []

def entry? (tree : Tree) (name : String) : Option Tree :=
  (tree.entries.find? (·.1 = name)).map (·.2)

/-- The tree with an entry written. -/
def setEntry (tree : Tree) (name : String) (content : Tree) : Tree :=
  if (tree.entry? name).isSome then
    folder (tree.entries.map fun e => if e.1 = name then (name, content) else e)
  else folder (tree.entries ++ [(name, content)])

/-- Writes a file or an empty folder at a path, with the folders that lead to it. A folder that is
there is kept. -/
def write (content : Tree) : List String → Tree → Tree
  | [], tree => if content.isFolder ∧ tree.isFolder then tree else content
  | name :: rest, tree =>
    tree.setEntry name (write content rest ((tree.entry? name).getD (folder [])))

/-- What stands at a path, where two points lead to the folder above. The folders that lead here
come innermost first. -/
def walk (above : List Tree) (here : Tree) : List String → Option Tree
  | [] => some here
  | ".." :: rest =>
    match above with
    | [] => none
    | outer :: above => walk above outer rest
  | name :: rest =>
    match here.entry? name with
    | some next => walk (here :: above) next rest
    | none => none

def at? (tree : Tree) (path : List String) : Option Tree :=
  walk [] tree path

mutual

/-- The paths of the folders in a tree, itself first. -/
def folders : Tree → List (List String)
  | file _ => []
  | folder entries => [] :: foldersIn entries

def foldersIn : List (String × Tree) → List (List String)
  | [] => []
  | (name, tree) :: rest => tree.folders.map (name :: ·) ++ foldersIn rest

end

end Tree

end DocAnnotations.Files
