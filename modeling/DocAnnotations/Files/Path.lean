import DocAnnotations.Pieces

/-!
Paths of files: a root and components. Components that change nothing are left out.
-/

namespace DocAnnotations.Files

/-- A path. The root is empty for relative paths. -/
structure Path where
  root : String := ""
  components : List String
  deriving DecidableEq, Repr, Inhabited

namespace Path

/-- The root that slashes in front stand for. Exactly two of them are a root of their own. -/
def rootOf (slashes : Nat) : String :=
  if slashes = 0 then "" else if slashes = 2 then "//" else "/"

/-- The path that a text stands for. -/
def ofText (s : String) : Path :=
  let cs := s.toList
  { root := rootOf (cs.takeWhile (· = '/')).length
    components := ((pieces (· = '/') cs).map String.ofList).filter fun c => c ≠ "" ∧ c ≠ "." }

/-- The path as text. A path without components is a single point. -/
def text (path : Path) : String :=
  let joined := "/".intercalate path.components
  if path.root = "" ∧ path.components = [] then "." else path.root ++ joined

/-- The text of the path that a text stands for. -/
def normalize (s : String) : String :=
  (ofText s).text

end Path

/-- Whether one list of components comes before another or is equal to it, component by
component. -/
def componentsLE : List String → List String → Bool
  | [], _ => true
  | _ :: _, [] => false
  | a :: as, b :: bs => if a = b then componentsLE as bs else a < b

end DocAnnotations.Files
