import DocAnnotations.Text.Blank
import DocAnnotations.Text.Front

/-!
Qualified names: segments joined by backslashes, where a backslash in front marks an absolute name.
-/

namespace DocAnnotations.QualifiedName

open Text

def isSeparator (c : Char) : Bool :=
  c = '\\'

/-- The name without backslashes in front. -/
def dropLeading (name : String) : String :=
  String.ofList (name.toList.dropWhile isSeparator)

/-- The name without backslashes in front and at the end. -/
def dropOuter (name : String) : String :=
  String.ofList (trimBy isSeparator name.toList)

def isAbsolute (name : String) : Bool :=
  name.toList.head? = some '\\'

/-- The part after the last backslash. -/
def lastSegment (name : String) : String :=
  String.ofList (name.toList.reverse.takeWhile (!isSeparator ·)).reverse

/-- A name below a scope. -/
def below (scope name : String) : String :=
  scope ++ "\\" ++ name

/-- The part of a name below a scope. -/
def relativeTo? (scope name : String) : Option String :=
  (dropFront? (scope.toList ++ ['\\']) name.toList).map String.ofList

/-- A name in a namespace. The global namespace is empty. -/
def inScope (scope name : String) : String :=
  if scope = "" then name else below scope name

end DocAnnotations.QualifiedName
