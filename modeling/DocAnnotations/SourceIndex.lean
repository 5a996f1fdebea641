import DocAnnotations.Files.Glob
import DocAnnotations.QualifiedName
import DocAnnotations.Source.Outline
import DocAnnotations.Source.Parser
import DocAnnotations.Text.Utf8
import DocAnnotations.Value

/-!
Classes by their qualified names, with the sources that declare them. Names are looked up without
backslashes in front, and a class that is added again replaces the one before in its place. How a
source is parsed into statements is a parameter of the index.
-/

namespace DocAnnotations

/-- Classes and the sources that declare them, by qualified name. -/
structure SourceIndex where
  parse : String → List Source.StatementSyntax := Source.Parser.parse
  classes : Entries SourceClass := []
  sources : Entries String := []
  deriving Inhabited

namespace SourceIndex

open QualifiedName

/-- Adds a class with the source that declares it. -/
def addClass (index : SourceIndex) (cls : SourceClass) (source : String) : SourceIndex :=
  { index with
    classes := index.classes.insert cls.qualifiedName cls
    sources := index.sources.insert cls.qualifiedName source }

/-- Adds the classes of one source. -/
def addClasses (index : SourceIndex) (classes : List SourceClass) (source : String) :
    SourceIndex :=
  classes.foldl (fun index cls => index.addClass cls source) index

/-- The path that a source is known by. An empty one is none. -/
def shownPath (file : Option String) : Option String :=
  (file.filter (· ≠ "")).map Files.Path.normalize

/-- The classes that a source declares. -/
def classesOf (index : SourceIndex) (source : String) (path : Option String) : List SourceClass :=
  Source.outline path (index.parse source)

/-- Adds the classes of a source, and gives them. -/
def addSource (index : SourceIndex) (source : String) (file : Option String) :
    List SourceClass × SourceIndex :=
  let classes := index.classesOf source (shownPath file)
  (classes, index.addClasses classes source)

/-- Adds the classes of the files that match a pattern, and counts them. -/
def addFiles (index : SourceIndex) (tree : Files.Tree) (pattern : String) :
    Except Files.GlobFault (Nat × SourceIndex) := do
  let files ← Files.Glob.files tree pattern
  return files.foldl (fun (count, index) file =>
    let source := Text.Utf8.decode file.2
    let classes := index.classesOf source (some ("/".intercalate file.1))
    (count + classes.length, index.addClasses classes source)) (0, index)

/-- The class of a name. -/
def class? (index : SourceIndex) (name : String) : Option SourceClass :=
  index.classes.get? (dropLeading name)

/-- The source that declares a class, or an empty text. -/
def source (index : SourceIndex) (name : String) : String :=
  (index.sources.get? (dropLeading name)).getD ""

/-- Whether a class of this name is known. -/
def contains (index : SourceIndex) (name : String) : Bool :=
  index.classes.hasKey (dropLeading name)

/-- Whether a value is the name of a class. -/
def containsValue (index : SourceIndex) : Value → Bool
  | .text name => index.contains name
  | _ => false

end SourceIndex

end DocAnnotations
