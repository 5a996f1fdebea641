import DocAnnotations.Declaration
import DocAnnotations.Entries

/-!
What is known of the classes of a source: their members, doc comments and native attributes.
-/

namespace DocAnnotations

/-- The characters of names in a source. All characters outside ASCII are. -/
def Source.isNameChar (c : Char) : Bool :=
  c.isAlphanum || c = '_' || 0x80 ≤ c.toNat

/-- A native attribute. The arguments are an argument text, and `text` shows them as plain text. -/
structure NativeAttribute where
  name : String
  arguments : String := ""
  text : String := ""
  deriving DecidableEq, Repr, Inhabited

inductive MemberKind where
  | property
  | method
  deriving DecidableEq, Repr, Inhabited

/-- A property or method. Lines count from one. -/
structure Member where
  kind : MemberKind
  name : String
  startLine : Nat := 0
  endLine : Nat := 0
  docComment : Option String := none
  attributes : List NativeAttribute := []
  deriving DecidableEq, Repr, Inhabited

/-- A property's name without its sign. -/
def propertyName (name : String) : String :=
  String.ofList (name.toList.dropWhile (· = '$'))

inductive ClassKind where
  | plainClass
  | interface
  | trait
  | enumeration
  deriving DecidableEq, Repr, Inhabited

/-- A class-like declaration. The parent's name is as it is written. -/
structure SourceClass where
  kind : ClassKind := .plainClass
  name : String
  qualifiedName : String
  scope : Option String := none
  file : Option String := none
  startLine : Nat := 0
  endLine : Nat := 0
  parent : Option String := none
  docComment : Option String := none
  attributes : List NativeAttribute := []
  properties : Entries Member := []
  methods : Entries Member := []
  deriving DecidableEq, Inhabited

namespace SourceClass

/-- The member that a declaration names. The class itself is no member. -/
def member? (cls : SourceClass) (kind : DeclarationKind) (name : Option String) : Option Member :=
  match kind with
  | .onClass => none
  | .onProperty => cls.properties.get? (name.getD "")
  | .onMethod => cls.methods.get? (name.getD "")

end SourceClass

end DocAnnotations
