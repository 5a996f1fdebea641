import DocAnnotations.Source.Expression

/-!
The statements of a source, as a parser gives them: declarations with their attributes, and the
comments between them. Of everything else only its place counts.
-/

namespace DocAnnotations.Source

/-- A part of the body of a class. Lines count from one. -/
inductive MemberSyntax where
  | comment (text : String)
  /-- One declaration may declare several properties. Their names have their signs. -/
  | properties (names : List String) (attributes : List AttributeSyntax)
      (startLine endLine : Nat)
  | method (name : String) (attributes : List AttributeSyntax) (startLine endLine : Nat)
  | other
  deriving Inhabited

/-- A class-like declaration. Its parents are the names behind `extends`, as they are written. -/
structure ClassSyntax where
  kind : ClassKind := .plainClass
  name : String
  parents : List String := []
  attributes : List AttributeSyntax := []
  body : List MemberSyntax := []
  startLine : Nat := 0
  endLine : Nat := 0

inductive StatementSyntax where
  | comment (text : String)
  /-- Begins the namespace of the statements behind it. -/
  | scope (name : Option String)
  /-- Puts the statements of a block into a namespace. -/
  | block (name : Option String) (statements : List StatementSyntax)
  | declaration (cls : ClassSyntax)
  | other
  deriving Inhabited

end DocAnnotations.Source
