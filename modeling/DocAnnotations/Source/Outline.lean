import DocAnnotations.Source.Syntax

/-!
The classes that the statements of a source declare, with their members. The comment directly before
a declaration is its doc comment if it begins as one.
-/

namespace DocAnnotations.Source

/-- The doc comment that a comment is. -/
def docComment? (text : String) : Option String :=
  if "/**".toList.isPrefixOf text.toList then some text else none

/-- The members of a class body, where `doc` is the doc comment directly before them. -/
def members (doc : Option String) : List MemberSyntax → List Member
  | [] => []
  | .comment text :: rest => members (docComment? text) rest
  | .properties names attributes startLine endLine :: rest =>
    names.map (fun name =>
      { kind := .property, name := propertyName name, startLine, endLine
        docComment := doc, attributes := attributes.map (·.toNative) })
      ++ members none rest
  | .method name attributes startLine endLine :: rest =>
    { kind := .method, name, startLine, endLine
      docComment := doc, attributes := attributes.map (·.toNative) } :: members none rest
  | .other :: rest => members none rest

/-- The members of a kind by their names. A later one replaces an earlier one in its place. -/
def membersByName (kind : MemberKind) (all : List Member) : Entries Member :=
  Entries.ofPairs ((all.filter (·.kind = kind)).map fun m => (m.name, m))

/-- The class that is declared in a namespace behind a doc comment. -/
def classOf (file scope doc : Option String) (cls : ClassSyntax) : SourceClass :=
  let all := members none cls.body
  { kind := cls.kind
    name := cls.name
    qualifiedName := QualifiedName.inScope (scope.getD "") cls.name
    scope
    file
    startLine := cls.startLine
    endLine := cls.endLine
    parent := cls.parents.head?
    docComment := doc
    attributes := cls.attributes.map (·.toNative)
    properties := membersByName .property all
    methods := membersByName .method all }

/-- The doc comment directly before what follows a statement. -/
def docAfter : StatementSyntax → Option String
  | .comment text => docComment? text
  | .scope _ | .block _ _ | .declaration _ | .other => none

/-- The namespace of what follows a statement, where `scope` is the one before it. -/
def scopeAfter (scope : Option String) : StatementSyntax → Option String
  | .scope name => name
  | .comment _ | .block _ _ | .declaration _ | .other => scope

mutual

/-- The classes that a statement declares, where `scope` is the namespace and `doc` the doc comment
directly before it. -/
def classesIn (file scope doc : Option String) : StatementSyntax → List SourceClass
  | .block name statements => classes file name none statements
  | .declaration cls => [classOf file scope doc cls]
  | .comment _ | .scope _ | .other => []

def classes (file scope doc : Option String) : List StatementSyntax → List SourceClass
  | [] => []
  | statement :: rest =>
    classesIn file scope doc statement ++
      classes file (scopeAfter scope statement) (docAfter statement) rest

end

/-- The classes of a source, in their order. -/
def outline (file : Option String) (statements : List StatementSyntax) : List SourceClass :=
  classes file none none statements

end DocAnnotations.Source
