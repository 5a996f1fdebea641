/-!
Declarations that carry annotations: a class, or a property or method of a class.
-/

namespace DocAnnotations

/-- What an annotation stands on. -/
inductive DeclarationKind where
  | onClass
  | onProperty
  | onMethod
  deriving DecidableEq, Repr, Inhabited

/-- Names the declaration that an annotation stands on. -/
structure DeclarationKey where
  className : String
  kind : DeclarationKind := .onClass
  member : Option String := none
  deriving DecidableEq, Repr, Inhabited

namespace DeclarationKind

def name : DeclarationKind → String
  | .onClass => "class"
  | .onProperty => "property"
  | .onMethod => "method"

end DeclarationKind

namespace DeclarationKey

/-- The member's name; a key without one shows the word `None` in its place. -/
def memberName (key : DeclarationKey) : String :=
  key.member.getD "None"

/-- Names the declaration within its class: `c`, `p:name` or `m:name`. -/
def itemName (key : DeclarationKey) : String :=
  match key.kind with
  | .onClass => "c"
  | .onProperty => "p:" ++ key.memberName
  | .onMethod => "m:" ++ key.memberName

/-- The declaration as messages show it. -/
def text (key : DeclarationKey) : String :=
  match key.kind with
  | .onClass => key.className
  | .onProperty => key.className ++ "::$" ++ key.memberName
  | .onMethod => key.className ++ "::" ++ key.memberName

end DeclarationKey

end DocAnnotations
