import DocAnnotations.Factory
import DocAnnotations.Text.Lower

/-!
How the attributes of an annotation meet the parameters, fields and setters of its type. A name is
matched exactly if possible, else without regard to case, and else without underscores too.
-/

namespace DocAnnotations

/-- What is known of a registered annotation type. -/
structure Schema where
  name : String
  factory : Factory
  required : List String
  fields : List String
  /-- Fields with the methods that set them. -/
  setters : Entries String
  positional : Option String
  privileged : Bool

namespace Schema

/-- A name without case and underscores. -/
def looseName (name : String) : String :=
  Text.lower (String.ofList (name.toList.filter (· ≠ '_')))

/-- The candidate that a name means. -/
def matchName (name : String) (candidates : List String) : Option String :=
  (candidates.find? (· = name)).or <|
    (candidates.find? fun c => Text.lower c = Text.lower name).or <|
      candidates.find? fun c => looseName c = looseName name

/-- The attribute for a required parameter. -/
def matchRequired (parameter : String) (attributes : List String) : Option String :=
  matchName parameter attributes

/-- The field that an attribute is assigned to. -/
def matchField (schema : Schema) (name : String) : Option String :=
  matchName name schema.fields

/-- The method that an attribute is handed to. An empty field name has none. -/
def matchSetter (schema : Schema) (name : String) : Option String :=
  match matchName name schema.setters.keys with
  | some field => if field = "" then none else schema.setters.get? field
  | none => none

end Schema

end DocAnnotations
