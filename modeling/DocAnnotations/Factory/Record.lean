import DocAnnotations.Factory

/-!
Types whose constructor takes any values for its parameters.
-/

namespace DocAnnotations.Factory

/-- A field of a record, which is a parameter of its constructor. -/
structure RecordField where
  name : String
  default? : Option Value := none

/-- The field's content from the arguments, or its default. -/
def RecordField.content? (field : RecordField) (arguments : Entries Value) : Option Value :=
  (arguments.get? field.name).or field.default?

/-- Whether the arguments are parameters of a constructor. -/
def areParameters (parameters : List String) (arguments : Entries Value) : Bool :=
  arguments.keys.all parameters.contains

/-- The contents of the fields, if none of them lacks an argument. -/
def recordContents (fields : List RecordField) (arguments : Entries Value) :
    Option (Entries Value) :=
  fields.mapM fun f => (f.content? arguments).map (f.name, ·)

/-- A type of records. The fields in `later` are no parameters: they are there only once they have
been assigned. -/
def record (typeName : String) (fields : List RecordField) (later : List String := []) :
    Factory :=
  let parameters := fields.map (·.name)
  { typeName
    required := (fields.filter (·.default?.isNone)).map (·.name)
    fields := parameters ++ later
    parameters := some parameters
    methods := []
    build := fun arguments =>
      match recordContents fields arguments with
      | some contents =>
        if areParameters parameters arguments then .ok (.object typeName contents)
        else .error .wrongArguments
      | none => .error .wrongArguments
    assign := writeField }

end DocAnnotations.Factory
