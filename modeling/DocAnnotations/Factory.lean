import DocAnnotations.ReadError
import DocAnnotations.QualifiedName

/-!
Makers of annotation instances. A factory says which constructor parameters and fields its type
has, and how an instance is built and then filled.
-/

namespace DocAnnotations

/-- What a method makes of its argument and an instance. -/
abbrev Method := Value → Value → Except BuildFault Value

/-- A maker of annotation instances. Parameters that are not known are not checked. -/
structure Factory where
  typeName : String
  /-- Constructor parameters without a default, in order. -/
  required : List String
  /-- Fields that can be assigned. -/
  fields : List String
  parameters : Option (List String)
  /-- Public methods, in alphabetical order. -/
  methods : List (String × Method)
  build : Entries Value → Except BuildFault Value
  /-- Assigns a field of an instance. -/
  assign : String → Method

namespace Factory

def setterStart : String := "set_"

/-- The method that sets a field by convention. -/
def setterNamed (field : String) : String :=
  setterStart ++ field

/-- Fields with the methods that set them by convention. -/
def conventionalSetters (factory : Factory) : Entries String :=
  Entries.ofPairs <| factory.methods.filterMap fun m =>
    (Text.dropFront? setterStart.toList m.1.toList).map (String.ofList ·, m.1)

def hasMethod (factory : Factory) (name : String) : Bool :=
  factory.methods.any (·.1 = name)

/-- Calls a method of an instance. -/
def call (factory : Factory) (name : String) : Method := fun content target =>
  match factory.methods.find? (·.1 = name) with
  | some m => m.2 content target
  | none => .error .noSuchMember

/-- Writes a field of an instance. Lists, maps and nothing have no fields. -/
def writeField (field : String) : Method := fun content target =>
  match target with
  | .object type fields => .ok (.object type (Entries.insert fields field content))
  | _ => .error .noSuchMember

end Factory

end DocAnnotations
