import DocAnnotations.Factory.Catalogue
import DocAnnotations.Schema

/-!
The annotation types that are known. A registration is checked as a whole before anything is
stored, and names are looked up without backslashes in front.
-/

namespace DocAnnotations

/-- The types by their qualified names, in the order in which the names were first registered. -/
structure Registry where
  schemas : Entries Schema := []

/-- A request to register a type. What is not given is derived from the factory. -/
structure Registration where
  name : String
  maker : Factory.Maker
  required : Option (List String) := none
  fields : Option (List String) := none
  setters : Option (Entries String) := none
  positional : Option String := none
  privileged : Bool := false

namespace Registration

open Factory QualifiedName

/-- The name under which the type is stored. -/
def storedName (r : Registration) : String :=
  dropLeading (Text.strip r.name)

/-- The field for arguments without a key, when none is asked for: the only required parameter,
or else the field `value`. -/
def conventionalPositional (required fields : List String) : Option String :=
  match required with
  | [only] => some only
  | _ => if fields.contains "value" then some "value" else none

/-- The first fault among the setters. -/
def setterFault? (type : String) (factory : Factory) (setters : Entries String) :
    Option RegistrationFault :=
  setters.findSome? fun s =>
    if s.2.toList.head? = some '_' then some (.hiddenSetter type s.1 s.2)
    else if factory.hasMethod s.2 then none
    else some (.missingSetter type s.1 s.2)

/-- Required parameters that the constructor does not have. -/
def unknownParameters (factory : Factory) (required : List String) : List String :=
  match factory.parameters with
  | some parameters => required.filter (!parameters.contains ·)
  | none => []

/-- Whether a field for arguments without a key is part of the schema. -/
def isPositional (schema : Schema) (field : String) : Bool :=
  schema.required.contains field || schema.fields.contains field || schema.setters.hasKey field

/-- The schema that a registration of a factory asks for. -/
def schemaFor (r : Registration) (factory : Factory) : Schema :=
  let required := r.required.getD factory.required
  let fields := r.fields.getD factory.fields
  { name := r.storedName
    factory
    required
    fields
    setters := r.setters.getD factory.conventionalSetters
    positional := r.positional.or (conventionalPositional required fields)
    privileged := r.privileged }

/-- What is wrong with a registration of a factory. -/
def fault? (r : Registration) (factory : Factory) : Option RegistrationFault :=
  let schema := r.schemaFor factory
  let unknown := unknownParameters factory schema.required
  if unknown ≠ [] then some (.unknownRequired schema.name unknown)
  else
    (setterFault? schema.name factory schema.setters).or <|
      match r.positional with
      | some field =>
        if isPositional schema field then none else some (.unknownPositional schema.name field)
      | none => none

/-- The schema of a registration, or what is wrong with it. -/
def schema (r : Registration) : Except RegistrationFault Schema :=
  if r.storedName = "" then .error .emptyName
  else
    match r.maker with
    | .notCallable shown => .error (.notCallable r.storedName shown)
    | .factory factory =>
      match r.fault? factory with
      | some fault => .error fault
      | none => .ok (r.schemaFor factory)

end Registration

namespace Registry

open QualifiedName

/-- Stores a schema under its name. -/
def add (registry : Registry) (schema : Schema) : Registry :=
  ⟨registry.schemas.insert schema.name schema⟩

/-- Registers a type. -/
def register (registry : Registry) (r : Registration) : Except ReadError (Registry × Schema) :=
  match r.schema with
  | .ok schema => .ok (registry.add schema, schema)
  | .error fault => .error { cause := .registration fault }

def get? (registry : Registry) (name : String) : Option Schema :=
  registry.schemas.get? (dropLeading name)

def contains (registry : Registry) (name : String) : Bool :=
  registry.schemas.hasKey (dropLeading name)

/-- Whether a value is the name of a registered type. -/
def containsValue (registry : Registry) : Value → Bool
  | .text name => registry.contains name
  | _ => false

def names (registry : Registry) : List String :=
  registry.schemas.keys

def size (registry : Registry) : Nat :=
  registry.schemas.length

/-- Registers the types of the mapping vocabulary as privileged types. -/
def addVocabulary (registry : Registry) : Except ReadError Registry :=
  Vocabulary.types.foldlM (fun known factory =>
    (known.register { name := Vocabulary.qualifiedName factory, maker := .factory factory,
                      privileged := true }).map (·.1)) registry

/-- A registry that holds the mapping vocabulary. -/
def withVocabulary : Registry :=
  match addVocabulary {} with
  | .ok registry => registry
  | .error _ => {}

end Registry

end DocAnnotations
