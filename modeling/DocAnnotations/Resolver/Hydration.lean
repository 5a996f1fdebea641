import DocAnnotations.Argument
import DocAnnotations.NameScope
import DocAnnotations.Registry

/-!
From the attributes of an annotation to an instance of its type. Placeholders give way to the
children that they stand for, and attributes that name types give way to qualified names. Then the
constructor takes its required parameters, and what is left goes to fields and setters.
-/

namespace DocAnnotations.Resolver

mutual

/-- Puts children in the places of their placeholders, at any depth of lists and maps. -/
def substitute (children : Entries Value) : Value → Value
  | .text s => (children.get? s).getD (.text s)
  | .list items => .list (substituteItems children items)
  | .map entries => .map (substituteEntries children entries)
  | v => v

def substituteItems (children : Entries Value) : List Value → List Value
  | [] => []
  | v :: rest => substitute children v :: substituteItems children rest

def substituteEntries (children : Entries Value) :
    List (String × Value) → List (String × Value)
  | [] => []
  | (key, v) :: rest => (key, substitute children v) :: substituteEntries children rest

end

mutual

/-- Replaces names by the classes that they stand for, at any depth of lists. -/
def qualifyValue (lookup : TypeLookup) : Value → Value
  | .text s => .text (typeNamed (some lookup) s)
  | .list items => .list (qualifyItems lookup items)
  | v => v

def qualifyItems (lookup : TypeLookup) : List Value → List Value
  | [] => []
  | v :: rest => qualifyValue lookup v :: qualifyItems lookup rest

end

/-- Whether the value of an attribute names types. -/
def namesTypes (typeNames : List String) (attributeName : String) : Bool :=
  (typeNames.map Schema.looseName).contains (Schema.looseName attributeName)

/-- Qualifies the values of the attributes that name types. -/
def qualifyTypeNames (typeNames : List String) (scope : Option NameScope)
    (attributes : Entries Value) : Entries Value :=
  match scope with
  | none => attributes
  | some scope =>
    attributes.mapContents fun name v =>
      if namesTypes typeNames name then qualifyValue scope.lookup v else v

/-- The arguments for the required parameters, or the first parameter that has none. -/
def argumentsFor (schema : Schema) (attributes : Entries Value) :
    Except String (Entries Value) :=
  schema.required.foldlM (fun arguments parameter =>
    match (Schema.matchRequired parameter attributes.keys).bind attributes.get? with
    | some v => .ok (arguments.insert parameter v)
    | none => .error parameter) []

/-- The attributes that the required parameters take. -/
def consumed (schema : Schema) (attributes : Entries Value) : List String :=
  schema.required.filterMap (Schema.matchRequired · attributes.keys)

/-- Hands an attribute to the field or else to the setter that its name matches. Other attributes
are left out. -/
def applyAttribute (schema : Schema) (target : Value) (name : String) (v : Value) :
    Except BuildFault Value :=
  match schema.matchField name with
  | some field => schema.factory.assign field v target
  | none =>
    match schema.matchSetter name with
    | some setter => schema.factory.call setter v target
    | none => .ok target

/-- Builds an instance from its arguments and fills it with the attributes that are left. -/
def instantiate (schema : Schema) (arguments attributes : Entries Value) :
    Except BuildFault Value := do
  let built ← schema.factory.build arguments
  (attributes.filter fun e => !(consumed schema attributes).contains e.1).foldlM
    (fun target e => applyAttribute schema target e.1 e.2) built

/-- An instance of a type with the given attributes. The error names the host declaration. -/
def hydrateSchema (schema : Schema) (host : String) (attributes : Entries Value) :
    Except ReadError Value :=
  match argumentsFor schema attributes with
  | .error parameter => .error ⟨.missingRequired parameter schema.name host, schema.privileged⟩
  | .ok arguments =>
    match instantiate schema arguments attributes with
    | .ok v => .ok v
    | .error fault => .error ⟨.hydration schema.name host fault, schema.privileged⟩

/-- The attributes that an argument text gives for a type. Arguments without a key go to the
positional field, if there is one. -/
def attributesOf (schema : Schema) (raw : String) : Except Abort (Entries Value) := do
  let attributes ← Argument.attributes raw
  match schema.positional with
  | none | some "" => return attributes
  | some field =>
    if !attributes.isEmpty then return attributes
    else
      match ← Argument.positional raw with
      | .null => return []
      | v => return [(field, v)]

end DocAnnotations.Resolver
