import DocAnnotations.Fragment
import DocAnnotations.Resolver.Hydration

/-!
From fragments to annotations. A fragment whose name stands for a registered type becomes an
instance of it, after its children. Without such a type, and where an instance of an ordinary type
cannot be built, it is kept as text. Errors of privileged types stop the reading.
-/

namespace DocAnnotations

/-- The attributes of an instance are remembered under these names. -/
structure AttributeKey where
  className : String
  itemName : String
  typeName : String
  deriving DecidableEq, Repr

/-- What is remembered of annotations that were read: the last error, and the attributes of
instances, the latest first. -/
structure ReadLog where
  lastError : Option ReadError := none
  attributes : List (AttributeKey × Entries Value) := []

namespace ReadLog

/-- Remembers the attributes of an instance on a declaration. -/
def record (log : ReadLog) (key : DeclarationKey) (type : String) (attributes : Entries Value) :
    ReadLog :=
  { log with attributes := (⟨key.className, key.itemName, type⟩, attributes) :: log.attributes }

/-- The attributes that were last used for an instance. -/
def attributesRead (log : ReadLog) (className itemName type : String) : Entries Value :=
  let key : AttributeKey :=
    ⟨QualifiedName.dropLeading className, itemName, QualifiedName.dropLeading type⟩
  match log.attributes.find? (·.1 = key) with
  | some found => found.2
  | none => []

end ReadLog

/-- Reading that remembers what it read, also when it stops. -/
abbrev ReadM := ExceptT Abort (StateM ReadLog)

/-- What annotations are resolved with: the known types, and the attributes that name types. -/
structure Resolver where
  registry : Registry := {}
  typeNames : List String := []

namespace Resolver

/-- The attributes that name types, each once and sorted. -/
def sortedNames (names : List String) : List String :=
  names.eraseDups.mergeSort fun a b => a ≤ b

/-- The registered type that a written name stands for: through the scope, or as it is. -/
def qualify (resolver : Resolver) (scope : Option NameScope) (name : String) : Option String :=
  let candidates := (scope.bind (·.find? name)).toList ++ [name]
  (candidates.find? resolver.registry.contains).map QualifiedName.dropLeading

/-- Makes an instance with the given attributes, and remembers the attributes that are used. -/
def hydrate (resolver : Resolver) (schema : Schema) (scope : Option NameScope)
    (key : Option DeclarationKey) (children attributes : Entries Value) : ReadM Value := do
  let used := qualifyTypeNames resolver.typeNames scope
    (attributes.mapContents fun _ v => substitute children v)
  if let some key := key then
    modify (·.record key schema.name used)
  let host := (key.map (·.text)).getD "<unknown>"
  match hydrateSchema schema host used with
  | .ok v => return v
  | .error e => throw (.error e)

/-- The annotation kept as text. -/
def keep (scope : Option NameScope) (key : Option DeclarationKey) (name raw : String) : Value :=
  .generic (.ofText name raw (scope.map (·.lookup)) key)

/-- Goes on after an error: an ordinary type gives way to the annotation kept as text. -/
def fallBack (schema : Schema) (scope : Option NameScope) (key : DeclarationKey)
    (name raw : String) (e : ReadError) : ReadM Value := do
  let e := { e with privileged := e.privileged || schema.privileged }
  modify ({ · with lastError := some e })
  if e.privileged then throw (.error e)
  return keep scope (some key) name raw

/-- The children under their placeholders. -/
def placeholders (children : List Value) : Entries Value :=
  children.zipIdx.map fun c => (Fragment.placeholder c.2, c.1)

/-- Makes an instance from an argument text, or falls back. -/
def settle (resolver : Resolver) (scope : Option NameScope) (key : DeclarationKey)
    (schema : Schema) (name raw : String) (children : List Value) : ReadM Value := fun log =>
  match attributesOf schema raw with
  | .error (.error e) => fallBack schema scope key name raw e log
  | .error stop => (.error stop, log)
  | .ok attributes =>
    match resolver.hydrate schema scope (some key) (placeholders children) attributes log with
    | (.error (.error e), log) => fallBack schema scope key name raw e log
    | result => result

mutual

/-- The annotation that a fragment stands for. -/
def resolve (resolver : Resolver) (scope : Option NameScope) (key : DeclarationKey) :
    Fragment → ReadM Value
  | ⟨name, raw, children⟩ =>
    match (resolver.qualify scope name).bind resolver.registry.get? with
    | none => return keep scope (some key) name raw
    | some schema => do
      let values ← resolveAll resolver scope key children
      resolver.settle scope key schema name raw values

/-- The annotations that fragments stand for, in their order. -/
def resolveAll (resolver : Resolver) (scope : Option NameScope) (key : DeclarationKey) :
    List Fragment → ReadM (List Value)
  | [] => return []
  | fragment :: rest => do
    let v ← resolve resolver scope key fragment
    let vs ← resolveAll resolver scope key rest
    return v :: vs

end

/-- The annotation that a fragment stands for if its type is the given one, whatever its name. -/
def convert (resolver : Resolver) (scope : Option NameScope) (key : DeclarationKey)
    (type : String) (fragment : Fragment) : ReadM Value :=
  match resolver.registry.get? type with
  | none => return keep scope (some key) fragment.name fragment.raw
  | some schema => do
    let values ← resolver.resolveAll scope key fragment.children
    resolver.settle scope key schema fragment.name fragment.raw values

/-- Makes an instance of the named type from attributes, or keeps the text if the type is not
known. -/
def hydrateNamed (resolver : Resolver) (scope : Option NameScope) (key : Option DeclarationKey)
    (type : String) (children attributes : Entries Value) (raw : String) : ReadM Value :=
  match resolver.registry.get? type with
  | none => return keep scope key type raw
  | some schema => resolver.hydrate schema scope key children attributes

end Resolver

end DocAnnotations
