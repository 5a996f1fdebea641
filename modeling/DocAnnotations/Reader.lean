import DocAnnotations.Comment
import DocAnnotations.Import
import DocAnnotations.Reader.Grouping
import DocAnnotations.Resolver
import DocAnnotations.SourceIndex

/-!
Reading the annotations of declarations. Alias tables, fragments and annotations are kept once they
have been found. Whether an error is shown or only remembered is up to the settings, except that a
declaration that is not there is always an error.
-/

namespace DocAnnotations

/-- The fragments of the declarations of each class, by class and item. -/
abbrev FragmentCache := Entries (Entries (List Fragment))

/-- The annotations of the declarations of each class, by class and item. -/
abbrev AnnotationCache := Entries (Entries AnnotationGroups)

/-- A reader with its settings, what it remembers, and what it has found. -/
structure Reader where
  index : SourceIndex := {}
  resolver : Resolver := {}
  throwAll : Bool := false
  throwPrivileged : Bool := true
  log : ReadLog := {}
  aliasTables : Entries AliasTable := []
  fragments : FragmentCache := []
  annotations : AnnotationCache := []

/-- Reading with a reader, which keeps what it has found also when it stops. -/
abbrev ReaderM := ExceptT Abort (StateM Reader)

namespace Reader

open QualifiedName

/-- Parents are looked through no further than this many classes. -/
def maxParents : Nat := 64

/-- The content for a class and an item. -/
def cached? {α : Type} (cache : Entries (Entries α)) (className item : String) : Option α :=
  (cache.get? className).bind (·.get? item)

/-- The cache with the content for a class and an item. -/
def store {α : Type} (cache : Entries (Entries α)) (className item : String) (content : α) :
    Entries (Entries α) :=
  cache.insert className (((cache.get? className).getD []).insert item content)

/-- Runs a reading of fragments on what the reader remembers. -/
def withLog {α : Type} (x : ReadM α) : ReaderM α := fun reader =>
  let (result, log) := x reader.log
  (result, { reader with log })

/-- Stops with an error. -/
def fail {α : Type} (cause : ErrorCause) : ReaderM α :=
  throw (.error { cause })

/-- Whether a class is known, as an annotation type or by its source. -/
def isKnown (reader : Reader) (name : String) : Bool :=
  reader.resolver.registry.contains name || reader.index.contains name

/-- The table of a source, in the namespace of the class if that is known. -/
def inNamespace (cls : SourceClass) (table : AliasTable) : AliasTable :=
  match cls.scope with
  | some scope => { table with scope }
  | none => table

/-- The alias table of a class, computed afresh. -/
def computeTable (reader : Reader) (cls : SourceClass) : Except Abort AliasTable :=
  (AliasTable.ofSource reader.isKnown (reader.index.source cls.qualifiedName) cls.file).map
    (inNamespace cls)

/-- The names that are valid in a class. -/
def scopeOf (cls : SourceClass) : ReaderM NameScope := do
  let reader ← get
  match reader.aliasTables.get? cls.qualifiedName with
  | some table => return ⟨table, reader.isKnown⟩
  | none =>
    let table ← reader.computeTable cls
    modify fun r => { r with aliasTables := r.aliasTables.insert cls.qualifiedName table }
    return ⟨table, reader.isKnown⟩

/-- The class of a name. -/
def hostClass (name : String) : ReaderM SourceClass := do
  match (← get).index.class? name with
  | some cls => return cls
  | none => fail (.classNotFound name)

/-- The class of a declaration, which must be there too. -/
def declaringClass (key : DeclarationKey) : ReaderM SourceClass := do
  let cls ← hostClass key.className
  if key.kind ≠ .onClass ∧ (cls.member? key.kind key.member).isNone then
    fail (.memberNotFound key)
  return cls

/-- A native attribute as a fragment. The arguments count for known types, and the plain text for
others. -/
def nativeFragment (resolver : Resolver) (scope : NameScope) (attr : NativeAttribute) : Fragment :=
  if (resolver.qualify scope attr.name).isSome then ⟨attr.name, attr.arguments, []⟩
  else ⟨attr.name, attr.text, []⟩

/-- The native attributes and the doc comment of a declaration. -/
def annotationSource (cls : SourceClass) (key : DeclarationKey) :
    List NativeAttribute × Option String :=
  match cls.member? key.kind key.member with
  | some m => (m.attributes, m.docComment)
  | none => (cls.attributes, cls.docComment)

/-- The fragments of a declaration, computed afresh. With native attributes the doc comment does
not count. -/
def computeFragments (resolver : Resolver) (scope : NameScope) (cls : SourceClass)
    (key : DeclarationKey) : List Fragment :=
  match annotationSource cls key with
  | ([], doc) => Comment.fragments (doc.getD "")
  | (attributes, _) => attributes.map (nativeFragment resolver scope)

/-- The fragments of a declaration. -/
def fragmentsOf (cls : SourceClass) (key : DeclarationKey) (scope : NameScope) :
    ReaderM (List Fragment) := do
  let reader ← get
  match cached? reader.fragments cls.qualifiedName key.itemName with
  | some fragments => return fragments
  | none =>
    let fragments := computeFragments reader.resolver scope cls key
    modify fun r =>
      { r with fragments := store r.fragments cls.qualifiedName key.itemName fragments }
    return fragments

/-- The name that an annotation is found by: the type of an instance, else the written name. -/
def resultName (resolver : Resolver) (scope : NameScope) (fragment : Fragment) (v : Value) :
    String :=
  if v.isGeneric then fragment.name
  else (resolver.qualify scope fragment.name).getD fragment.name

/-- The annotations of fragments by name, computed afresh. -/
def computeGroups (resolver : Resolver) (scope : NameScope) (key : DeclarationKey)
    (fragments : List Fragment) : ReadM AnnotationGroups := do
  let values ← resolver.resolveAll scope key fragments
  return (fragments.zip values).foldl
    (fun groups p => groups.add (resultName resolver scope p.1 p.2) p.2) []

/-- The annotations of a declaration by name. -/
def groupsOf (cls : SourceClass) (key : DeclarationKey) (scope : NameScope) :
    ReaderM AnnotationGroups := do
  match cached? (← get).annotations cls.qualifiedName key.itemName with
  | some groups => return groups
  | none =>
    let fragments ← fragmentsOf cls key scope
    let groups ← withLog (computeGroups (← get).resolver scope key fragments)
    modify fun r =>
      { r with annotations := store r.annotations cls.qualifiedName key.itemName groups }
    return groups

/-- The names that a type may be written by in a scope, whether or not they stand for it. -/
def spellings (scope : NameScope) (type : String) : List String :=
  lastSegment type :: scope.table.aliasesFor type

/-- Resolves fragments again that were kept as text, now with the wanted type. It counts only if
all of them become instances, and is kept under the wanted name. -/
def upgrade (cls : SourceClass) (key : DeclarationKey) (scope : NameScope)
    (groups : AnnotationGroups) (wanted : String) : ReaderM Value := do
  let resolver := (← get).resolver
  if !resolver.registry.contains wanted then return .null
  let candidates := (← fragmentsOf cls key scope).filter fun f =>
    (spellings scope wanted).contains f.name && groups.hasKey f.name
  if candidates.isEmpty then return .null
  let values ← withLog (candidates.mapM (resolver.convert scope key wanted))
  if values.any Value.isGeneric then return .null
  modify fun r =>
    { r with
      annotations := store r.annotations cls.qualifiedName key.itemName
        (Entries.insert groups wanted values) }
  return AnnotationGroups.shown values

/-- Whether an error is shown and not only remembered. -/
def surfaces (reader : Reader) (e : ReadError) : Bool :=
  e.cause.isNotFound || reader.throwAll || (reader.throwPrivileged && e.privileged)

/-- Runs a look-up with a fresh last error. An error is remembered, and where it is not shown the
look-up gives `empty`. -/
def guarded {α : Type} (empty : α) (x : ReaderM α) : ReaderM α := fun reader =>
  match x { reader with log.lastError := none } with
  | (.error (.error e), reader) =>
    let reader := { reader with log.lastError := some e }
    (if reader.surfaces e then .error (.error e) else .ok empty, reader)
  | result => result

/-- What a look-up among the annotations of a declaration finds. The name may be the name of a
type, the written name of an annotation, or another name of its type. -/
def lookUp (cls : SourceClass) (key : DeclarationKey) (scope : NameScope)
    (groups : AnnotationGroups) (wanted : String) : ReaderM Value := do
  let name := dropLeading (Text.strip wanted)
  match groups.shown? name with
  | some v => return v
  | none =>
    match groups.shown? (dropLeading (scope.find name)) with
    | some v => return v
    | none => upgrade cls key scope groups name

/-- The annotation of a declaration with the given name, a list of several, or null. -/
def resolve (key : DeclarationKey) (wanted : String) : ReaderM Value :=
  guarded .null do
    let cls ← declaringClass key
    let scope ← scopeOf cls
    let groups ← groupsOf cls key scope
    lookUp cls key scope groups wanted

/-- All annotations of a declaration by name. -/
def resolveAll (key : DeclarationKey) : ReaderM (Entries Value) :=
  guarded [] do
    let cls ← declaringClass key
    let scope ← scopeOf cls
    return (← groupsOf cls key scope).toEntries

/-- The class name of a look-up, without white space around it and backslashes in front. -/
def className (name : String) : String :=
  dropLeading (Text.strip name)

/-- The nearest class that declares a member, from `cls` upwards. The first argument bounds the
number of classes. -/
def declaringAncestor (kind : DeclarationKind) (name : String) :
    Nat → SourceClass → ReaderM (Option SourceClass)
  | 0, _ => return none
  | fuel + 1, cls => do
    if (cls.member? kind (some name)).isSome then return some cls
    match cls.parent with
    | none | some "" => return none
    | some written =>
      let scope ← scopeOf cls
      let parent := scope.find written
      match (← get).index.class? (if parent = "" then written else parent) with
      | none => return none
      | some cls => declaringAncestor kind name fuel cls

/-- The key of a member in the class that declares it, from the given class upwards. -/
def memberKey (host : String) (kind : DeclarationKind) (name : String) :
    ReaderM (Option DeclarationKey) :=
  guarded none do
    let cls ← hostClass (className host)
    match ← declaringAncestor kind name maxParents cls with
    | some cls => return some ⟨cls.qualifiedName, kind, some name⟩
    | none => fail (.memberNotFound ⟨className host, kind, some name⟩)

/-- The annotation of a class with the given name. -/
def classAnnotation (host wanted : String) : ReaderM Value :=
  resolve { className := className host } wanted

/-- The annotation of a member with the given name. -/
def annotationOfMember (kind : DeclarationKind) (host name wanted : String) : ReaderM Value := do
  match ← memberKey host kind name with
  | some key => resolve key wanted
  | none => return .null

/-- The annotation of a property, which a parent may declare. -/
def propertyAnnotation (host name wanted : String) : ReaderM Value :=
  annotationOfMember .onProperty host (propertyName name) wanted

/-- The annotation of a method, which a parent may declare. -/
def methodAnnotation (host name wanted : String) : ReaderM Value :=
  annotationOfMember .onMethod host name wanted

/-- All annotations of a class. -/
def classAnnotations (host : String) : ReaderM (List Value) := do
  return AnnotationGroups.flatten (← resolveAll { className := className host })

/-- All annotations of a member. -/
def annotationsOfMember (kind : DeclarationKind) (host name : String) : ReaderM (List Value) := do
  match ← memberKey host kind name with
  | some key => return AnnotationGroups.flatten (← resolveAll key)
  | none => return []

/-- All annotations of a property. -/
def propertyAnnotations (host name : String) : ReaderM (List Value) :=
  annotationsOfMember .onProperty host (propertyName name)

/-- All annotations of a method. -/
def methodAnnotations (host name : String) : ReaderM (List Value) :=
  annotationsOfMember .onMethod host name

/-- Sets the attributes that name types. Annotations that were found before are given up. -/
def setTypeNames (reader : Reader) (names : List String) : Reader :=
  { reader with resolver.typeNames := names, annotations := [] }

/-- Sets which errors are shown: all of them, and those of privileged types. -/
def setThrow (reader : Reader) (general privileged : Bool) : Reader :=
  { reader with throwAll := general, throwPrivileged := privileged }

/-- Gives up all that was found. -/
def clearCache (reader : Reader) : Reader :=
  { reader with aliasTables := [], fragments := [], annotations := [] }

end Reader

end DocAnnotations
