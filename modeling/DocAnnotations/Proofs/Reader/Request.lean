import DocAnnotations.Proofs.Reader.LookUp

/-! The caches of a reader after any requests. -/
namespace DocAnnotations.Reader

variable {index : SourceIndex} {resolver : Resolver}

/-- What a reader can be asked for. -/
inductive Request where
  | resolve (key : DeclarationKey) (wanted : String)
  | resolveAll (key : DeclarationKey)
  | annotationOfClass (host wanted : String)
  | annotationOfProperty (host name wanted : String)
  | annotationOfMethod (host name wanted : String)
  | annotationsOfClass (host : String)
  | annotationsOfProperty (host name : String)
  | annotationsOfMethod (host name : String)
  | setTypeNames (names : List String)
  | setThrow (general privileged : Bool)
  | clearCache

namespace Request

/-- The reader after a request, whether or not that finds anything. -/
def run (reader : Reader) : Request → Reader
  | resolve key wanted => (Reader.resolve key wanted reader).2
  | resolveAll key => (Reader.resolveAll key reader).2
  | annotationOfClass host wanted => (reader |> Reader.classAnnotation host wanted).2
  | annotationOfProperty host name wanted => (reader |> Reader.propertyAnnotation host name wanted).2
  | annotationOfMethod host name wanted => (reader |> Reader.methodAnnotation host name wanted).2
  | annotationsOfClass host => (Reader.classAnnotations host reader).2
  | annotationsOfProperty host name => (Reader.propertyAnnotations host name reader).2
  | annotationsOfMethod host name => (Reader.methodAnnotations host name reader).2
  | setTypeNames names => reader.setTypeNames names
  | setThrow general privileged => reader.setThrow general privileged
  | clearCache => reader.clearCache

/-- The key of a look-up names a declaration properly. -/
def Valid : Request → Prop
  | resolve key _ | resolveAll key => Proper key
  | _ => True

/-- The attributes that name types after a request. -/
def typeNamesAfter (typeNames : List String) : Request → List String
  | setTypeNames names => names
  | _ => typeNames

end Request

theorem proper_className (host : String) : Proper { className := className host } :=
  ⟨QualifiedName.dropLeading_dropLeading _, fun h => absurd rfl h⟩

theorem annotationOfMember_yields (hb : index.Built) (kind : DeclarationKind)
    (host name wanted : String) :
    Yields index resolver (annotationOfMember kind host name wanted) fun _ => True := by
  unfold annotationOfMember
  refine (memberKey_yields hb host kind name).bind fun found hp => ?_
  split
  next key => exact resolve_yields hb (hp key rfl) wanted
  next => exact .pure trivial

theorem annotationsOfMember_yields (hb : index.Built) (kind : DeclarationKind)
    (host name : String) :
    Yields index resolver (annotationsOfMember kind host name) fun _ => True := by
  unfold annotationsOfMember
  refine (memberKey_yields hb host kind name).bind fun found hp => ?_
  split
  next key => exact (resolveAll_yields hb (hp key rfl)).bind fun _ _ => .pure trivial
  next => exact .pure trivial

/-- Every request keeps the caches coherent. -/
theorem Request.run_coherent (hb : index.Built) {reader : Reader}
    (h : Coherent index resolver reader) {request : Request} (hv : request.Valid) :
    Coherent index { resolver with typeNames := request.typeNamesAfter resolver.typeNames }
      (request.run reader) := by
  cases request with
  | resolve key wanted => exact (resolve_yields hb hv wanted reader h).1
  | resolveAll key => exact (resolveAll_yields hb hv reader h).1
  | annotationOfClass host wanted =>
    exact (resolve_yields hb (proper_className host) wanted reader h).1
  | annotationOfProperty host name wanted =>
    exact (annotationOfMember_yields hb .onProperty host (propertyName name) wanted reader h).1
  | annotationOfMethod host name wanted =>
    exact (annotationOfMember_yields hb .onMethod host name wanted reader h).1
  | annotationsOfClass host =>
    exact ((resolveAll_yields hb (proper_className host)).bind (Q := fun _ => True)
      (fun _ _ => .pure trivial) reader h).1
  | annotationsOfProperty host name =>
    exact (annotationsOfMember_yields hb .onProperty host (propertyName name) reader h).1
  | annotationsOfMethod host name =>
    exact (annotationsOfMember_yields hb .onMethod host name reader h).1
  | setTypeNames names =>
    -- Neither names nor fragments are read with the attributes that name types.
    refine ⟨h.index_eq, ?_, h.aliasTables, h.fragments, nofun⟩
    simp [run, Reader.setTypeNames, typeNamesAfter, h.resolver_eq]
  | setThrow general privileged =>
    exact ⟨h.index_eq, h.resolver_eq, h.aliasTables, h.fragments, h.annotations⟩
  | clearCache => exact ⟨h.index_eq, h.resolver_eq, nofun, nofun, nofun⟩

theorem Request.runs_coherent (hb : index.Built) {reader : Reader}
    (h : Coherent index resolver reader) {requests : List Request}
    (hv : ∀ request ∈ requests, request.Valid) :
    Coherent index
      { resolver with typeNames := requests.foldl Request.typeNamesAfter resolver.typeNames }
      (requests.foldl Request.run reader) := by
  induction requests generalizing reader resolver with
  | nil => exact h
  | cons request rest ih =>
    exact ih (Request.run_coherent hb h (hv request (by simp))) fun r hr => hv r (by simp [hr])

/-- The caches of a reader are coherent after any requests, whether they succeed or stop. -/
theorem coherent_of_requests (hb : index.Built) (registry : Registry) (typeNames : List String)
    (throwAll throwPrivileged : Bool) {requests : List Request}
    (hv : ∀ request ∈ requests, request.Valid) :
    Coherent index
      { registry, typeNames := requests.foldl Request.typeNamesAfter typeNames }
      (requests.foldl Request.run
        { index, resolver := { registry, typeNames }, throwAll, throwPrivileged }) :=
  Request.runs_coherent hb (coherent_fresh index { registry, typeNames } _ _) hv

/-- A new reader of a class that follows some code in a namespace, with types under the given
names. -/
def hostReader (comment : String) (types : List (String × Factory))
    (scope : Option String := some "App") (code : String := "namespace App;\n") : Reader where
  index := SourceIndex.addClass {}
    { name := "Host", qualifiedName := QualifiedName.inScope (scope.getD "") "Host", scope
      docComment := some comment }
    ("<?php\n" ++ code ++ "class Host \x7b\x7d\n")
  resolver.registry := types.foldl (fun registry t =>
    registry.add (Registration.schemaFor { name := t.1, maker := .factory t.2 } t.2)) {}

theorem built_hostReader (comment : String) (types : List (String × Factory))
    (scope : Option String) (code : String) : (hostReader comment types scope code).index.Built :=
  .addClass _ _ .empty

/-- An annotation that is kept as text, and then made an instance of the type that is asked for. -/
theorem coherent_of_requests_upgraded :
    let host : SourceClass :=
      { name := "Host", qualifiedName := "Host", attributes := [⟨"Note", "", "(text=\"a\")"⟩] }
    let index : SourceIndex := SourceIndex.addClass {} host "<?php "
    let note : Schema := ⟨"Lib\\Note", Factory.model "Note" [⟨"text", .text, none⟩], ["text"],
      ["text"], [], none, false⟩
    let registry : Registry := ⟨[("Lib\\Note", note)]⟩
    let requests : List Request := [.resolveAll { className := "Host" },
      .setThrow true true, .annotationOfClass "Missing" "Note",
      .resolve { className := "Host" } "Lib\\Note"]
    let reader := requests.foldl Request.run { index, resolver := { registry } }
    Coherent index { registry } reader ∧
      (cached? reader.annotations "Host" "c").map Entries.keys = some ["Note", "Lib\\Note"] := by
  intro host index note registry requests reader
  have hp : Proper { className := "Host" } := ⟨by decide +kernel, fun h => absurd rfl h⟩
  have hv : ∀ request ∈ requests, request.Valid := by
    simp only [requests, List.forall_mem_cons]
    exact ⟨hp, trivial, trivial, hp, by simp⟩
  have hb : index.Built := .addClass host _ .empty
  exact ⟨coherent_of_requests hb registry [] false true hv, by decide +kernel⟩

end DocAnnotations.Reader
