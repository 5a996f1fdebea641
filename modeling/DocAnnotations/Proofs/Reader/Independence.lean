import DocAnnotations.Proofs.Reader.Answer
import DocAnnotations.Proofs.Reader.Request

/-! How far a look-up depends on the requests before it. -/
namespace DocAnnotations.Reader

open QualifiedName

variable {base reader : Reader} {key : DeclarationKey}

theorem resolveAll_leads (hb : base.index.Built) (hstd : Standard key) :
    Leads (Settled True base) (Settled True base) (resolveAll key) fun _ => True := by
  have hstable := Settled.stable True base
  refine (Leads.guarded (P := fun _ => True) hstable.withLog hstable.withLog ?_).imp
    fun _ _ => trivial
  refine declared_leads hb hstd (fun _ h => h) (fun cls scope hd _ => ?_) fun _ _ => trivial
  exact (groupsOf_leads True hd).bind (fun _ _ => .pure trivial) (fun _ h => h) fun _ _ => trivial

theorem memberKey_standard (hb : base.index.Built) (host : String) {kind : DeclarationKind}
    (hkind : kind ≠ .onClass) (name : String) :
    Leads (Settled True base) (Settled True base) (memberKey host kind name) fun result =>
      ∀ key, result = .ok (some key) → Standard key := by
  refine (memberKey_leads (Settled.stable True base).names hb host kind name).imp
    fun result hresult key hkey => ?_
  obtain ⟨hproper, rfl⟩ := hresult key hkey
  exact ⟨hproper, fun h => absurd h hkind⟩

theorem annotationOfMember_leads (hb : base.index.Built) {kind : DeclarationKind}
    (hkind : kind ≠ .onClass) (host name wanted : String) :
    Leads (Settled True base) (Settled True base) (annotationOfMember kind host name wanted)
      fun _ => True := by
  unfold annotationOfMember
  refine (memberKey_standard hb host hkind name).bind (fun found hfound => ?_) (fun _ h => h)
    fun _ _ => trivial
  split
  next key => exact (resolve_leads hb (hfound key rfl) wanted).imp fun _ _ => trivial
  next => exact .pure trivial

theorem annotationsOfMember_leads (hb : base.index.Built) {kind : DeclarationKind}
    (hkind : kind ≠ .onClass) (host name : String) :
    Leads (Settled True base) (Settled True base) (annotationsOfMember kind host name)
      fun _ => True := by
  unfold annotationsOfMember
  refine (memberKey_standard hb host hkind name).bind (fun found hfound => ?_) (fun _ h => h)
    fun _ _ => trivial
  split
  next key =>
    exact (resolveAll_leads hb (hfound key rfl)).bind (fun _ _ => .pure trivial) (fun _ h => h)
      fun _ _ => trivial
  next => exact .pure trivial

theorem standard_className (host : String) : Standard { className := className host } :=
  ⟨proper_className host, fun _ => rfl⟩

namespace Request

/-- The key of a look-up is a standard one. -/
def HasStandardKey : Request → Prop
  | resolve key _ | resolveAll key => Standard key
  | _ => True

/-- Every request leaves a settled reader settled. -/
theorem run_settled (hb : reader.index.Built) (h : Settled True reader.renewed reader)
    {request : Request} (hv : request.HasStandardKey) :
    Settled True (request.run reader).renewed (request.run reader) ∧
      (request.run reader).index = reader.index := by
  have hb : reader.renewed.index.Built := hb
  -- A look-up keeps the settings.
  have hlookUp {α : Type} {x : ReaderM α} {P : Except Abort α → Prop}
      (hx : Leads (Settled True reader.renewed) (Settled True reader.renewed) x P) :
      Settled True (x reader).2.renewed (x reader).2 ∧ (x reader).2.index = reader.index := by
    have hnext := (hx reader h).1
    rw [hnext.renewed_eq]
    exact ⟨hnext, hnext.index_eq⟩
  cases request with
  | resolve key wanted => exact hlookUp (resolve_leads hb hv wanted)
  | resolveAll key => exact hlookUp (resolveAll_leads hb hv)
  | annotationOfClass host wanted =>
    exact hlookUp (resolve_leads hb (standard_className host) wanted)
  | annotationOfProperty host name wanted =>
    exact hlookUp (annotationOfMember_leads hb (by decide) host (propertyName name) wanted)
  | annotationOfMethod host name wanted =>
    exact hlookUp (annotationOfMember_leads hb (by decide) host name wanted)
  | annotationsOfClass host =>
    exact hlookUp ((resolveAll_leads hb (standard_className host)).bind (Q := fun _ => True)
      (fun _ _ => .pure trivial) (fun _ h => h) fun _ _ => trivial)
  | annotationsOfProperty host name =>
    exact hlookUp (annotationsOfMember_leads hb (by decide) host (propertyName name))
  | annotationsOfMethod host name =>
    exact hlookUp (annotationsOfMember_leads hb (by decide) host name)
  | setTypeNames names =>
    -- Neither names nor fragments are read with the attributes that name types.
    exact ⟨⟨⟨rfl, rfl, h.aliasTables, h.fragments, fun _ _ _ hc => by cases hc⟩, rfl,
      fun _ _ _ _ _ _ _ hc => by cases hc⟩, rfl⟩
  | setThrow general privileged =>
    exact ⟨⟨⟨rfl, rfl, h.aliasTables, h.fragments, h.annotations⟩, rfl, h.extended⟩, rfl⟩
  | clearCache => exact ⟨(Settled.renewed reader).withLog reader.log, rfl⟩

/-- Any requests leave a settled reader settled. -/
theorem runs_settled (hb : reader.index.Built) (h : Settled True reader.renewed reader)
    {requests : List Request} (hv : ∀ request ∈ requests, request.HasStandardKey) :
    Settled True (requests.foldl run reader).renewed (requests.foldl run reader) ∧
      (requests.foldl run reader).index = reader.index := by
  induction requests generalizing reader with
  | nil => exact ⟨h, rfl⟩
  | cons request rest ih =>
    obtain ⟨hnext, hindex⟩ := run_settled hb h (hv request (by simp))
    have hrest := ih (hindex ▸ hb) hnext fun r hr => hv r (by simp [hr])
    exact ⟨hrest.1, hrest.2.trans hindex⟩

end Request

/-- What a new reader gives for a look-up. -/
theorem resolve_renewed (hb : reader.index.Built) (hstd : Standard key) (wanted : String) :
    (resolve key wanted reader.renewed).1 =
      shield reader.renewed .null (found reader.renewed key (className wanted)) := by
  have hb : reader.renewed.index.Built := hb
  have h : Settled False reader.renewed reader.renewed := .renewed reader
  obtain ⟨inner, hinner, hresult⟩ := (resolve_leads hb hstd wanted _ h).2
  obtain rfl | ⟨hgrows, -⟩ := hinner
  · exact hresult
  · exact hgrows.elim

/-- A look-up after any requests gives what a new reader with the same settings gives for the name,
or else for a registered type that the name is another name of in the class. -/
theorem resolve_after_requests {index : SourceIndex} (hb : index.Built) (registry : Registry)
    (typeNames : List String) (throwAll throwPrivileged : Bool) {requests : List Request}
    (hv : ∀ request ∈ requests, request.HasStandardKey) (hstd : Standard key) (wanted : String) :
    let reader := requests.foldl Request.run
      { index, resolver := { registry, typeNames }, throwAll, throwPrivileged }
    (resolve key wanted reader).1 = (resolve key wanted reader.renewed).1 ∨
      ∃ other, OtherName reader.renewed key (className wanted) (className other) ∧
        (resolve key wanted reader).1 = (resolve key other reader.renewed).1 := by
  intro reader
  obtain ⟨h, hindex⟩ : Settled True reader.renewed reader ∧ reader.index = index :=
    Request.runs_settled hb (.renewed _) hv
  have hb : reader.renewed.index.Built := hindex ▸ hb
  obtain ⟨inner, hinner, hresult⟩ := (resolve_leads hb hstd wanted reader h).2
  rw [hresult]
  obtain rfl | ⟨-, other, hother, rfl⟩ := hinner
  · exact Or.inl (resolve_renewed hb hstd wanted).symm
  · exact Or.inr ⟨other, hother, (resolve_renewed hb hstd other).symm⟩

/-- A new reader of a class with an annotation that is written by the last part of a type's name.
The class has another name for that type. -/
def aliasedNote : Reader :=
  hostReader "/** @Note(name=\"a\") */" [("Lib\\Note", Factory.param)] (some "App")
    "namespace App;\nuse Lib\\Note as N;\n"

/-- The names of the fields of what a look-up gives. -/
def fieldNames (result : Except Abort Value) : Option (List String) :=
  result.toOption.map fun v => v.fields.keys

theorem ne_of_fieldNames {result result' : Except Abort Value} {names names' : List String}
    (h : fieldNames result = some names) (h' : fieldNames result' = some names')
    (hne : names ≠ names') : result ≠ result' := by
  rintro rfl
  exact hne (Option.some.inj (h.symm.trans h'))

theorem fieldNames_resolve_aliasedNote :
    let key : DeclarationKey := { className := "App\\Host" }
    let reader := [Request.annotationOfClass "App\\Host" "Lib\\Note"].foldl Request.run aliasedNote
    fieldNames (resolve key "N" reader).1 = some ["name", "type"] ∧
      fieldNames (resolve key "N" reader.renewed).1 = some [] :=
  ⟨by decide +kernel, by decide +kernel⟩

/-- The other name gives the instance that was added for the type. -/
theorem resolve_after_requests_alias :
    let key : DeclarationKey := { className := "App\\Host" }
    let reader := [Request.annotationOfClass "App\\Host" "Lib\\Note"].foldl Request.run aliasedNote
    Standard key ∧ ∃ other, OtherName reader.renewed key (className "N") (className other) ∧
      (resolve key "N" reader).1 = (resolve key other reader.renewed).1 := by
  intro key reader
  have hb : aliasedNote.index.Built := built_hostReader ..
  have hv : ∀ request ∈ [Request.annotationOfClass "App\\Host" "Lib\\Note"],
      request.HasStandardKey := by simp [Request.HasStandardKey]
  have hstd : Standard key := ⟨⟨by decide, nofun⟩, fun _ => rfl⟩
  obtain ⟨hafter, hnew⟩ := fieldNames_resolve_aliasedNote
  have hne : (resolve key "N" reader).1 ≠ (resolve key "N" reader.renewed).1 :=
    ne_of_fieldNames hafter hnew (by decide)
  exact ⟨hstd, (resolve_after_requests hb aliasedNote.resolver.registry [] false true hv hstd
    "N").resolve_left hne⟩

/-- A new reader gives nothing for that name, so look-ups are not independent. -/
theorem resolve_alias_ne_renewed :
    let key : DeclarationKey := { className := "App\\Host" }
    let reader := [Request.annotationOfClass "App\\Host" "Lib\\Note"].foldl Request.run aliasedNote
    (resolve key "N" reader).1 ≠ (resolve key "N" reader.renewed).1 := by
  intro key reader
  obtain ⟨hafter, hnew⟩ := fieldNames_resolve_aliasedNote
  exact ne_of_fieldNames hafter hnew (by decide)

end DocAnnotations.Reader
