import DocAnnotations.Proofs.Reader.Origin
import DocAnnotations.Proofs.Reader.Request

/-! Look-ups give instances of the type that is asked for, made of fragments of the declaration. -/
namespace DocAnnotations.Reader

open QualifiedName AnnotationGroups

variable {index : SourceIndex} {resolver : Resolver} {reader : Reader} {cls other : SourceClass}
  {item name : String} {key first : DeclarationKey} {scope : NameScope}
  {groups : AnnotationGroups} {v : Value}

/-- The caches hold the fragments of items, and annotations whose instances have a source. -/
structure Sound (index : SourceIndex) (resolver : Resolver) (reader : Reader) : Prop
    extends Scoped index resolver reader where
  fragments : ∀ name item fragments, cached? reader.fragments name item = some fragments →
    ∃ cls key scope, cls.qualifiedName = name ∧ Names index cls item key ∧
      freshScope index resolver cls = .ok scope ∧
        fragments = computeFragments resolver scope cls key
  annotations : ∀ name item groups, cached? reader.annotations name item = some groups →
    ∃ cls first scope, cls.qualifiedName = name ∧ freshScope index resolver cls = .ok scope ∧
      Traced index resolver cls item scope (computeFragments resolver scope cls first) first groups

theorem Names.eq_of_qualifiedName {item' : String} (hb : index.Built) (h : Names index cls item key)
    (ho : Names index other item' first) (hname : other.qualifiedName = cls.qualifiedName) :
    other = cls := by
  have hfound := hb.class?_qualifiedName (class?_of_declaring h.declaring)
  have hother := hb.class?_qualifiedName (class?_of_declaring ho.declaring)
  rw [hname, hfound] at hother
  exact (Option.some.inj hother).symm

theorem Names.computeFragments_eq (h : Names index cls item key) (ho : Names index cls item first) :
    computeFragments resolver scope cls key = computeFragments resolver scope cls first :=
  Reader.computeFragments_eq (h.itemName.trans ho.itemName.symm) h.hasMember ho.hasMember scope cls

namespace Sound

theorem withLog (h : Sound index resolver reader) (log : ReadLog) :
    Sound index resolver { reader with log } :=
  { h.toScoped.withLog log with
    fragments := h.fragments
    annotations := h.annotations }

theorem storeFragments (h : Sound index resolver reader) (hk : Names index cls item key)
    (hs : freshScope index resolver cls = .ok scope) :
    Sound index resolver { reader with
      fragments := store reader.fragments cls.qualifiedName item
        (computeFragments resolver scope cls key) } :=
  { h with fragments := forall_cached?_store h.fragments ⟨cls, key, scope, rfl, hk, hs, rfl⟩ }

theorem storeAnnotations (h : Sound index resolver reader)
    (hs : freshScope index resolver cls = .ok scope)
    (ht : Traced index resolver cls item scope (computeFragments resolver scope cls first) first
      groups) :
    Sound index resolver { reader with
      annotations := store reader.annotations cls.qualifiedName item groups } :=
  { h with annotations := forall_cached?_store h.annotations ⟨cls, first, scope, rfl, hs, ht⟩ }

theorem names (index : SourceIndex) (resolver : Resolver) :
    NamesStable index resolver (Sound index resolver) where
  isScoped _ h := h.toScoped
  withLog _ log h := h.withLog log
  insertTable _ _ _ h hc hs := ⟨h.toScoped.insertTable hc hs, h.fragments, h.annotations⟩

theorem fresh (index : SourceIndex) (resolver : Resolver) (throwAll throwPrivileged : Bool) :
    Sound index resolver { index, resolver, throwAll, throwPrivileged } :=
  { Scoped.fresh index resolver throwAll throwPrivileged with
    fragments := nofun
    annotations := nofun }

end Sound

/-- Fragments that are found are those of the declaration. -/
theorem fragmentsOf_sound (hb : index.Built) (hk : Names index cls key.itemName key)
    (hs : freshScope index resolver cls = .ok scope) :
    Leads (Sound index resolver) (Sound index resolver) (fragmentsOf cls key scope)
      (· = .ok (computeFragments resolver scope cls key)) := by
  unfold fragmentsOf
  refine .get_bind fun reader h => ?_
  split
  next fragments hf =>
    obtain ⟨other, key', scope', hname, hk', hs', rfl⟩ := h.fragments _ _ _ hf
    obtain rfl := hk.eq_of_qualifiedName hb hk' hname
    obtain rfl := Except.ok.inj (hs.symm.trans hs')
    exact .pure (congrArg _ (hk'.computeFragments_eq hk))
  next =>
    rw [h.resolver_eq]
    exact .modify_bind (fun reader h => h.storeFragments hk hs) (.pure rfl)

/-- Annotations that are found have been traced from the first time they were found. -/
theorem groupsOf_sound (hb : index.Built) (hk : Names index cls key.itemName key)
    (hs : freshScope index resolver cls = .ok scope) :
    Leads (Sound index resolver) (Sound index resolver) (groupsOf cls key scope)
      fun result => ∀ groups, result = .ok groups → ∃ first,
        Traced index resolver cls key.itemName scope (computeFragments resolver scope cls key) first
          groups := by
  unfold groupsOf
  refine .get_bind fun reader h => ?_
  split
  next groups hg =>
    refine .pure fun groups' heq => ?_
    cases heq
    obtain ⟨other, first, scope', hname, hs', ht⟩ := h.annotations _ _ _ hg
    obtain rfl := hk.eq_of_qualifiedName hb ht.names hname
    obtain rfl := Except.ok.inj (hs.symm.trans hs')
    exact ⟨first, hk.computeFragments_eq ht.names ▸ ht⟩
  next =>
    refine (fragmentsOf_sound hb hk hs).bind (fun fragments hf => ?_) (fun _ h => h) nofun
    cases hf
    refine .get_bind fun reader h => ?_
    rw [h.resolver_eq]
    refine (Leads.withLog (fun _ log h => h.withLog log) (steady_computeGroups _)).bind
      (fun groups hg => ?_) (fun _ h => h) fun _ _ => nofun
    have ht := traced_of_computeGroups hk hg.symm
    refine .modify_bind (fun reader h => h.storeAnnotations hs ht) (.pure fun groups' heq => ?_)
    cases heq
    exact ⟨key, ht⟩

/-- A value shows annotations of one name, and the instances among them have a source as a type. -/
def Shows (index : SourceIndex) (resolver : Resolver) (cls : SourceClass) (item : String)
    (scope : NameScope) (fragments : List Fragment) (first : DeclarationKey) (type : String)
    (v : Value) : Prop :=
  ∃ values, v = shown values ∧ ∀ i ∈ values, i.isGeneric = false →
    Sourced index resolver cls item scope fragments first type i

theorem Traced.shows {fragments : List Fragment} {type : String}
    (h : Traced index resolver cls item scope fragments first groups)
    (hunmixed : Unmixed resolver scope fragments first type) (hv : shown? groups type = some v) :
    Shows index resolver cls item scope fragments first type v := by
  obtain ⟨values, hvalues, rfl⟩ := Option.map_eq_some_iff.mp hv
  exact ⟨values, rfl, h.sourced type values hunmixed hvalues⟩

/-- An upgrade gives instances of the type. -/
theorem upgrade_sound {type : String} (hb : index.Built) (hk : Names index cls key.itemName key)
    (hs : freshScope index resolver cls = .ok scope)
    (ht : Traced index resolver cls key.itemName scope (computeFragments resolver scope cls key)
      first groups)
    (hd : dropLeading type = type) (hn : Entries.get? groups type = none)
    (hq : Entries.get? groups (dropLeading (scope.find type)) = none) :
    Leads (Sound index resolver) (Sound index resolver) (upgrade cls key scope groups type)
      fun result => ∀ v, result = .ok v → v = .null ∨
        (Unmixed resolver scope (computeFragments resolver scope cls key) first type →
          Shows index resolver cls key.itemName scope (computeFragments resolver scope cls key)
            first type v) := by
  have hnull : ∀ v : Value, (.ok .null : Except Abort Value) = .ok v → v = .null ∨
      (Unmixed resolver scope (computeFragments resolver scope cls key) first type →
        Shows index resolver cls key.itemName scope (computeFragments resolver scope cls key) first
          type v) := fun v hv => .inl (Except.ok.inj hv).symm
  unfold upgrade
  refine .get_bind fun reader h => ?_
  rw [h.resolver_eq]
  dsimp only
  split
  next => exact .pure hnull
  next hr =>
    refine (fragmentsOf_sound hb hk hs).bind (fun fragments hf => ?_) (fun _ h => h) nofun
    cases hf
    split
    next => exact .pure hnull
    next =>
      refine (Leads.withLog (fun _ log h => h.withLog log)
        (resolver.steady_mapM_convert scope key type _)).bind
          (fun values hc => ?_) (fun _ h => h) fun _ _ => nofun
      split
      next => exact .pure hnull
      next =>
        have hnext := ht.insert hk hd (by simpa using hr) hn hq hc.symm
        rw [hk.computeFragments_eq ht.names] at hnext ⊢
        refine .modify_bind (fun reader h => h.storeAnnotations hs hnext)
          (.pure fun v hv => .inr fun hunmixed => ?_)
        cases hv
        refine hnext.shows hunmixed ?_
        rw [shown?, Entries.get?_insert, if_pos rfl, Option.map_some]

/-- The types that a look-up by a name may be about: the type of that name, and the one that the
name stands for in the class. -/
def Asked (scope : NameScope) (name type : String) : Prop :=
  type = name ∨ type = dropLeading (scope.find name)

/-- In the declaration of a key, no fragment of another type is mixed up with those of the types
that a look-up by a name may be about. -/
def UnmixedFor (index : SourceIndex) (resolver : Resolver) (key : DeclarationKey) (name : String) :
    Prop :=
  ∀ cls scope first type, declaring index key = .ok cls →
    freshScope index resolver cls = .ok scope → Names index cls key.itemName first →
      Asked scope name type →
        Unmixed resolver scope (computeFragments resolver scope cls key) first type

/-- What a look-up by a name gives: annotations of the type of that name or, where the declaration
has none by that name, of the type that the name stands for in the class. -/
def Explained (index : SourceIndex) (resolver : Resolver) (key : DeclarationKey) (name : String)
    (v : Value) : Prop :=
  ∃ cls scope first type, Names index cls key.itemName first ∧ declaring index key = .ok cls ∧
    freshScope index resolver cls = .ok scope ∧
      (type = name ∨
        ¬ Held resolver scope first (computeFragments resolver scope cls key) name ∧
          type = dropLeading (scope.find name)) ∧
        Shows index resolver cls key.itemName scope (computeFragments resolver scope cls key) first
          type v

theorem lookUp_sound (hb : index.Built) (hk : Names index cls key.itemName key)
    (hs : freshScope index resolver cls = .ok scope)
    (ht : Traced index resolver cls key.itemName scope (computeFragments resolver scope cls key)
      first groups) (wanted : String) :
    Leads (Sound index resolver) (Sound index resolver) (lookUp cls key scope groups wanted)
      fun result => ∀ v, result = .ok v → UnmixedFor index resolver key (className wanted) →
        v = .null ∨ Explained index resolver key (className wanted) v := by
  have hunmixed (type : String) (h : UnmixedFor index resolver key (className wanted)) :
      Asked scope (className wanted) type →
        Unmixed resolver scope (computeFragments resolver scope cls key) first type :=
    h cls scope first type hk.declaring hs ht.names
  cases hn : groups.shown? (className wanted) with
  | some v =>
    rw [lookUp_of_shown? hn]
    refine .pure fun v' heq h => .inr ?_
    cases heq
    exact ⟨cls, scope, first, _, ht.names, hk.declaring, hs, .inl rfl,
      ht.shows (hunmixed _ h (.inl rfl)) hn⟩
  | none =>
    have hnone : Entries.get? groups (className wanted) = none := Option.map_eq_none_iff.mp hn
    have hnot : ¬ Held resolver scope first (computeFragments resolver scope cls key)
        (className wanted) := ht.not_held hnone
    cases hq : groups.shown? (dropLeading (scope.find (className wanted))) with
    | some v =>
      rw [lookUp_of_other hn hq]
      refine .pure fun v' heq h => .inr ?_
      cases heq
      exact ⟨cls, scope, first, _, ht.names, hk.declaring, hs, .inr ⟨hnot, rfl⟩,
        ht.shows (hunmixed _ h (.inr rfl)) hq⟩
    | none =>
      rw [lookUp_of_not_shown hn hq]
      refine (upgrade_sound hb hk hs ht (dropLeading_dropLeading _) hnone
        (Option.map_eq_none_iff.mp hq)).imp fun result hresult v hv h => ?_
      refine (hresult v hv).imp_right fun hshows => ?_
      exact ⟨cls, scope, first, _, ht.names, hk.declaring, hs, .inl rfl,
        hshows (hunmixed _ h (.inl rfl))⟩

theorem resolve_sound (hb : index.Built) (hm : HasMember key) (wanted : String) :
    Leads (Sound index resolver) (Sound index resolver) (resolve key wanted)
      fun result => ∀ v, result = .ok v → UnmixedFor index resolver key (className wanted) →
        v = .null ∨ Explained index resolver key (className wanted) v := by
  have hnames := Sound.names index resolver
  refine (Leads.guarded hnames.withLog hnames.withLog (declaring_leads
    (Q := fun result => ∀ v, result = .ok v → UnmixedFor index resolver key (className wanted) →
      v = .null ∨ Explained index resolver key (className wanted) v)
    hnames hb (fun _ h => h) (fun cls scope hc hs => ?_) fun _ _ => nofun)).imp ?_
  · have hk : Names index cls key.itemName key := ⟨hc, rfl, hm⟩
    refine (groupsOf_sound hb hk hs).bind (fun groups hg => ?_) (fun _ h => h) fun _ _ => nofun
    obtain ⟨first, ht⟩ := hg groups rfl
    exact lookUp_sound hb hk hs ht wanted
  · rintro result ⟨reader, inner, -, hinner, hresult⟩ v hv
    rcases ok_or_eq_of_shield (hresult.symm.trans hv) with hv | rfl
    · exact hinner v hv
    · exact fun _ => .inl rfl

theorem resolveAll_sound (hb : index.Built) (hm : HasMember key) :
    Leads (Sound index resolver) (Sound index resolver) (resolveAll key) fun _ => True := by
  have hnames := Sound.names index resolver
  refine (Leads.guarded (P := fun _ => True) hnames.withLog hnames.withLog ?_).imp
    fun _ _ => trivial
  refine declaring_leads hnames hb (fun _ h => h) (fun cls scope hc hs => ?_) fun _ _ => trivial
  exact (groupsOf_sound hb ⟨hc, rfl, hm⟩ hs).bind (fun _ _ => .pure trivial) (fun _ h => h)
    fun _ _ => trivial

theorem memberKey_sound (hb : index.Built) (host : String) (kind : DeclarationKind)
    (name : String) :
    Leads (Sound index resolver) (Sound index resolver) (memberKey host kind name)
      fun result => ∀ key, result = .ok (some key) → HasMember key :=
  (memberKey_leads (Sound.names index resolver) hb host kind name).imp fun _ hresult key hkey =>
    (hresult key hkey).1.member

theorem annotationOfMember_sound (hb : index.Built) (kind : DeclarationKind)
    (host name wanted : String) :
    Leads (Sound index resolver) (Sound index resolver) (annotationOfMember kind host name wanted)
      fun _ => True := by
  unfold annotationOfMember
  refine (memberKey_sound hb host kind name).bind (fun found hfound => ?_) (fun _ h => h)
    fun _ _ => trivial
  split
  next key => exact (resolve_sound hb (hfound key rfl) wanted).imp fun _ _ => trivial
  next => exact .pure trivial

theorem annotationsOfMember_sound (hb : index.Built) (kind : DeclarationKind)
    (host name : String) :
    Leads (Sound index resolver) (Sound index resolver) (annotationsOfMember kind host name)
      fun _ => True := by
  unfold annotationsOfMember
  refine (memberKey_sound hb host kind name).bind (fun found hfound => ?_) (fun _ h => h)
    fun _ _ => trivial
  split
  next key =>
    exact (resolveAll_sound hb (hfound key rfl)).bind (fun _ _ => .pure trivial) (fun _ h => h)
      fun _ _ => trivial
  next => exact .pure trivial

theorem hasMember_className (host : String) : HasMember { className := className host } :=
  fun h => absurd rfl h

namespace Request

/-- The key of a look-up names its member. -/
def KeyHasMember : Request → Prop
  | resolve key _ | resolveAll key => HasMember key
  | _ => True

/-- Every request keeps the caches sound. -/
theorem run_sound (hb : index.Built) (h : Sound index resolver reader) {request : Request}
    (hv : request.KeyHasMember) :
    Sound index { resolver with typeNames := request.typeNamesAfter resolver.typeNames }
      (request.run reader) := by
  cases request with
  | resolve key wanted => exact (resolve_sound hb hv wanted reader h).1
  | resolveAll key => exact (resolveAll_sound hb hv reader h).1
  | annotationOfClass host wanted =>
    exact (resolve_sound hb (hasMember_className host) wanted reader h).1
  | annotationOfProperty host name wanted =>
    exact (annotationOfMember_sound hb .onProperty host (propertyName name) wanted reader h).1
  | annotationOfMethod host name wanted =>
    exact (annotationOfMember_sound hb .onMethod host name wanted reader h).1
  | annotationsOfClass host =>
    exact ((resolveAll_sound hb (hasMember_className host)).bind (Q := fun _ => True)
      (fun _ _ => .pure trivial) (fun _ h => h) (fun _ _ => trivial) reader h).1
  | annotationsOfProperty host name =>
    exact (annotationsOfMember_sound hb .onProperty host (propertyName name) reader h).1
  | annotationsOfMethod host name =>
    exact (annotationsOfMember_sound hb .onMethod host name reader h).1
  | setTypeNames names =>
    -- Neither names nor fragments are read with the attributes that name types.
    refine ⟨⟨h.index_eq, ?_, h.aliasTables⟩, h.fragments, by rintro _ _ _ ⟨⟩⟩
    simp [run, Reader.setTypeNames, typeNamesAfter, h.resolver_eq]
  | setThrow general privileged =>
    exact ⟨⟨h.index_eq, h.resolver_eq, h.aliasTables⟩, h.fragments, h.annotations⟩
  | clearCache =>
    exact ⟨⟨h.index_eq, h.resolver_eq, by rintro _ _ ⟨⟩⟩, by rintro _ _ _ ⟨⟩, by rintro _ _ _ ⟨⟩⟩

theorem runs_sound (hb : index.Built) (h : Sound index resolver reader)
    {requests : List Request} (hv : ∀ request ∈ requests, request.KeyHasMember) :
    Sound index
      { resolver with typeNames := requests.foldl typeNamesAfter resolver.typeNames }
      (requests.foldl run reader) := by
  induction requests generalizing reader resolver with
  | nil => exact h
  | cons request rest ih =>
    exact ih (run_sound hb h (hv request (by simp))) fun r hr => hv r (by simp [hr])

end Request

/-- After any requests, a look-up gives nothing, or annotations of one name. The instances among
them are made of fragments of the declaration as the wanted type, or as the type that the wanted name
stands for in the class. -/
theorem resolve_explained (hb : index.Built) (registry : Registry) (typeNames : List String)
    (throwAll throwPrivileged : Bool) {requests : List Request}
    (hv : ∀ request ∈ requests, request.KeyHasMember) (hm : HasMember key) {wanted : String} :
    let reader := requests.foldl Request.run
      { index, resolver := { registry, typeNames }, throwAll, throwPrivileged }
    UnmixedFor index reader.resolver key (className wanted) →
      (resolve key wanted reader).1 = .ok v →
        v = .null ∨ Explained index reader.resolver key (className wanted) v := by
  intro reader hunmixed hresolve
  have h : Sound index _ reader :=
    Request.runs_sound hb (Sound.fresh index { registry, typeNames } throwAll throwPrivileged) hv
  rw [show reader.resolver = _ from h.resolver_eq] at hunmixed ⊢
  exact (resolve_sound hb hm wanted reader h).2 v hresolve hunmixed

/-- What the written names of the fragments of a declaration stand for. -/
def typesWritten (index : SourceIndex) (resolver : Resolver) (key : DeclarationKey) :
    Except Abort (List (Option String)) := do
  let cls ← declaring index key
  let scope ← freshScope index resolver cls
  return (computeFragments resolver scope cls key).map fun f => resolver.qualify scope f.name

/-- Where no written name stands for a type, all fragments are kept as text. -/
theorem unmixedFor_of_unqualified {names : List (Option String)}
    (h : typesWritten index resolver key = .ok names)
    (hnone : ∀ name ∈ names, name = none) : UnmixedFor index resolver key name := by
  intro cls scope first type hcls hscope _ _ _ _ f hf _ _
  simp only [typesWritten, hcls, hscope, bind, Except.bind] at h
  obtain rfl := Except.ok.inj h
  exact .inl (keptAsText_of_unqualified (hnone _ (List.mem_map_of_mem hf)))

/-- An annotation of no type that its namespace has, found as the type that is asked for. -/
theorem resolve_explained_respelled :
    let key : DeclarationKey := { className := "\\App\\Host" }
    let base := hostReader "/** @Note(x=1) */" [("Lib\\Note", Factory.inner)]
    let reader := [Request.annotationsOfClass "App\\Host"].foldl Request.run base
    HasMember key ∧ UnmixedFor base.index reader.resolver key (className "Lib\\Note") ∧ ∃ fields,
      (resolve key "Lib\\Note" reader).1 = .ok (.object "Inner" fields) ∧
        Explained base.index reader.resolver key (className "Lib\\Note")
          (.object "Inner" fields) := by
  intro key base reader
  have hm : HasMember key := nofun
  have hwritten : typesWritten base.index reader.resolver key = .ok [none] := by decide +kernel
  have hunmixed : UnmixedFor base.index reader.resolver key (className "Lib\\Note") :=
    unmixedFor_of_unqualified hwritten (by simp)
  have hfound : (resolve key "Lib\\Note" reader).1 = .ok (.object "Inner" [("x", .int 1)]) := by
    decide +kernel
  have hv : ∀ request ∈ [Request.annotationsOfClass "App\\Host"], request.KeyHasMember := by
    simp [Request.KeyHasMember]
  rcases resolve_explained (built_hostReader ..) base.resolver.registry [] false true hv hm
    hunmixed hfound with hnull | hexplained
  · cases hnull
  · exact ⟨hm, hunmixed, _, hfound, hexplained⟩

/-- A look-up by a registered type gives an instance, and the written name of every fragment of the
declaration stands for another type. -/
structure Strays (reader : Reader) (key : DeclarationKey) (type : String) : Prop where
  registered : reader.resolver.registry.contains type = true
  found : ∃ kind fields, (resolve key type reader).1 = .ok (.object kind fields)
  others : ∃ names, typesWritten reader.index reader.resolver key = .ok names ∧
    ∀ name ∈ names, ∃ other, name = some other ∧ other ≠ type

/-- A wanted type is also read as a name in the class. A fragment that is kept as text is made an
instance of the wanted type although its name stands for another one. -/
theorem resolve_strays :
    let key : DeclarationKey := { className := "App\\Host" }
    Strays (hostReader "/** @Note(name=\"a\") */"
        [("Note", Factory.inner), ("App\\Note", Factory.param)]) key "Note" ∧
      Strays (hostReader "/** @Note(x=1) */"
        [("App\\Note", Factory.param), ("Lib\\Note", Factory.inner)]) key "Lib\\Note" := by
  intro key
  have hothers (type : String) (hne : "App\\Note" ≠ type) :
      ∀ name ∈ [some "App\\Note"], ∃ other, name = some other ∧ other ≠ type := by
    simpa using hne
  constructor
  · exact ⟨by decide, ⟨"Param", [("name", .text "a"), ("type", .text "")], by decide +kernel⟩,
      _, by decide +kernel, hothers _ (by decide)⟩
  · exact ⟨by decide, ⟨"Inner", [("x", .int 1)], by decide +kernel⟩,
      _, by decide +kernel, hothers _ (by decide)⟩

end DocAnnotations.Reader
