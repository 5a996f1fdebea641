import DocAnnotations.Proofs.Reader.Enumeration
import DocAnnotations.Proofs.Reader.Independence
import DocAnnotations.Proofs.Reader.Soundness

/-! Look-ups that make native attributes instances of a type that their names do not stand for. -/
namespace DocAnnotations.Reader

open QualifiedName AnnotationGroups Resolver

variable {α : Type} {base reader : Reader} {resolver : Resolver} {key : DeclarationKey}
  {cls : SourceClass} {scope : NameScope} {groups : AnnotationGroups} {entries : Entries Value}
  {fragments : List Fragment} {type wanted : String}

theorem guarded_fst (x : ReaderM α) (empty : α) (reader : Reader) :
    (guarded empty x reader).1 =
      shield (x { reader with log.lastError := none }).2 empty
        (x { reader with log.lastError := none }).1 := by
  unfold guarded
  split
  next e next hx => rw [hx]; rfl
  next hx =>
    unfold shield
    split
    next e he => exact (hx e _ (Prod.ext he rfl)).elim
    next => rfl

/-- A reading goes on with the annotations that a settled reader keeps for a declaration. -/
theorem onGroups_leads {Q : Except Abort α → Prop} (hb : base.index.Built) (hstd : Standard key)
    {k : SourceClass → NameScope → AnnotationGroups → ReaderM α}
    (hk : ∀ cls scope fresh more,
      Kept True base key cls scope (computeFragments base.resolver scope cls key) fresh more →
        declaring base.index key = .ok cls →
          Leads (Settled True base) (Settled True base) (k cls scope (fresh ++ more)) Q)
    (he : ∀ stop, Q (.error stop)) :
    Leads (Settled True base) (Settled True base) (onGroups key k) Q := by
  refine declared_leads hb hstd (fun _ h => h) (fun cls scope hd hc => ?_) fun stop _ => he stop
  have hgroups := (groupsOf_leads True hd).and_yields (groupsOf_yields hd.keyFor hd.scope_eq)
  refine hgroups.bind (fun groups hg => ?_) (fun _ h => h) fun stop _ => he stop
  obtain ⟨⟨_, hext⟩, hgrown⟩ := hg
  obtain ⟨fresh, more, hfresh, rfl, hmore⟩ := hext groups rfl
  exact hk cls scope fresh more ⟨hd, hfresh, hmore, hgrown _ rfl⟩ hc

/-- The class, the names and the annotations that a reading of a declaration goes on with. -/
theorem found_leads (hb : base.index.Built) (hstd : Standard key) :
    Leads (Settled True base) (Settled True base)
      (onGroups key fun cls scope groups => pure (cls, scope, groups)) fun result =>
        ∀ found, result = .ok found → declaring base.index key = .ok found.1 ∧
          ∃ fresh more, found.2.2 = fresh ++ more ∧ Kept True base key found.1 found.2.1
            (computeFragments base.resolver found.2.1 found.1 key) fresh more := by
  refine onGroups_leads hb hstd (fun cls scope fresh more hkept hc => .pure fun found hfound => ?_)
    fun stop found hfound => by cases hfound
  cases hfound
  exact ⟨hc, fresh, more, rfl, hkept⟩

/-- What comes of making fragments instances of a type: nothing, unless all of them become
instances. -/
def rebuilt (resolver : Resolver) (scope : NameScope) (key : DeclarationKey) (type : String)
    (fragments : List Fragment) : Except Abort Value :=
  if resolver.registry.contains type ∧ fragments ≠ [] then
    (fragments.mapM (resolver.convert scope key type) {}).1.map fun values =>
      if values.any Value.isGeneric then .null else shown values
  else .ok .null

theorem rebuilt_matching : rebuilt resolver scope key type (matching scope fragments groups type) =
    (upgraded resolver scope key fragments groups type).map fun values =>
      (values.map shown).getD .null := by
  unfold rebuilt upgraded
  split
  next =>
    cases (matching scope fragments groups type).mapM (resolver.convert scope key type) {} with
    | mk result log =>
      cases result with
      | error stop => rfl
      | ok values =>
        simp only [Except.map]
        split <;> rfl
  next => rfl

/-- The fragments that are spelled like a type and shown under their own names. -/
def spelledLike (scope : NameScope) (entries : Entries Value) (type : String)
    (fragments : List Fragment) : List Fragment :=
  fragments.filter fun f => (spellings scope type).contains f.name && entries.hasKey f.name

theorem hasKey_toEntries (groups : AnnotationGroups) (name : String) :
    Entries.hasKey groups.toEntries name = Entries.hasKey groups name := by
  simp [Entries.hasKey, toEntries, Entries.mapContents, Function.comp_def]

theorem spelledLike_toEntries :
    spelledLike scope groups.toEntries type fragments = matching scope fragments groups type := by
  simp only [spelledLike, matching, hasKey_toEntries]

/-- An enumeration shows what the reader then keeps for the declaration, and a look-up goes on with
it. -/
theorem exists_kept (hb : base.index.Built) (h : Settled True base reader) (hstd : Standard key)
    (hc : declaring base.index key = .ok cls)
    (hs : freshScope base.index base.resolver cls = .ok scope)
    (hall : (resolveAll key reader).1 = .ok entries) (hne : entries ≠ []) :
    ∃ fresh more middle, entries = toEntries (fresh ++ more) ∧
      Kept True base key cls scope (computeFragments base.resolver scope cls key) fresh more ∧
      Settled True base middle ∧
      ∀ {β : Type} (k : SourceClass → NameScope → AnnotationGroups → ReaderM β),
        onGroups key k { reader with log.lastError := none } =
          k cls scope (fresh ++ more) middle := by
  have hshown : onGroups key (fun _ _ groups => pure groups.toEntries)
      { reader with log.lastError := none } = (.ok entries, (resolveAll key reader).2) :=
    ok_of_guarded hall hne
  obtain ⟨cls', scope', groups, middle, -, hend, hrun⟩ := exists_holds hshown
  obtain ⟨hmiddle, hkept⟩ := found_leads hb hstd _ (h.withLog { reader.log with lastError := none })
  rw [hrun] at hmiddle hkept
  obtain ⟨hc', fresh, more, rfl, hkept⟩ := hkept _ rfl
  obtain rfl : cls = cls' := Except.ok.inj (hc.symm.trans hc')
  obtain rfl : scope = scope' := Except.ok.inj (hs.symm.trans hkept.scope_eq)
  refine ⟨fresh, more, middle, ?_, hkept, hmiddle, hrun⟩
  cases hend
  rfl

/-- A look-up by a name that the enumeration of a declaration shows nothing under makes the
fragments that are spelled like the name instances of its type. -/
theorem resolve_of_absent (hb : base.index.Built) (h : Settled True base reader)
    (hstd : Standard key) (hc : declaring base.index key = .ok cls)
    (hs : freshScope base.index base.resolver cls = .ok scope)
    (hall : (resolveAll key reader).1 = .ok entries) (hne : entries ≠ [])
    (hn : entries.get? (className wanted) = none)
    (hq : entries.get? (dropLeading (scope.find (className wanted))) = none) :
    (resolve key wanted reader).1 = shield base .null
      (rebuilt base.resolver scope key (className wanted)
        (spelledLike scope entries (className wanted)
          (computeFragments base.resolver scope cls key))) := by
  obtain ⟨fresh, more, middle, rfl, hkept, hmiddle, hrun⟩ := exists_kept hb h hstd hc hs hall hne
  rw [get?_toEntries] at hn hq
  obtain ⟨hnext, hresult⟩ := hkept.upgrade_leads (Option.map_eq_none_iff.mp hn)
    (Option.map_eq_none_iff.mp hq) middle hmiddle
  have hlookUp : onGroups key (fun cls scope groups => lookUp cls key scope groups wanted)
      { reader with log.lastError := none } =
        upgrade cls key scope (fresh ++ more) (className wanted) middle := by
    rw [hrun, lookUp_of_not_shown hn hq]
  rw [spelledLike_toEntries, hkept.matching_eq, rebuilt_matching, ← hresult, ← hnext.shield_eq,
    ← hlookUp]
  exact guarded_fst _ _ reader

/-- A fragment whose name stands for no type is shown under its name. -/
theorem hasKey_of_unqualified (hb : base.index.Built) (h : Settled True base reader)
    (hstd : Standard key) (hc : declaring base.index key = .ok cls)
    (hs : freshScope base.index base.resolver cls = .ok scope)
    (hall : (resolveAll key reader).1 = .ok entries) (hne : entries ≠ []) {f : Fragment}
    (hf : f ∈ computeFragments base.resolver scope cls key)
    (hname : base.resolver.qualify scope f.name = none) : entries.hasKey f.name = true := by
  obtain ⟨fresh, more, -, rfl, hkept, -, -⟩ := exists_kept hb h hstd hc hs hall hne
  obtain ⟨v, hv⟩ := hasKey_of_computeGroups hkept.fresh_eq hf
  have hresult : resultName base.resolver scope f v = f.name := by
    rw [resultName, hname]
    split <;> rfl
  rw [hasKey_toEntries, Entries.hasKey_append, ← hresult, hv, Bool.true_or]

/-- Text without a parenthesis in front gives no attributes. -/
theorem attributesOf_of_plain (schema : Schema) {raw : String}
    (h : (Text.trim raw.toList).head? ≠ some '(') : attributesOf schema raw = .ok [] := by
  have hnone : Argument.evaluateList raw = .ok none := by
    unfold Argument.evaluateList
    split
    next htrim => simp [htrim] at h
    next => rfl
  have hattributes : Argument.attributes raw = .ok [] := by rw [Argument.attributes, hnone]; rfl
  have hpositional : Argument.positional raw = .ok .null := by rw [Argument.positional, hnone]; rfl
  unfold attributesOf
  rw [hattributes]
  simp only [bind, Except.bind, hpositional]
  split <;> rfl

theorem Request.HasStandardKey.valid {request : Request} (h : request.HasStandardKey) :
    request.Valid := by
  cases request with
  | resolve | resolveAll => exact h.toProper
  | _ => trivial

/-- Native attributes as the fragments that upgrades work on. -/
theorem computeFragments_native {attributes : List NativeAttribute} {doc : Option String}
    (h : annotationSource cls key = (attributes, doc)) (hne : attributes ≠ []) :
    computeFragments resolver scope cls key = attributes.map fun attr =>
      ⟨attr.name, if (resolver.qualify scope attr.name).isSome then attr.arguments else attr.text,
        []⟩ := by
  unfold computeFragments
  rw [h]
  cases attributes with
  | nil => exact absurd rfl hne
  | cons attr rest =>
    refine List.map_congr_left fun attr _ => ?_
    rw [nativeFragment]
    split <;> rfl

/-- A look-up that goes through an upgrade makes the native attributes that are spelled like the
wanted type instances of it. The arguments count only where the name stands for some type. Where it
stands for none, the plain text counts, which gives no attributes without a parenthesis in front. -/
theorem resolve_native {index : SourceIndex} (hb : index.Built) (registry : Registry)
    (typeNames : List String) (throwAll throwPrivileged : Bool) {requests : List Request}
    (hv : ∀ request ∈ requests, request.HasStandardKey) (hstd : Standard key)
    (hc : declaring index key = .ok cls) {attributes : List NativeAttribute} {doc : Option String}
    (hsource : annotationSource cls key = (attributes, doc)) (hsome : attributes ≠ [])
    (hs : freshScope index { registry, typeNames } cls = .ok scope) :
    let reader := requests.foldl Request.run
      { index, resolver := { registry, typeNames }, throwAll, throwPrivileged }
    let fragment (attr : NativeAttribute) : Fragment :=
      ⟨attr.name, if (reader.resolver.qualify scope attr.name).isSome then attr.arguments
        else attr.text, []⟩
    ∀ entries, (resolveAll key reader).1 = .ok entries → entries ≠ [] →
      entries.get? (className wanted) = none →
      entries.get? (dropLeading (scope.find (className wanted))) = none →
        let candidates :=
          spelledLike scope entries (className wanted) (attributes.map fragment)
        (resolve key wanted reader).1 =
            shield reader .null (rebuilt reader.resolver scope key (className wanted) candidates) ∧
          ∀ attr ∈ attributes, attr.name = lastSegment (className wanted) →
            reader.resolver.qualify scope attr.name = none →
              ⟨attr.name, attr.text, []⟩ ∈ candidates ∧
                ((Text.trim attr.text.toList).head? ≠ some '(' →
                  ∀ schema, attributesOf schema attr.text = .ok []) := by
  intro reader fragment entries hall hne hn hq candidates
  obtain ⟨h, hindex⟩ : Settled True reader.renewed reader ∧ reader.index = index :=
    Request.runs_settled hb (.renewed _) hv
  have hbuilt : reader.renewed.index.Built := hindex ▸ hb
  have hdeclared : declaring reader.renewed.index key = .ok cls := hindex ▸ hc
  have hscope : freshScope reader.renewed.index reader.renewed.resolver cls = .ok scope := by
    change freshScope reader.index reader.resolver cls = .ok scope
    have hcoherent := Request.runs_coherent hb
      (coherent_fresh index { registry, typeNames } throwAll throwPrivileged)
      fun request hr => (hv request hr).valid
    rw [hindex, hcoherent.resolver_eq, ← hs]
    rfl
  have hfragments : computeFragments reader.resolver scope cls key = attributes.map fragment :=
    computeFragments_native hsource hsome
  refine ⟨?_, fun attr ha hname hunknown => ⟨?_, fun hplain schema => ?_⟩⟩
  · rw [resolve_of_absent hbuilt h hstd hdeclared hscope hall hne hn hq, h.shield_eq]
    exact congrArg _ (congrArg _ (congrArg _ hfragments))
  · have hfragment : fragment attr = ⟨attr.name, attr.text, []⟩ := by simp [fragment, hunknown]
    have hmem : fragment attr ∈ attributes.map fragment := List.mem_map_of_mem ha
    rw [hfragment] at hmem
    have hf : ⟨attr.name, attr.text, []⟩ ∈ computeFragments reader.resolver scope cls key := by
      rw [hfragments]
      exact hmem
    have hkey := hasKey_of_unqualified hbuilt h hstd hdeclared hscope hall hne hf hunknown
    have hspelled : (spellings scope (className wanted)).contains attr.name = true := by
      simp [spellings, hname]
    exact List.mem_filter.mpr ⟨hmem, Bool.and_eq_true_iff.mpr ⟨hspelled, hkey⟩⟩
  · exact attributesOf_of_plain schema hplain

/-- A new reader of a class with a native attribute, and a type that ends in the same name. -/
def attributedReader (attr : NativeAttribute) (factory : Factory) : Reader where
  index := SourceIndex.addClass {}
    { name := "Host", qualifiedName := "App\\Host", scope := some "App", attributes := [attr] }
    "<?php namespace App;\nclass Host \x7b\x7d\n"
  resolver.registry := Registry.add {}
    (Registration.schemaFor { name := "Lib\\Note", maker := .factory factory } factory)

theorem exists_of_toOption_map {β : Type} {x : Except Abort α} {f : α → β} {b : β}
    (h : x.toOption.map f = some b) : ∃ a, x = .ok a ∧ f a = b := by
  cases x with
  | ok a => exact ⟨a, rfl, Option.some.inj h⟩
  | error stop => cases h

theorem get?_of_keys {name : String} {keys : List String} (hkeys : Entries.keys entries = keys)
    (h : name ∉ keys) : entries.get? name = none := by
  rwa [← Entries.hasKey_eq_false_iff, ← Bool.not_eq_true, Entries.hasKey_iff_mem, hkeys]

/-- After an enumeration, the attribute that it shows as text is made an instance of its plain
text. -/
theorem resolve_native_plain :
    let key : DeclarationKey := { className := "App\\Host" }
    let base := attributedReader ⟨"Note", "(x=5)", "5"⟩ Factory.inner
    let reader := [Request.annotationsOfClass "App\\Host"].foldl Request.run base
    ∃ scope entries, (resolveAll key reader).1 = .ok entries ∧
      (resolve key "Lib\\Note" reader).1 = shield reader .null
        (rebuilt reader.resolver scope key "Lib\\Note" (spelledLike scope entries "Lib\\Note"
          [⟨"Note", "5", []⟩])) ∧
      ⟨"Note", "5", []⟩ ∈ spelledLike scope entries "Lib\\Note" [⟨"Note", "5", []⟩] ∧
      ∀ schema, attributesOf schema "5" = .ok [] := by
  intro key base reader
  have hv : ∀ request ∈ [Request.annotationsOfClass "App\\Host"], request.HasStandardKey := by
    simp [Request.HasStandardKey]
  have hstd : Standard key := ⟨⟨by decide, fun h => absurd rfl h⟩, fun _ => rfl⟩
  have hb : base.index.Built := .addClass _ _ .empty
  have hname : className "Lib\\Note" = "Lib\\Note" := by decide
  obtain ⟨cls, hc, hsource⟩ := exists_of_toOption_map (b := ([⟨"Note", "(x=5)", "5"⟩], none))
    (f := fun cls => annotationSource cls key) (x := declaring base.index key)
    (by decide)
  obtain ⟨scope, hs, hnames⟩ := exists_of_toOption_map (b := ("Lib\\Note", none))
    (f := fun scope => (dropLeading (scope.find "Lib\\Note"), base.resolver.qualify scope "Note"))
    (x := declaring base.index key >>= freshScope base.index base.resolver)
    (by decide +kernel)
  rw [hc] at hs
  obtain ⟨hfind, hunknown⟩ := Prod.mk.inj hnames
  obtain ⟨entries, hall, hkeys⟩ := exists_of_toOption_map (b := ["Note"])
    (f := Entries.keys) (x := (resolveAll key reader).1) (by decide +kernel)
  have hne : entries ≠ [] := by
    rintro rfl
    cases hkeys
  have hn : entries.get? (className "Lib\\Note") = none :=
    get?_of_keys hkeys (by rw [hname]; decide)
  have hq : entries.get? (dropLeading (scope.find (className "Lib\\Note"))) = none :=
    get?_of_keys hkeys (by rw [hname, hfind]; decide)
  have hresolver : reader.resolver = base.resolver :=
    (Request.runs_coherent hb (coherent_fresh base.index base.resolver false true)
      fun request hr => (hv request hr).valid).resolver_eq
  rw [← hresolver] at hunknown
  obtain ⟨hresult, hcandidates⟩ := resolve_native hb base.resolver.registry [] false true hv hstd
    hc hsource (by simp) hs entries hall hne hn hq
  obtain ⟨hmem, hplain⟩ := hcandidates ⟨"Note", "(x=5)", "5"⟩ (by simp) (by decide) hunknown
  have hfragments : ([⟨"Note", "(x=5)", "5"⟩] : List NativeAttribute).map (fun attr =>
      (⟨attr.name, if (reader.resolver.qualify scope attr.name).isSome then attr.arguments
        else attr.text, []⟩ : Fragment)) = [⟨"Note", "5", []⟩] := by simp [hunknown]
  rw [hname] at hresult hmem
  exact ⟨scope, entries, hall, hfragments ▸ hresult, hfragments ▸ hmem,
    hplain (by decide)⟩

/-- What a type gives for the native attributes of a declaration by their arguments. -/
def byArguments (reader : Reader) (key : DeclarationKey) (type : String) : Except Abort Value := do
  let cls ← declaring reader.index key
  let scope ← freshScope reader.index reader.resolver cls
  rebuilt reader.resolver scope key type
    ((annotationSource cls key).1.map fun attr => ⟨attr.name, attr.arguments, []⟩)

/-- What kind of instance a look-up gives. -/
def kindOf? : Except Abort Value → Option String
  | .ok (.object kind _) => some kind
  | _ => none

/-- The whole number in a field of what a look-up gives. -/
def intField? (name : String) (result : Except Abort Value) : Option Int :=
  match result.toOption.bind fun v => Entries.get? v.fields name with
  | some (.int n) => some n
  | _ => none

/-- An upgrade loses the arguments: a required one is missing, and another keeps its default. -/
theorem resolve_native_ne_byArguments :
    let key : DeclarationKey := { className := "App\\Host" }
    let named := attributedReader ⟨"Note", "(name='a')", "a"⟩ Factory.param
    let numbered := attributedReader ⟨"Note", "(x=5)", "5"⟩ Factory.inner
    (kindOf? (byArguments named key "Lib\\Note") = some "Param" ∧
        kindOf? (resolve key "Lib\\Note" named).1 = none) ∧
      intField? "x" (byArguments numbered key "Lib\\Note") = some 5 ∧
        intField? "x" (resolve key "Lib\\Note" numbered).1 = some 0 := by
  intro key named numbered
  refine ⟨⟨?_, ?_⟩, ?_, ?_⟩ <;> decide +kernel

end DocAnnotations.Reader
