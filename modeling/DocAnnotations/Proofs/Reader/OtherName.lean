import DocAnnotations.Proofs.Reader.Native

/-! Look-ups by another name of a type, beside look-ups by the type, from any reader. -/
namespace DocAnnotations.Reader

open QualifiedName AnnotationGroups Resolver

variable {α : Type} {base reader : Reader} {key : DeclarationKey} {type : String}

/-- The reader has the settings of a new one. -/
def SettingsOf (base reader : Reader) : Prop :=
  reader.renewed = base

theorem SettingsOf.resolver_eq (h : SettingsOf base reader) : reader.resolver = base.resolver := by
  rw [← h]
  rfl

theorem SettingsOf.shield_eq (h : SettingsOf base reader) (empty : α) :
    shield reader empty = shield base empty := by
  rw [← h]
  rfl

theorem SettingsOf.withLog (reader : Reader) (log : ReadLog) (h : SettingsOf base reader) :
    SettingsOf base { reader with log } := h

theorem declaringClass_keeps (key : DeclarationKey) :
    Leads (SettingsOf base) (SettingsOf base) (declaringClass key) fun _ => True := fun reader h => by
  rw [declaringClass_apply]
  exact ⟨h, trivial⟩

theorem scopeOf_keeps (cls : SourceClass) :
    Leads (SettingsOf base) (SettingsOf base) (scopeOf cls) fun _ => True := by
  unfold scopeOf
  refine .get_bind fun reader _ => ?_
  split
  next => exact .pure trivial
  next =>
    exact (Leads.lift _).bind (fun table _ => .modify_bind (fun _ h => h) (.pure trivial))
      (fun _ h => h) fun _ _ => trivial

/-- The fragments that the reader has kept for a declaration, or else computes for it. -/
def keptFragments (reader : Reader) (scope : NameScope) (cls : SourceClass)
    (key : DeclarationKey) : List Fragment :=
  (cached? reader.fragments cls.qualifiedName key.itemName).getD
    (computeFragments reader.resolver scope cls key)

theorem fragmentsOf_gives (cls : SourceClass) (key : DeclarationKey) (scope : NameScope)
    (reader : Reader) : Leads (· = reader) (SettingsOf reader.renewed) (fragmentsOf cls key scope)
      (· = .ok (reader.keptFragments scope cls key)) := by
  unfold fragmentsOf keptFragments
  refine .get_bind fun start h => ?_
  obtain rfl := h
  cases cached? start.fragments cls.qualifiedName key.itemName with
  | some fragments =>
    exact Leads.mono (.pure rfl) fun _ h => congrArg renewed h
  | none =>
    exact .modify_bind (fun _ h => congrArg renewed h) (.pure rfl)

theorem groupsOf_keeps (cls : SourceClass) (key : DeclarationKey) (scope : NameScope) :
    Leads (SettingsOf base) (SettingsOf base) (groupsOf cls key scope) fun _ => True := by
  unfold groupsOf
  refine .get_bind fun reader _ => ?_
  split
  next => exact .pure trivial
  next =>
    have hfragments : Leads (SettingsOf base) (SettingsOf base) (fragmentsOf cls key scope)
        fun _ => True := fun reader h =>
      ⟨(fragmentsOf_gives cls key scope reader reader rfl).1.trans h, trivial⟩
    refine hfragments.bind (fun fragments _ => .get_bind fun reader _ => ?_) (fun _ h => h)
      fun _ _ => trivial
    exact (Leads.withLog SettingsOf.withLog (steady_computeGroups fragments)).bind
      (fun groups _ => .modify_bind (fun _ h => h) (.pure trivial)) (fun _ h => h)
      fun _ _ => trivial

/-- Either the annotations of a declaration are not found, whatever would be done with them, or it
is done with the ones that are found. -/
theorem onGroups_cases (key : DeclarationKey) (reader : Reader) :
    (∃ stop next, SettingsOf reader.renewed next ∧ ∀ {α : Type}
        (k : SourceClass → NameScope → AnnotationGroups → ReaderM α),
          onGroups key k reader = (.error stop, next)) ∨
      ∃ cls scope groups next, SettingsOf reader.renewed next ∧ ∀ {α : Type}
        (k : SourceClass → NameScope → AnnotationGroups → ReaderM α),
          onGroups key k reader = k cls scope groups next := by
  have hclass : SettingsOf reader.renewed (declaringClass key reader).2 :=
    (declaringClass_keeps key reader rfl).1
  cases hc : declaringClass key reader with
  | mk result first =>
    rw [hc] at hclass
    cases result with
    | error stop => exact .inl ⟨stop, first, hclass, fun k => bind_of_error hc⟩
    | ok cls =>
      have hscope := (scopeOf_keeps cls first hclass).1
      cases hs : scopeOf cls first with
      | mk result second =>
        rw [hs] at hscope
        cases result with
        | error stop =>
          exact .inl ⟨stop, second, hscope, fun k => (bind_of_ok hc).trans (bind_of_error hs)⟩
        | ok scope =>
          have hgroups := (groupsOf_keeps cls key scope second hscope).1
          cases hg : groupsOf cls key scope second with
          | mk result next =>
            rw [hg] at hgroups
            cases result with
            | error stop =>
              exact .inl ⟨stop, next, hgroups, fun k =>
                (bind_of_ok hc).trans ((bind_of_ok hs).trans (bind_of_error hg))⟩
            | ok groups =>
              exact .inr ⟨cls, scope, groups, next, hgroups, fun k =>
                (bind_of_ok hc).trans ((bind_of_ok hs).trans (bind_of_ok hg))⟩

/-- An upgrade works on the fragments that the reader keeps. -/
theorem upgrade_gives (cls : SourceClass) (key : DeclarationKey) (scope : NameScope)
    (groups : AnnotationGroups) (name : String) (reader : Reader) :
    Leads (· = reader) (SettingsOf reader.renewed) (upgrade cls key scope groups name)
      fun result => result = (upgraded reader.resolver scope key
        (reader.keptFragments scope cls key) groups name).map fun values =>
          (values.map shown).getD .null := by
  unfold upgrade
  refine .get_bind fun start h => ?_
  obtain rfl := h
  dsimp only
  split
  next hreg =>
    refine (Leads.pure ?_).mono fun _ h => congrArg renewed h
    rw [upgraded_of_contains_eq_false (by simpa using hreg)]
    rfl
  next hreg =>
    refine (fragmentsOf_gives cls key scope start).bind (fun fragments hf => ?_) (fun _ h => h)
      nofun
    cases hf
    change Leads _ _ (if (matching scope (start.keptFragments scope cls key) groups name).isEmpty
      then _ else _) _
    split
    next hm =>
      refine .pure ?_
      rw [upgraded_of_matching_eq_nil (List.isEmpty_iff.mp hm)]
      rfl
    next hm =>
      rw [upgraded_of_matching_ne_nil key (by simpa using hreg) (mt List.isEmpty_iff.mpr hm)]
      refine (Leads.withLog SettingsOf.withLog
        (start.resolver.steady_mapM_convert scope key name _)).bind (fun values hc => ?_)
          (fun _ h => h) fun stop hc => ?_
      · change .ok values =
          ((matching scope _ groups name).mapM (start.resolver.convert scope key name) {}).1 at hc
        rw [← hc]
        split
        next hv => exact .pure (by simp [Except.map, hv])
        next hv => exact .modify_bind (fun _ h => h) (.pure (by simp [Except.map, hv]))
      · change .error stop =
          ((matching scope _ groups name).mapM (start.resolver.convert scope key name) {}).1 at hc
        rw [← hc]
        rfl

/-- What a look-up goes on with: a class, the names that are valid there, the annotations of a
declaration, and its fragments. -/
structure Findings where
  cls : SourceClass
  scope : NameScope
  groups : AnnotationGroups
  fragments : List Fragment

/-- What the look-ups for a declaration go on with. -/
def findings (key : DeclarationKey) : ReaderM Findings :=
  onGroups key fun cls scope groups => do
    return ⟨cls, scope, groups, ← fragmentsOf cls key scope⟩

/-- What a look-up by a name finds among what it goes on with. -/
def Findings.search (found : Findings) (resolver : Resolver) (key : DeclarationKey)
    (name : String) : Except Abort Value :=
  foundAmong resolver found.scope key found.fragments found.groups name

theorem lookUp_gives (cls : SourceClass) (key : DeclarationKey) (scope : NameScope)
    (groups : AnnotationGroups) (wanted : String) (reader : Reader) :
    Leads (· = reader) (SettingsOf reader.renewed) (lookUp cls key scope groups wanted)
      (· = foundAmong reader.resolver scope key (reader.keptFragments scope cls key) groups
        (className wanted)) := by
  unfold foundAmong
  split
  next v hv =>
    rw [lookUp_of_shown? hv]
    exact (Leads.pure rfl).mono fun _ h => congrArg renewed h
  next hn =>
    split
    next v hv =>
      rw [lookUp_of_other hn hv]
      exact (Leads.pure rfl).mono fun _ h => congrArg renewed h
    next hq =>
      rw [lookUp_of_not_shown hn hq]
      exact upgrade_gives cls key scope groups (className wanted) reader

/-- A look-up from any reader is a search among what the reader goes on with. -/
theorem resolve_fst (key : DeclarationKey) (wanted : String) (reader : Reader) :
    (resolve key wanted reader).1 = shield reader .null
      ((findings key { reader with log.lastError := none }).1 >>= fun found =>
        found.search reader.resolver key (className wanted)) := by
  let start : Reader := { reader with log.lastError := none }
  change (guarded .null (onGroups key fun cls scope groups => lookUp cls key scope groups wanted)
    reader).1 = _
  rw [guarded_fst]
  unfold findings
  obtain ⟨stop, next, hnext, hrun⟩ | ⟨cls, scope, groups, next, hnext, hrun⟩ :=
    onGroups_cases key start
  · rw [hrun, hrun, hnext.shield_eq]
    rfl
  · obtain ⟨hlast, hlookUp⟩ := lookUp_gives cls key scope groups wanted next next rfl
    obtain ⟨-, hfragments⟩ := fragmentsOf_gives cls key scope next next rfl
    have hfindings : ((fragmentsOf cls key scope >>= fun fragments =>
        pure (⟨cls, scope, groups, fragments⟩ : Findings)) next).1 =
          .ok ⟨cls, scope, groups, next.keptFragments scope cls key⟩ := by
      rw [bind_of_ok (Prod.ext hfragments rfl)]
      rfl
    have hlast : SettingsOf reader.renewed _ := hlast.trans hnext
    rw [hrun, hrun, hlast.shield_eq, hlookUp, hfindings, hnext.resolver_eq]
    rfl

theorem resolve_of_findings {found : Findings} (wanted : String)
    (h : (findings key { reader with log.lastError := none }).1 = .ok found) :
    (resolve key wanted reader).1 =
      shield reader .null (found.search reader.resolver key (className wanted)) := by
  rw [resolve_fst, h]
  rfl

theorem resolve_of_findings_error {stop : Abort} (wanted : String)
    (h : (findings key { reader with log.lastError := none }).1 = .error stop) :
    (resolve key wanted reader).1 = shield reader .null (.error stop) := by
  rw [resolve_fst, h]
  rfl

namespace Findings

variable {found : Findings} {resolver : Resolver} {name : String}

/-- What is kept under a type is found by its other names. -/
theorem search_of_hasKey (hn : Entries.get? found.groups name = none)
    (htype : dropLeading (found.scope.find name) = type)
    (hkey : Entries.hasKey found.groups type = true) :
    found.search resolver key name = found.search resolver key type := by
  obtain ⟨values, hvalues⟩ : ∃ values, Entries.get? found.groups type = some values := by
    rw [← Option.isSome_iff_exists, Option.isSome_iff_ne_none, ne_eq,
      ← Entries.hasKey_eq_false_iff, hkey]
    decide
  rw [search, search, foundAmong_of_get? hvalues, foundAmong_of_alias hn (htype ▸ hvalues)]

/-- Where nothing is kept under the type, an upgrade is tried by the other name itself. -/
theorem search_of_not_hasKey (hn : Entries.get? found.groups name = none)
    (htype : dropLeading (found.scope.find name) = type)
    (hkey : Entries.hasKey found.groups type = false) :
    found.search resolver key name = rebuilt resolver found.scope key name
      (matching found.scope found.fragments found.groups name) := by
  rw [search, foundAmong_of_absent hn (htype ▸ Entries.hasKey_eq_false_iff.mp hkey),
    rebuilt_matching]

end Findings

/-- A name under which nothing is kept, and the type that it is another name of in the class: both
find what is kept under the type. If nothing is, the two searches differ in the name by which
annotations that are still text would be made instances. -/
theorem resolve_by_other_name (key : DeclarationKey) (wanted type : String) (reader : Reader) :
    (∀ stop, (findings key { reader with log.lastError := none }).1 = .error stop →
      (resolve key wanted reader).1 = (resolve key type reader).1) ∧
    ∀ found, (findings key { reader with log.lastError := none }).1 = .ok found →
      Entries.get? found.groups (className wanted) = none →
      dropLeading (found.scope.find (className wanted)) = className type →
        (resolve key type reader).1 =
          shield reader .null (found.search reader.resolver key (className type)) ∧
        (Entries.hasKey found.groups (className type) = true →
          (resolve key wanted reader).1 = (resolve key type reader).1) ∧
        (Entries.hasKey found.groups (className type) = false →
          (resolve key wanted reader).1 = shield reader .null
            (rebuilt reader.resolver found.scope key (className wanted)
              (matching found.scope found.fragments found.groups (className wanted)))) ∧
        (reader.resolver.registry.contains (className wanted) = false →
          ((resolve key wanted reader).1 = (resolve key type reader).1 ↔
            Entries.hasKey found.groups (className type) = true ∨
              (resolve key type reader).1 = .ok .null)) := by
  refine ⟨fun stop hstop => ?_, fun found hfound hn htype => ?_⟩
  · rw [resolve_of_findings_error wanted hstop, resolve_of_findings_error type hstop]
  rw [resolve_of_findings wanted hfound, resolve_of_findings type hfound]
  refine ⟨rfl, fun hkey => ?_, fun hkey => ?_, fun hreg => ?_⟩
  · rw [Findings.search_of_hasKey hn htype hkey]
  · rw [Findings.search_of_not_hasKey hn htype hkey]
  cases hkey : Entries.hasKey found.groups (className type) with
  | true => simp [Findings.search_of_hasKey hn htype hkey]
  | false =>
    have hnothing : found.search reader.resolver key (className wanted) = .ok .null := by
      simp [Findings.search_of_not_hasKey hn htype hkey, rebuilt, hreg]
    have hnull : shield reader .null (.ok Value.null) = .ok .null := rfl
    rw [hnothing, hnull]
    exact ⟨fun h => .inr h.symm, fun h => (h.resolve_left Bool.false_ne_true).symm⟩

/-- Nothing is kept under the other name that `aliasedNote` has for a type. -/
theorem exists_findings_aliasedNote : ∃ found,
    (findings { className := "App\\Host" } { aliasedNote with log.lastError := none }).1 =
      .ok found ∧ Entries.get? found.groups (className "N") = none ∧
        dropLeading (found.scope.find (className "N")) = className "Lib\\Note" := by
  obtain ⟨found, hfound, hnames⟩ := exists_of_toOption_map (b := (false, "Lib\\Note"))
    (f := fun found => (Entries.hasKey found.groups (className "N"),
      dropLeading (found.scope.find (className "N"))))
    (x := (findings { className := "App\\Host" } { aliasedNote with log.lastError := none }).1)
    (by decide +kernel)
  obtain ⟨hkey, hfind⟩ := Prod.mk.inj hnames
  have hname : className "Lib\\Note" = "Lib\\Note" := by decide
  exact ⟨found, hfound, Entries.hasKey_eq_false_iff.mp hkey, hfind.trans hname.symm⟩

/-- That name is no type by itself, so it finds the same only if the type finds nothing. -/
theorem resolve_by_other_name_unregistered :
    let key : DeclarationKey := { className := "App\\Host" }
    ∃ found, (findings key { aliasedNote with log.lastError := none }).1 = .ok found ∧
      Entries.get? found.groups (className "N") = none ∧
      dropLeading (found.scope.find (className "N")) = className "Lib\\Note" ∧
      aliasedNote.resolver.registry.contains (className "N") = false ∧
      ((resolve key "N" aliasedNote).1 = (resolve key "Lib\\Note" aliasedNote).1 ↔
        Entries.hasKey found.groups (className "Lib\\Note") = true ∨
          (resolve key "Lib\\Note" aliasedNote).1 = .ok .null) := by
  intro key
  obtain ⟨found, hfound, hn, htype⟩ := exists_findings_aliasedNote
  have hreg : aliasedNote.resolver.registry.contains (className "N") = false := by decide
  obtain ⟨-, -, -, hiff⟩ :=
    (resolve_by_other_name key "N" "Lib\\Note" aliasedNote).2 found hfound hn htype
  exact ⟨found, hfound, hn, htype, hreg, hiff hreg⟩

/-- The type finds an instance where its other name finds nothing. -/
theorem resolve_other_name_ne_type :
    let key : DeclarationKey := { className := "App\\Host" }
    ∃ found, (findings key { aliasedNote with log.lastError := none }).1 = .ok found ∧
      Entries.get? found.groups (className "N") = none ∧
      dropLeading (found.scope.find (className "N")) = className "Lib\\Note" ∧
      aliasedNote.resolver.registry.contains (className "Lib\\Note") = true ∧
      (resolve key "N" aliasedNote).1 ≠ (resolve key "Lib\\Note" aliasedNote).1 := by
  intro key
  obtain ⟨found, hfound, hn, htype⟩ := exists_findings_aliasedNote
  have hname : fieldNames (resolve key "N" aliasedNote).1 = some [] := by decide +kernel
  have htypeNames : fieldNames (resolve key "Lib\\Note" aliasedNote).1 = some ["name", "type"] := by
    decide +kernel
  exact ⟨found, hfound, hn, htype, by decide,
    ne_of_fieldNames hname htypeNames (by decide)⟩

end DocAnnotations.Reader
