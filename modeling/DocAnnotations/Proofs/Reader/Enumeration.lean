import DocAnnotations.Proofs.Reader.LookUp

/-! Look-ups by the names under which all annotations of a declaration are given. -/
namespace DocAnnotations.Reader

open QualifiedName AnnotationGroups

variable {α β : Type} {reader next : Reader} {key : DeclarationKey} {cls : SourceClass}
  {scope : NameScope} {groups : AnnotationGroups}

/-- The reader has found the names and the annotations of a declaration. -/
structure Holds (reader : Reader) (key : DeclarationKey) (cls : SourceClass) (scope : NameScope)
    (groups : AnnotationGroups) : Prop where
  declaring : declaring reader.index key = .ok cls
  table : reader.aliasTables.get? cls.qualifiedName = some scope.table
  known : scope.known = reader.isKnown
  cached : cached? reader.annotations cls.qualifiedName key.itemName = some groups

theorem scopeOf_holds (h : scopeOf cls reader = (.ok scope, next)) :
    next.index = reader.index ∧ next.aliasTables.get? cls.qualifiedName = some scope.table ∧
      scope.known = next.isKnown := by
  unfold scopeOf at h
  rw [get_bind_apply] at h
  cases ht : reader.aliasTables.get? cls.qualifiedName with
  | some table =>
    simp only [ht] at h
    cases h
    exact ⟨rfl, ht, rfl⟩
  | none =>
    simp only [ht] at h
    obtain ⟨table, middle, ht, h⟩ := exists_of_bind_ok h
    cases h
    cases hc : reader.computeTable cls with
    | error stop => rw [hc] at ht; cases ht
    | ok table' =>
      rw [hc] at ht
      cases ht
      exact ⟨rfl, by rw [Entries.get?_insert, if_pos rfl], rfl⟩

theorem fragmentsOf_keeps {fragments : List Fragment}
    (h : fragmentsOf cls key scope reader = (.ok fragments, next)) :
    next.index = reader.index ∧ next.aliasTables = reader.aliasTables ∧
      next.isKnown = reader.isKnown := by
  unfold fragmentsOf at h
  rw [get_bind_apply] at h
  cases hf : cached? reader.fragments cls.qualifiedName key.itemName with
  | some _ | none =>
    simp only [hf] at h
    cases h
    exact ⟨rfl, rfl, rfl⟩

theorem groupsOf_holds (h : groupsOf cls key scope reader = (.ok groups, next)) :
    next.index = reader.index ∧ next.aliasTables = reader.aliasTables ∧
      next.isKnown = reader.isKnown ∧
      cached? next.annotations cls.qualifiedName key.itemName = some groups := by
  unfold groupsOf at h
  rw [get_bind_apply] at h
  cases hg : cached? reader.annotations cls.qualifiedName key.itemName with
  | some groups' =>
    simp only [hg] at h
    cases h
    exact ⟨rfl, rfl, rfl, hg⟩
  | none =>
    simp only [hg] at h
    obtain ⟨fragments, middle, hf, h⟩ := exists_of_bind_ok h
    obtain ⟨hindex, htables, hknown⟩ := fragmentsOf_keeps hf
    rw [get_bind_apply] at h
    obtain ⟨groups', last, hg, h⟩ := exists_of_bind_ok h
    have hlast : (withLog (computeGroups middle.resolver scope key fragments) middle).2 = last :=
      congrArg Prod.snd hg
    subst hlast
    cases h
    exact ⟨hindex, htables, hknown, by rw [cached?_store, if_pos ⟨rfl, rfl⟩]⟩

/-- Finds the annotations of a declaration and goes on with them. -/
def onGroups (key : DeclarationKey)
    (k : SourceClass → NameScope → AnnotationGroups → ReaderM α) : ReaderM α := do
  let cls ← declaringClass key
  let scope ← scopeOf cls
  let groups ← groupsOf cls key scope
  k cls scope groups

/-- Once the annotations are found, the reader holds them. -/
theorem exists_holds {k : SourceClass → NameScope → AnnotationGroups → ReaderM α} {a : α}
    (h : onGroups key k reader = (.ok a, next)) :
    ∃ cls scope groups middle, Holds middle key cls scope groups ∧
      k cls scope groups middle = (.ok a, next) ∧
      ∀ {β : Type} (k' : SourceClass → NameScope → AnnotationGroups → ReaderM β),
        onGroups key k' reader = k' cls scope groups middle := by
  unfold onGroups at h
  obtain ⟨cls, first, hclass, hrest⟩ := exists_of_bind_ok h
  obtain ⟨scope, second, hscope, hrest⟩ := exists_of_bind_ok hrest
  obtain ⟨groups, middle, hgroups, hend⟩ := exists_of_bind_ok hrest
  rw [declaringClass_apply, Prod.mk.injEq] at hclass
  obtain ⟨hclass, rfl⟩ := hclass
  obtain ⟨hindex, htable, hknown⟩ := scopeOf_holds hscope
  obtain ⟨hindex', htables, hknown', hcached⟩ := groupsOf_holds hgroups
  have hholds : Holds middle key cls scope groups :=
    ⟨by rw [hindex', hindex, hclass], by rw [htables, htable], hknown.trans hknown'.symm, hcached⟩
  refine ⟨cls, scope, groups, middle, hholds, hend, fun k' => ?_⟩
  unfold onGroups
  rw [bind_of_ok ((declaringClass_apply key reader).trans (by rw [hclass])), bind_of_ok hscope,
    bind_of_ok hgroups]

namespace Holds

/-- What a reader holds is found without a change. -/
theorem onGroups_apply (h : Holds reader key cls scope groups)
    (k : SourceClass → NameScope → AnnotationGroups → ReaderM α) :
    onGroups key k reader = k cls scope groups reader := by
  have hscope : scopeOf cls reader = (.ok scope, reader) := by
    unfold scopeOf
    rw [get_bind_apply]
    simp only [h.table, ← h.known]
    rfl
  have hgroups : groupsOf cls key scope reader = (.ok groups, reader) := by
    unfold groupsOf
    rw [get_bind_apply]
    simp only [h.cached]
    rfl
  unfold onGroups
  rw [bind_of_ok ((declaringClass_apply key reader).trans (by rw [h.declaring])),
    bind_of_ok hscope, bind_of_ok hgroups]

theorem withLog (h : Holds reader key cls scope groups) (log : ReadLog) :
    Holds { reader with log } key cls scope groups :=
  ⟨h.declaring, h.table, h.known, h.cached⟩

end Holds

theorem get?_toEntries (groups : AnnotationGroups) (name : String) :
    groups.toEntries.get? name = groups.shown? name := by
  induction groups with
  | nil => rfl
  | cons group rest ih =>
    simp only [toEntries, Entries.mapContents, shown?] at ih ⊢
    simp only [List.map_cons, Entries.get?]
    split
    next => rfl
    next => exact ih

theorem guarded_of_ok {x : ReaderM α} {empty a : α}
    (h : x { reader with log.lastError := none } = (.ok a, next)) :
    guarded empty x reader = (.ok a, next) := by
  simp only [guarded, h]

/-- What a guarded reading gives was found, unless nothing was found. -/
theorem ok_of_guarded {x : ReaderM α} {empty a : α}
    (h : (guarded empty x reader).1 = .ok a) (ha : a ≠ empty) :
    x { reader with log.lastError := none } = (.ok a, (guarded empty x reader).2) := by
  unfold guarded at h ⊢
  split at h
  next e next hx =>
    dsimp only at h
    split at h
    · cases h
    · cases h
      exact absurd rfl ha
  next hx => exact Prod.ext h rfl

/-- The value that the enumeration of a declaration gives under a name is found by every spelling
of the name, before and after the enumeration. -/
theorem resolve_of_resolveAll {entries : Entries Value} {wanted : String} {v : Value}
    (h : (resolveAll key reader).1 = .ok entries)
    (hv : entries.get? (className wanted) = some v) :
    (resolve key wanted reader).1 = .ok v ∧
      (resolve key wanted (resolveAll key reader).2).1 = .ok v := by
  have hne : entries ≠ [] := by
    rintro rfl
    cases hv
  have hall : onGroups key (fun _ _ groups => pure groups.toEntries)
      { reader with log.lastError := none } = (.ok entries, (resolveAll key reader).2) :=
    ok_of_guarded h hne
  generalize (resolveAll key reader).2 = next at hall ⊢
  obtain ⟨cls, scope, groups, middle, hholds, hend, hrun⟩ := exists_holds hall
  obtain ⟨rfl, rfl⟩ : groups.toEntries = entries ∧ middle = next := by
    cases hend
    exact ⟨rfl, rfl⟩
  rw [get?_toEntries] at hv
  have hlookUp (reader : Reader) : lookUp cls key scope groups wanted reader = (.ok v, reader) := by
    rw [lookUp_of_shown? hv]
    rfl
  refine ⟨congrArg Prod.fst (guarded_of_ok ((hrun _).trans (hlookUp middle))), ?_⟩
  -- The second look-up starts without a last error.
  let cleared : Reader := { middle with log.lastError := none }
  have hcleared : Holds cleared key cls scope groups := hholds.withLog _
  exact congrArg Prod.fst (guarded_of_ok ((hcleared.onGroups_apply _).trans (hlookUp cleared)))

/-- A reader of a class whose annotations are of no type. One of their names has a backslash in
front. -/
def absoluteName : Reader where
  index := SourceIndex.addClass {}
    { name := "Host", qualifiedName := "Host", docComment := some "/** @\\Foo bar @Baz qux */" } ""

/-- A value that an enumeration gives under a name, if the value is kept as text. -/
def genericUnder? (name : String) (result : Except Abort (Entries Value)) : Option Value :=
  (result.toOption.bind (·.get? name)).filter Value.isGeneric

theorem exists_of_genericUnder? (name : String) (result : Except Abort (Entries Value))
    (h : (genericUnder? name result).isSome = true) :
    ∃ entries v, result = .ok entries ∧ entries.get? name = some v ∧ v.isGeneric = true := by
  obtain ⟨v, hv⟩ := Option.isSome_iff_exists.mp h
  cases result with
  | error stop => cases hv
  | ok entries =>
    obtain ⟨hget, hgeneric⟩ := Option.filter_eq_some_iff.mp hv
    exact ⟨entries, v, rfl, hget, hgeneric⟩

/-- Another name of the same class is found with white space and a backslash in front. -/
theorem resolve_of_resolveAll_spaced :
    let key : DeclarationKey := { className := "Host" }
    ∃ entries v, (resolveAll key absoluteName).1 = .ok entries ∧
      entries.get? (className " \\Baz") = some v ∧
        (resolve key " \\Baz" absoluteName).1 = .ok v ∧
          (resolve key " \\Baz" (resolveAll key absoluteName).2).1 = .ok v := by
  intro key
  obtain ⟨entries, v, hall, hv, -⟩ :=
    exists_of_genericUnder? (className " \\Baz") (resolveAll key absoluteName).1
      (by decide +kernel)
  exact ⟨entries, v, hall, hv, resolve_of_resolveAll hall hv⟩

/-- No look-up finds an annotation whose written name has a backslash in front, by that name. -/
theorem resolve_absolute_ne_resolveAll :
    let key : DeclarationKey := { className := "Host" }
    ∃ entries v, (resolveAll key absoluteName).1 = .ok entries ∧
      entries.get? "\\Foo" = some v ∧ (resolve key "\\Foo" absoluteName).1 ≠ .ok v := by
  intro key
  obtain ⟨entries, v, hall, hv, hgeneric⟩ :=
    exists_of_genericUnder? "\\Foo" (resolveAll key absoluteName).1 (by decide +kernel)
  refine ⟨entries, v, hall, hv, fun hfound => ?_⟩
  have hplain : (resolve key "\\Foo" absoluteName).1.toOption.map Value.isGeneric = some false := by
    decide +kernel
  rw [hfound] at hplain
  cases hgeneric.symm.trans (Option.some.inj hplain)

end DocAnnotations.Reader
