import DocAnnotations.Factory.Catalogue
import DocAnnotations.Proofs.Reader.Native
import DocAnnotations.Proofs.Resolver.Failure

/-! All annotations of a declaration are the values of its fragments, grouped by their names. -/
namespace DocAnnotations

/-- The contents under a name, in the order in which they stand. -/
def under {α : Type} (name : String) (pairs : List (String × α)) : List α :=
  (pairs.filter (·.1 = name)).map (·.2)

theorem under_append {α : Type} (name : String) (pairs more : List (String × α)) :
    under name (pairs ++ more) = under name pairs ++ under name more := by
  simp [under]

theorem under_singleton {α : Type} (name : String) (p : String × α) :
    under name [p] = if p.1 = name then [p.2] else [] := by
  by_cases h : p.1 = name <;> simp [under, h]

/-- The names, each where it first comes, with the contents under them. -/
def grouped {α : Type} (pairs : List (String × α)) : Entries (List α) :=
  (pairs.map (·.1)).eraseDups.map fun name => (name, under name pairs)

namespace Entries

variable {α : Type} {names : List String} {name : String}

theorem get?_map (f : String → α) :
    Entries.get? (names.map fun n => (n, f n)) name = if name ∈ names then some (f name) else none := by
  induction names with
  | nil => rfl
  | cons first names ih =>
    rw [List.map_cons, get?]
    by_cases h : first = name
    · simp [h]
    · simp [h, ih, Ne.symm h]

theorem insert_map (f : String → α) (hnodup : names.Nodup) (hmem : name ∈ names) (content : α) :
    Entries.insert (names.map fun n => (n, f n)) name content =
      names.map fun n => (n, if n = name then content else f n) := by
  induction names with
  | nil => cases hmem
  | cons first names ih =>
    obtain ⟨hfirst, hnodup⟩ := List.nodup_cons.mp hnodup
    rw [List.map_cons, List.map_cons, insert]
    by_cases h : first = name
    · subst h
      have hrest : names.map (fun n => (n, if n = first then content else f n)) =
          names.map fun n => (n, f n) :=
        List.map_congr_left fun n hn => by rw [if_neg (by rintro rfl; exact hfirst hn)]
      simp [hrest]
    · obtain hmem | hmem := List.mem_cons.mp hmem
      · exact absurd hmem.symm h
      · simp [h, ih hnodup hmem]

end Entries

section EraseDups

variable {names : List String} {name : String}

theorem eraseDups_append_of_mem (h : name ∈ names) :
    (names ++ [name]).eraseDups = names.eraseDups := by
  rw [List.eraseDups_append]
  simp [List.removeAll, h]

theorem eraseDups_append_of_notMem (h : name ∉ names) :
    (names ++ [name]).eraseDups = names.eraseDups ++ [name] := by
  rw [List.eraseDups_append]
  simp [List.removeAll, h, List.eraseDups_cons]

theorem nodup_eraseDups (names : List String) : names.eraseDups.Nodup := by
  induction names using List.reverseRecOn with
  | nil => exact List.nodup_nil
  | append_singleton names name ih =>
    by_cases h : name ∈ names
    · rwa [eraseDups_append_of_mem h]
    · rw [eraseDups_append_of_notMem h, List.nodup_append]
      refine ⟨ih, List.nodup_singleton name, fun n hn m hm => ?_⟩
      obtain rfl := List.mem_singleton.mp hm
      rintro rfl
      exact h (List.mem_eraseDups.mp hn)

end EraseDups

/-- One more annotation goes to the end of the group of its name, or it begins a group. -/
theorem grouped_append (pairs : List (String × Value)) (p : String × Value) :
    grouped (pairs ++ [p]) = AnnotationGroups.add (grouped pairs) p.1 p.2 := by
  simp only [AnnotationGroups.add, grouped, Entries.get?_map, List.mem_eraseDups, List.map_append,
    List.map_cons, List.map_nil]
  by_cases h : p.1 ∈ pairs.map (·.1)
  · rw [eraseDups_append_of_mem h, if_pos h, Option.getD_some,
      Entries.insert_map _ (nodup_eraseDups _) (List.mem_eraseDups.mpr h)]
    refine List.map_congr_left fun n _ => ?_
    rw [under_append, under_singleton]
    by_cases hn : n = p.1
    · rw [if_pos hn, if_pos hn.symm, hn]
    · rw [if_neg hn, if_neg (Ne.symm hn), List.append_nil]
  · have hnone : Entries.get? ((pairs.map (·.1)).eraseDups.map fun n => (n, under n pairs)) p.1 =
        none := by
      rw [Entries.get?_map, if_neg (by rwa [List.mem_eraseDups])]
    have hnew : under p.1 pairs = [] := by
      simpa [under] using fun n v hv hn => h (List.mem_map.mpr ⟨(n, v), hv, hn⟩)
    rw [eraseDups_append_of_notMem h, if_neg h, Entries.insert_of_get?_eq_none hnone,
      List.map_append, List.map_singleton, under_append, under_singleton, if_pos rfl, hnew]
    refine congrArg (· ++ _) (List.map_congr_left fun n hn => ?_)
    have hne : p.1 ≠ n := by
      rintro rfl
      exact h (List.mem_eraseDups.mp hn)
    rw [under_append, under_singleton, if_neg hne, List.append_nil]

/-- Annotations that are added one after another are grouped. -/
theorem AnnotationGroups.foldl_add (pairs : List (String × Value)) :
    pairs.foldl (fun (groups : AnnotationGroups) p => groups.add p.1 p.2) [] = grouped pairs := by
  induction pairs using List.reverseRecOn with
  | nil => rfl
  | append_singleton pairs p ih => rw [List.foldl_append, ih, grouped_append]; rfl

namespace Reader

variable {reader : Reader} {key : DeclarationKey} {cls : SourceClass} {scope : NameScope}

/-- All annotations of a declaration, with the errors that settings may hide. -/
def enumeration (key : DeclarationKey) : ReaderM (Entries Value) := do
  let cls ← declaringClass key
  let scope ← scopeOf cls
  let groups ← groupsOf cls key scope
  return groups.toEntries

/-- The reader has found no names and no annotations yet. -/
structure Unread (reader : Reader) : Prop where
  log : reader.log = {}
  aliasTables : reader.aliasTables = []
  annotations : reader.annotations = []

/-- The fragments that the reader has found for a declaration, or those that it would find. -/
def fragmentsFor (reader : Reader) (cls : SourceClass) (scope : NameScope)
    (key : DeclarationKey) : List Fragment :=
  (cached? reader.fragments cls.qualifiedName key.itemName).getD
    (computeFragments reader.resolver scope cls key)

theorem scopeOf_unread (h : reader.aliasTables = []) (cls : SourceClass) :
    scopeOf cls reader =
      match freshScope reader.index reader.resolver cls with
      | .ok scope => (.ok scope, { reader with aliasTables := [(cls.qualifiedName, scope.table)] })
      | .error stop => (.error stop, reader) := by
  have htable : reader.computeTable cls =
      ({ index := reader.index, resolver := reader.resolver } : Reader).computeTable cls := rfl
  unfold scopeOf freshScope
  rw [get_bind_apply]
  simp only [h, Entries.get?, htable]
  cases ({ index := reader.index, resolver := reader.resolver } : Reader).computeTable cls with
  | error stop => rfl
  | ok table =>
    simp only [Except.map]
    have hlift : (liftM (Except.ok table : Except Abort AliasTable) : ReaderM AliasTable) reader =
        (.ok table, reader) := rfl
    refine (bind_of_ok hlift).trans ?_
    refine (bind_of_ok (modify_apply _ reader)).trans ?_
    simp only [h]
    rfl

theorem fragmentsOf_apply (cls : SourceClass) (key : DeclarationKey) (scope : NameScope)
    (reader : Reader) : ∃ cache, fragmentsOf cls key scope reader =
      (.ok (reader.fragmentsFor cls scope key), { reader with fragments := cache }) := by
  unfold fragmentsOf fragmentsFor
  simp only [get_bind_apply]
  cases cached? reader.fragments cls.qualifiedName key.itemName with
  | some fragments => exact ⟨reader.fragments, rfl⟩
  | none => exact ⟨_, rfl⟩

theorem groupsOf_unread (h : reader.annotations = []) :
    (groupsOf cls key scope reader).1 =
      (computeGroups reader.resolver scope key (reader.fragmentsFor cls scope key) {}).1 := by
  obtain ⟨cache, hfragments⟩ := fragmentsOf_apply cls key scope reader
  have hnone : cached? reader.annotations cls.qualifiedName key.itemName = none := by
    rw [h]
    rfl
  have hlog : (computeGroups reader.resolver scope key (reader.fragmentsFor cls scope key)
      reader.log).1 = (computeGroups reader.resolver scope key (reader.fragmentsFor cls scope key)
        {}).1 := steady_computeGroups _ reader.log
  unfold groupsOf
  simp only [get_bind_apply, hnone, bind_of_ok hfragments]
  rw [bind_apply, ← hlog]
  simp only [withLog]
  cases computeGroups reader.resolver scope key (reader.fragmentsFor cls scope key) reader.log with
  | mk result log => cases result <;> rfl

/-- A reader that has found no annotations resolves the fragments of the declaration. -/
theorem enumeration_unread (h : Unread reader) (key : DeclarationKey) :
    (enumeration key reader).1 = (do
      let cls ← declaring reader.index key
      let scope ← freshScope reader.index reader.resolver cls
      let groups ← (computeGroups reader.resolver scope key
        (reader.fragmentsFor cls scope key) {}).1
      return groups.toEntries) := by
  unfold enumeration
  rw [bind_apply, declaringClass_apply]
  cases declaring reader.index key with
  | error stop => rfl
  | ok cls =>
    simp only [bind_apply, scopeOf_unread h.aliasTables]
    cases hscope : freshScope reader.index reader.resolver cls with
    | error stop => simp [bind, Except.bind, hscope]
    | ok scope =>
      obtain ⟨named, hnamed⟩ : ∃ named : Reader,
          { reader with aliasTables := [(cls.qualifiedName, scope.table)] } = named := ⟨_, rfl⟩
      have hgroups : (groupsOf cls key scope named).1 = (computeGroups reader.resolver scope key
          (reader.fragmentsFor cls scope key) {}).1 := by
        subst hnamed
        exact groupsOf_unread h.annotations
      simp only [bind, Except.bind, hscope, ← hgroups, hnamed]
      cases groupsOf cls key scope named with
      | mk result next => cases result <;> rfl

theorem resolveAll_eq (key : DeclarationKey) : resolveAll key = guarded [] (enumeration key) := rfl

/-- The settings make no difference where no error is to be hidden. -/
theorem resolveAll_of_enumeration {entries : Entries Value} (h : Unread reader)
    (hentries : (enumeration key reader).1 = .ok entries) :
    (resolveAll key reader).1 = .ok entries := by
  have hreader : { reader with log.lastError := none } = reader := by
    obtain ⟨index, resolver, throwAll, throwPrivileged, log, tables, fragments, annotations⟩ := reader
    obtain rfl : log = {} := h.log
    rfl
  have hguarded : enumeration key { reader with log.lastError := none } =
      (.ok entries, (enumeration key reader).2) := by
    rw [hreader]
    exact Prod.ext hentries rfl
  rw [resolveAll_eq, guarded_of_ok hguarded]

/-- The values of fragments under the names by which they are found. -/
def named (resolver : Resolver) (scope : NameScope) (fragments : List Fragment)
    (values : List Value) : List (String × Value) :=
  (fragments.zip values).map fun p => (resultName resolver scope p.1 p.2, p.2)

variable {resolver : Resolver} {fragments : List Fragment}

theorem computeGroups_eq_ok_iff {groups : AnnotationGroups} :
    (computeGroups resolver scope key fragments {}).1 = .ok groups ↔
      ∃ values, List.Forall₂ (fun f v => (resolver.resolve scope key f {}).1 = .ok v)
          fragments values ∧ groups = grouped (named resolver scope fragments values) := by
  have hfold (values : List Value) : (fragments.zip values).foldl
      (fun (groups : AnnotationGroups) p => groups.add (resultName resolver scope p.1 p.2) p.2) [] =
        grouped (named resolver scope fragments values) := by
    rw [← AnnotationGroups.foldl_add, named, List.foldl_map]
  unfold computeGroups
  simp only [bind_apply, hfold]
  constructor
  · intro h
    cases hall : resolver.resolveAll scope key fragments {} with
    | mk result log =>
      rw [hall] at h
      cases result with
      | error stop => cases h
      | ok values =>
        cases h
        exact ⟨values, resolver.forall₂_of_resolveAll scope key (congrArg Prod.fst hall), rfl⟩
  · rintro ⟨values, hvalues, rfl⟩
    have hsteady : List.Forall₂ (resolver.HasValue scope key) fragments values :=
      hvalues.imp fun f v hv log => (resolver.steady_resolve scope key f log).trans hv
    obtain ⟨log, hall⟩ := Resolver.exists_resolveAll hsteady {}
    rw [hall]
    rfl

/-- A fragment comes to a value that is found under a name: the written name if it is kept as text,
and else the registered type that the written name stands for. -/
structure ComesTo (resolver : Resolver) (scope : NameScope) (key : DeclarationKey) (f : Fragment)
    (item : String × Value) : Prop where
  value : (resolver.resolve scope key f {}).1 = .ok item.2
  kept : item.2.isGeneric = true → item.1 = f.name
  made : item.2.isGeneric = false →
    resolver.qualify scope f.name = some item.1 ∧ (resolver.registry.get? item.1).isSome

theorem comesTo_resultName {f : Fragment} {v : Value}
    (h : (resolver.resolve scope key f {}).1 = .ok v) :
    ComesTo resolver scope key f (resultName resolver scope f v, v) := by
  refine ⟨h, fun hgeneric => by simp [resultName, hgeneric], fun hmade => ?_⟩
  obtain ⟨name, raw, children⟩ := f
  dsimp only at hmade ⊢
  cases ht : resolver.typeOf? scope name with
  | none =>
    rw [Resolver.resolve_of_none ht] at h
    cases h
    cases hmade
  | some schema =>
    obtain ⟨type, htype, hschema⟩ := Option.bind_eq_some_iff.mp ht
    simp [resultName, hmade, htype, hschema]

theorem forall₂_named {R : Fragment → String × Value → Prop} {values : List Value}
    (h : List.Forall₂ (fun f v => R f (resultName resolver scope f v, v)) fragments values) :
    List.Forall₂ R fragments (named resolver scope fragments values) := by
  induction h with
  | nil => exact .nil
  | cons hf _ ih => exact .cons hf ih

/-- A fragment that is the only one of a declaration. -/
theorem resolveAll_alone {index : SourceIndex} {throwAll throwPrivileged : Bool} {f : Fragment}
    {v : Value} (hcls : declaring index key = .ok cls)
    (hscope : freshScope index resolver cls = .ok scope)
    (hv : (resolver.resolve scope key f {}).1 = .ok v) :
    (resolveAll key
      { index, resolver, throwAll, throwPrivileged
        fragments := store [] cls.qualifiedName key.itemName [f] }).1 =
      .ok [(resultName resolver scope f v, v)] := by
  refine resolveAll_of_enumeration ⟨rfl, rfl, rfl⟩ ?_
  have hgroups := computeGroups_eq_ok_iff.mpr ⟨[v], .cons hv .nil, rfl⟩
  rw [enumeration_unread ⟨rfl, rfl, rfl⟩]
  simp only [hcls, hscope, fragmentsFor, cached?_store, and_self, if_true, Option.getD_some,
    hgroups, bind, Except.bind, pure, Except.pure]
  simp [named, grouped, under, AnnotationGroups.toEntries, Entries.mapContents,
    AnnotationGroups.shown, List.eraseDups_cons]

/-- The annotations of a declaration that the reader finds without a failure, by name: the names in
the order in which they first come, and under each the value of its only fragment, or the list of
the values of several. Every value is the one that the fragment has alone. -/
theorem resolveAll_grouped {index : SourceIndex} {throwAll throwPrivileged : Bool}
    {entries : Entries Value}
    (h : (enumeration key { index, resolver, throwAll, throwPrivileged }).1 = .ok entries) :
    (resolveAll key { index, resolver, throwAll, throwPrivileged }).1 = .ok entries ∧
    ∃ cls scope items, declaring index key = .ok cls ∧
      freshScope index resolver cls = .ok scope ∧
      List.Forall₂ (fun f item => ComesTo resolver scope key f item ∧
          (resolveAll key
            { index, resolver, throwAll, throwPrivileged
              fragments := store [] cls.qualifiedName key.itemName [f] }).1 = .ok [item])
        (computeFragments resolver scope cls key) items ∧
      entries = (items.map (·.1)).eraseDups.map fun name =>
        (name, match under name items with
          | [v] => v
          | several => .list several) := by
  refine ⟨resolveAll_of_enumeration ⟨rfl, rfl, rfl⟩ h, ?_⟩
  rw [enumeration_unread ⟨rfl, rfl, rfl⟩] at h
  obtain ⟨cls, hcls, h⟩ := exists_of_bind_eq_ok h
  obtain ⟨scope, hscope, h⟩ := exists_of_bind_eq_ok h
  obtain ⟨groups, hgroups, h⟩ := exists_of_bind_eq_ok h
  obtain ⟨values, hvalues, rfl⟩ := computeGroups_eq_ok_iff.mp hgroups
  cases h
  refine ⟨cls, scope, named resolver scope _ values, hcls, hscope,
    forall₂_named (hvalues.imp fun f v hv =>
      ⟨comesTo_resultName hv, resolveAll_alone hcls hscope hv⟩), ?_⟩
  rw [AnnotationGroups.toEntries, Entries.mapContents, grouped, List.map_map]
  exact List.map_congr_left fun name _ => rfl

/-- A class with annotations whose values are lists themselves, and one of another name. -/
def lists : Reader where
  index := SourceIndex.addClass {}
    { name := "Host", qualifiedName := "Host"
      docComment := some "/** @listing({1, 2}) @Foo bar @listing(3) */" } ""
  resolver :=
    { registry := ⟨[("listing", ⟨"listing", Factory.listing, ["items"], ["items", "limit"], [],
        some "items", false⟩)]⟩ }

/-- How many items each list in a list has. -/
def itemCounts : Value → List Nat
  | .list items => items.map fun
    | .list inner => inner.length
    | _ => 0
  | _ => []

theorem resolveAll_grouped_lists :
    ∃ entries, (resolveAll { className := "Host" } lists).1 = .ok entries ∧
      entries.map (fun e => (e.1, itemCounts e.2)) = [("listing", [2, 1]), ("Foo", [])] := by
  obtain ⟨entries, hentries, hcounts⟩ := exists_of_toOption_map
    (x := (enumeration { className := "Host" } lists).1)
    (f := fun entries => entries.map fun e => (e.1, itemCounts e.2))
    (b := [("listing", [2, 1]), ("Foo", [])]) (by decide +kernel)
  exact ⟨entries, (resolveAll_grouped hentries).1, hcounts⟩

end Reader

end DocAnnotations
