import DocAnnotations.Proofs.Reader.Grouping

/-! The list of all annotations of a declaration: the annotations in the order of their names, except
that a list that is alone under its name is replaced by its items. -/
namespace DocAnnotations

/-- The contents in the order of the names: each name where it first comes, with all contents under
it. -/
def inOrder {α : Type} (pairs : List (String × α)) : List α :=
  (pairs.map (·.1)).eraseDups.flatMap fun name => under name pairs

theorem flatMap_under_perm {α : Type} {names : List String} (hnodup : names.Nodup)
    {pairs : List (String × α)} (hall : ∀ p ∈ pairs, p.1 ∈ names) :
    (names.flatMap fun name => under name pairs).Perm (pairs.map (·.2)) := by
  induction names generalizing pairs with
  | nil =>
    obtain rfl : pairs = [] := List.eq_nil_iff_forall_not_mem.mpr fun p hp => by cases hall p hp
    exact .nil
  | cons first names ih =>
    obtain ⟨hfirst, hnodup⟩ := List.nodup_cons.mp hnodup
    -- Under the other names stand the pairs that are not under the first.
    have hothers : (names.flatMap fun name => under name pairs) =
        names.flatMap fun name => under name (pairs.filter fun p => !decide (p.1 = first)) := by
      refine List.flatMap_congr fun name hname => ?_
      have hne : name ≠ first := by
        rintro rfl
        exact hfirst hname
      have hsame : ∀ p ∈ pairs, (decide (p.1 = name)) =
          (decide (p.1 = name) && !decide (p.1 = first)) := fun p _ => by
        by_cases h : p.1 = name <;> simp [h, hne]
      rw [under, under, List.filter_filter, List.filter_congr hsame]
    have hrest : ∀ p ∈ pairs.filter (fun p => !decide (p.1 = first)), p.1 ∈ names := fun p hp => by
      obtain ⟨hp, hne⟩ := List.mem_filter.mp hp
      exact (List.mem_cons.mp (hall p hp)).resolve_left (by simpa using hne)
    rw [List.flatMap_cons, hothers]
    refine ((ih hnodup hrest).append_left _).trans ?_
    rw [under, ← List.map_append]
    exact (List.filter_append_perm (fun p : String × α => decide (p.1 = first)) pairs).map _

/-- Nothing is lost, and nothing is there twice. -/
theorem inOrder_perm {α : Type} (pairs : List (String × α)) :
    (inOrder pairs).Perm (pairs.map (·.2)) :=
  flatMap_under_perm (nodup_eraseDups _) fun _ hp =>
    List.mem_eraseDups.mpr (List.mem_map_of_mem hp)

namespace AnnotationGroups

/-- What the values under a name give: all of them, except that the items of a list take its place if
it is alone. -/
def spliced : List Value → List Value
  | [.list inner] => inner
  | values => values

theorem flatten_toEntries (groups : AnnotationGroups) :
    flatten groups.toEntries = groups.flatMap fun group => spliced group.2 := by
  rw [flatten, toEntries, Entries.mapContents, List.flatMap_map]
  refine List.flatMap_congr fun group _ => ?_
  rcases group with ⟨name, _ | ⟨v, _ | ⟨w, values⟩⟩⟩
  · rfl
  · cases v <;> rfl
  · cases v <;> rfl

theorem spliced_of_ne {values : List Value} (h : ∀ inner, values ≠ [.list inner]) :
    spliced values = values := by
  unfold spliced
  split
  next inner => exact absurd rfl (h inner)
  next => rfl

section Size

variable {names : List String} {name : String} {f : String → List Value}

theorem sizeOf_append (values more : List Value) :
    sizeOf (values ++ more) + 1 = sizeOf values + sizeOf more := by
  induction values with
  | nil => simp [Nat.add_comm]
  | cons v values ih =>
    rw [List.cons_append, List.cons.sizeOf_spec, List.cons.sizeOf_spec]
    omega

/-- A list that is alone is more than its items. -/
theorem sizeOf_spliced_lt (inner : List Value) :
    sizeOf (spliced [.list inner]) < sizeOf [Value.list inner] := by
  rw [spliced, List.cons.sizeOf_spec, Value.list.sizeOf_spec]
  omega

theorem sizeOf_spliced_le (values : List Value) : sizeOf (spliced values) ≤ sizeOf values := by
  by_cases h : ∃ inner, values = [.list inner]
  · obtain ⟨inner, rfl⟩ := h
    exact (sizeOf_spliced_lt inner).le
  · rw [spliced_of_ne fun inner heq => h ⟨inner, heq⟩]

theorem sizeOf_flatMap_le (names : List String) (f : String → List Value) :
    sizeOf (names.flatMap fun name => spliced (f name)) ≤ sizeOf (names.flatMap f) := by
  induction names with
  | nil => exact Nat.le_refl _
  | cons first names ih =>
    rw [List.flatMap_cons, List.flatMap_cons]
    have := sizeOf_append (spliced (f first)) (names.flatMap fun name => spliced (f name))
    have := sizeOf_append (f first) (names.flatMap f)
    have := sizeOf_spliced_le (f first)
    omega

theorem sizeOf_flatMap_lt (hname : name ∈ names)
    (hlt : sizeOf (spliced (f name)) < sizeOf (f name)) :
    sizeOf (names.flatMap fun name => spliced (f name)) < sizeOf (names.flatMap f) := by
  induction names with
  | nil => cases hname
  | cons first names ih =>
    rw [List.flatMap_cons, List.flatMap_cons]
    have := sizeOf_append (spliced (f first)) (names.flatMap fun name => spliced (f name))
    have := sizeOf_append (f first) (names.flatMap f)
    rcases List.mem_cons.mp hname with rfl | hname
    · have := sizeOf_flatMap_le names f
      omega
    · have := sizeOf_spliced_le (f first)
      have := ih hname
      omega

end Size

/-- The list holds the values themselves exactly if no list is alone under its name. -/
theorem flatMap_spliced_eq_iff {names : List String} {f : String → List Value} :
    (names.flatMap fun name => spliced (f name)) = names.flatMap f ↔
      ∀ name ∈ names, ∀ inner, f name ≠ [.list inner] := by
  constructor
  · intro heq name hname inner halone
    have hlt : sizeOf (spliced (f name)) < sizeOf (f name) := by
      rw [halone]
      exact sizeOf_spliced_lt inner
    exact Nat.ne_of_lt (sizeOf_flatMap_lt hname hlt) (congrArg sizeOf heq)
  · intro hnone
    exact List.flatMap_congr fun name hname => spliced_of_ne (hnone name hname)

end AnnotationGroups

namespace Reader

variable {index : SourceIndex} {resolver : Resolver} {reader : Reader} {key : DeclarationKey}
  {cls : SourceClass} {scope : NameScope} {entries : Entries Value}

/-- The reader has these settings, and it has found no fragments and no annotations yet. -/
structure Unfound (index : SourceIndex) (resolver : Resolver) (reader : Reader) : Prop
    extends Scoped index resolver reader where
  fragments : reader.fragments = []
  annotations : reader.annotations = []

namespace Unfound

theorem names (index : SourceIndex) (resolver : Resolver) :
    NamesStable index resolver (Unfound index resolver) where
  isScoped _ h := h.toScoped
  withLog _ _ h := ⟨⟨h.index_eq, h.resolver_eq, h.aliasTables⟩, h.fragments, h.annotations⟩
  insertTable _ _ _ h hc hs := ⟨h.toScoped.insertTable hc hs, h.fragments, h.annotations⟩

theorem fresh (index : SourceIndex) (resolver : Resolver) (throwAll throwPrivileged : Bool) :
    Unfound index resolver { index, resolver, throwAll, throwPrivileged } :=
  ⟨(coherent_fresh index resolver throwAll throwPrivileged).toScoped, rfl, rfl⟩

end Unfound

theorem groupsOf_unfound (cls : SourceClass) (key : DeclarationKey) (scope : NameScope) :
    Leads (Unfound index resolver) (fun _ => True) (groupsOf cls key scope)
      (· = (computeGroups resolver scope key (computeFragments resolver scope cls key) {}).1) := by
  intro reader h
  have hfound : reader.fragmentsFor cls scope key = computeFragments resolver scope cls key := by
    rw [fragmentsFor, h.fragments, h.resolver_eq]
    rfl
  refine ⟨trivial, ?_⟩
  rw [groupsOf_unread h.annotations, hfound, h.resolver_eq]

/-- All annotations of a declaration by name, computed afresh. -/
def enumerated (index : SourceIndex) (resolver : Resolver) (key : DeclarationKey) :
    Except Abort (Entries Value) := do
  let cls ← declaring index key
  let scope ← freshScope index resolver cls
  let groups ← (computeGroups resolver scope key (computeFragments resolver scope cls key) {}).1
  return groups.toEntries

/-- A reader that has found nothing but names gives the annotations as they are computed afresh. -/
theorem enumeration_unfound (hb : index.Built) (key : DeclarationKey) :
    Leads (Unfound index resolver) (fun _ => True) (enumeration key)
      (· = enumerated index resolver key) := by
  refine declaring_leads (Unfound.names index resolver) hb (fun _ _ => trivial)
    (fun cls scope hcls hscope => ?_) fun stop hstop => ?_
  · refine (groupsOf_unfound cls key scope).bind (fun groups hgroups => ?_) (fun _ h => h)
      fun stop hstop => ?_
    · refine .pure ?_
      simp only [enumerated, hcls, hscope, ← hgroups, bind, Except.bind, pure, Except.pure]
    · simp only [enumerated, hcls, hscope, ← hstop, bind, Except.bind]
  · cases hcls : declaring index key with
    | error stop' => simp_all [enumerated, bind, Except.bind]
    | ok cls => simp_all [enumerated, bind, Except.bind]

theorem resolveAll_unfound (hb : index.Built) (h : Unfound index resolver reader)
    (hentries : enumerated index resolver key = .ok entries) :
    (resolveAll key reader).1 = .ok entries := by
  have hcleared : Unfound index resolver { reader with log.lastError := none } :=
    (Unfound.names index resolver).withLog reader _ h
  have hread := (enumeration_unfound hb key _ hcleared).2.trans hentries
  exact congrArg Prod.fst (guarded_of_ok (Prod.ext hread rfl))

/-- What all annotations can be listed of: a class, or a member that a parent may declare. -/
inductive Target where
  | ofClass (host : String)
  | ofProperty (host name : String)
  | ofMethod (host name : String)

namespace Target

def annotations : Target → ReaderM (List Value)
  | ofClass host => classAnnotations host
  | ofProperty host name => propertyAnnotations host name
  | ofMethod host name => methodAnnotations host name

/-- The key of the declaration. -/
def key? : Target → ReaderM (Option DeclarationKey)
  | ofClass host => return some { className := className host }
  | ofProperty host name => memberKey host .onProperty (propertyName name)
  | ofMethod host name => memberKey host .onMethod name

theorem annotations_eq (target : Target) : target.annotations = do
    match ← target.key? with
    | some key => return AnnotationGroups.flatten (← resolveAll key)
    | none => return [] := by
  cases target <;> rfl

/-- To find the key, nothing but names is found. -/
theorem key?_leads (hb : index.Built) (target : Target) :
    Leads (Unfound index resolver) (Unfound index resolver) target.key? fun _ => True := by
  have hnames := Unfound.names index resolver
  cases target with
  | ofClass host => exact .pure trivial
  | ofProperty host name =>
    exact (memberKey_leads hnames hb host .onProperty _).imp fun _ _ => trivial
  | ofMethod host name => exact (memberKey_leads hnames hb host .onMethod name).imp fun _ _ => trivial

theorem annotations_unfound (hb : index.Built) {target : Target}
    (h : Unfound index resolver reader) (hkey : (target.key? reader).1 = .ok (some key))
    (hentries : enumerated index resolver key = .ok entries) :
    (target.annotations reader).1 = .ok (AnnotationGroups.flatten entries) := by
  obtain ⟨hnext, -⟩ := key?_leads hb target reader h
  have hrun : target.key? reader = (.ok (some key), (target.key? reader).2) := Prod.ext hkey rfl
  have hall := resolveAll_unfound hb hnext hentries
  have hresult : resolveAll key (target.key? reader).2 =
      (.ok entries, (resolveAll key (target.key? reader).2).2) := Prod.ext hall rfl
  rw [annotations_eq, bind_of_ok hrun]
  exact congrArg Prod.fst (bind_of_ok hresult)

end Target

/-- Where the enumeration of a declaration does not fail, the list of all its annotations has the
values of the fragments in the order of the names, except that a list that is alone under its name is
replaced by its items. So it holds each value once exactly if no list is alone. -/
theorem annotations_of_enumeration (hb : index.Built) {throwAll throwPrivileged : Bool}
    {target : Target}
    (hkey : (target.key? { index, resolver, throwAll, throwPrivileged }).1 = .ok (some key))
    (h : (enumeration key { index, resolver, throwAll, throwPrivileged }).1 = .ok entries) :
    ∃ cls scope items, declaring index key = .ok cls ∧ freshScope index resolver cls = .ok scope ∧
      List.Forall₂ (ComesTo resolver scope key) (computeFragments resolver scope cls key) items ∧
      (inOrder items).Perm (items.map (·.2)) ∧
      (target.annotations { index, resolver, throwAll, throwPrivileged }).1 =
        .ok ((items.map (·.1)).eraseDups.flatMap fun name =>
          AnnotationGroups.spliced (under name items)) ∧
      ((target.annotations { index, resolver, throwAll, throwPrivileged }).1 =
          .ok (inOrder items) ↔
        ∀ name ∈ items.map (·.1), ∀ inner, under name items ≠ [.list inner]) := by
  have hfresh := Unfound.fresh index resolver throwAll throwPrivileged
  have hentries := (enumeration_unfound hb key _ hfresh).2.symm.trans h
  have hall := Target.annotations_unfound hb hfresh hkey hentries
  obtain ⟨cls, hcls, hrest⟩ := exists_of_bind_eq_ok hentries
  obtain ⟨scope, hscope, hrest⟩ := exists_of_bind_eq_ok hrest
  obtain ⟨groups, hgroups, hend⟩ := exists_of_bind_eq_ok hrest
  obtain ⟨values, hvalues, rfl⟩ := computeGroups_eq_ok_iff.mp hgroups
  cases hend
  rw [AnnotationGroups.flatten_toEntries, grouped, List.flatMap_map] at hall
  refine ⟨cls, scope, named resolver scope _ values, hcls, hscope,
    forall₂_named (hvalues.imp fun f v hv => comesTo_resultName hv), inOrder_perm _, hall, ?_⟩
  rw [hall, Except.ok.injEq, inOrder, AnnotationGroups.flatMap_spliced_eq_iff]
  simp only [List.mem_eraseDups]

/-- A class with an annotation whose value is a list. Its property, which another class inherits, has
two such annotations, and one of another name. -/
def inherited : Reader where
  index := (SourceIndex.addClass {}
    { name := "Base", qualifiedName := "Base", docComment := some "/** @listing({1, 2}) */"
      properties := [("p",
        { kind := .property, name := "p"
          docComment := some "/** @listing({1, 2}) @Foo bar @listing(3) */" })] } "").addClass
    { name := "Host", qualifiedName := "Host", parent := some "Base" } ""
  resolver := lists.resolver

theorem annotations_of_enumeration_inherited :
    ∃ (annotations : List Value) (items : List (String × Value)),
      ((Target.ofProperty "Host" "$p").annotations inherited).1 = .ok annotations ∧
      annotations.length = 3 ∧
      annotations = (items.map (·.1)).eraseDups.flatMap fun name =>
        AnnotationGroups.spliced (under name items) := by
  have hb : inherited.index.Built := .addClass _ _ (.addClass _ _ .empty)
  obtain ⟨_, hkey, rfl⟩ := exists_of_toOption_map
    (x := ((Target.ofProperty "Host" "$p").key? inherited).1) (f := id)
    (b := some ⟨"Base", .onProperty, some "p"⟩) (by decide +kernel)
  obtain ⟨entries, hentries, -⟩ := exists_of_toOption_map
    (x := (enumeration ⟨"Base", .onProperty, some "p"⟩ inherited).1) (f := List.length) (b := 2)
    (by decide +kernel)
  obtain ⟨annotations, hall, hlength⟩ := exists_of_toOption_map
    (x := ((Target.ofProperty "Host" "$p").annotations inherited).1) (f := List.length) (b := 3)
    (by decide +kernel)
  obtain ⟨-, -, items, -, -, -, -, hspliced, -⟩ := annotations_of_enumeration hb hkey hentries
  exact ⟨annotations, items, hall, hlength, Except.ok.inj (hall.symm.trans hspliced)⟩

/-- One annotation, whose value is a list of two, is listed as two. -/
theorem annotations_lone_list :
    ∃ (cls : SourceClass) (scope : NameScope) (annotations : List Value),
      declaring inherited.index { className := "Base" } = .ok cls ∧
      freshScope inherited.index inherited.resolver cls = .ok scope ∧
      (computeFragments inherited.resolver scope cls { className := "Base" }).length = 1 ∧
      ((Target.ofClass "Base").annotations inherited).1 = .ok annotations ∧
      annotations.length = 2 := by
  obtain ⟨count, hcount, hone⟩ := exists_of_toOption_map
    (x := do
      let cls ← declaring inherited.index { className := "Base" }
      let scope ← freshScope inherited.index inherited.resolver cls
      return (computeFragments inherited.resolver scope cls { className := "Base" }).length)
    (f := id) (b := 1) (by decide +kernel)
  obtain ⟨cls, hcls, hrest⟩ := exists_of_bind_eq_ok hcount
  obtain ⟨scope, hscope, hend⟩ := exists_of_bind_eq_ok hrest
  obtain ⟨annotations, hall, hlength⟩ := exists_of_toOption_map
    (x := ((Target.ofClass "Base").annotations inherited).1) (f := List.length) (b := 2)
    (by decide +kernel)
  exact ⟨cls, scope, annotations, hcls, hscope, (Except.ok.inj hend).trans hone, hall, hlength⟩

end Reader

end DocAnnotations
