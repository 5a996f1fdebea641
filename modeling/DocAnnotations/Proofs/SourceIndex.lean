import DocAnnotations.SourceIndex
import Mathlib.Data.List.DropRight

/-! Every class of an index stands under its own name. -/
namespace DocAnnotations

namespace QualifiedName

theorem dropLeading_dropLeading (name : String) :
    dropLeading (dropLeading name) = dropLeading name := by
  simp only [dropLeading, String.toList_ofList, List.dropWhile_idempotent]

end QualifiedName

namespace SourceIndex

open QualifiedName

/-- The indexes that adding classes makes, for any parser. -/
inductive Built : SourceIndex → Prop where
  | empty {parse : String → List Source.StatementSyntax} : Built { parse }
  | addClass {index : SourceIndex} (cls : SourceClass) (source : String) : Built index →
      Built (index.addClass cls source)

variable {index : SourceIndex}

theorem Built.addClasses (h : Built index) (classes : List SourceClass) (source : String) :
    Built (index.addClasses classes source) := by
  induction classes generalizing index with
  | nil => exact h
  | cons cls rest ih => exact ih (h.addClass cls source)

theorem Built.addSource (h : Built index) (source : String) (file : Option String) :
    Built (index.addSource source file).2 :=
  h.addClasses _ source

theorem Built.addFiles (h : Built index) {tree : Files.Tree} {pattern : String} {count : Nat}
    {next : SourceIndex} (hf : index.addFiles tree pattern = .ok (count, next)) : Built next := by
  unfold SourceIndex.addFiles at hf
  cases hg : Files.Glob.files tree pattern with
  | error fault => rw [hg] at hf; cases hf
  | ok files =>
    rw [hg] at hf
    simp only [bind, Except.bind, pure, Except.pure, Except.ok.injEq] at hf
    clear hg
    generalize 0 = start at hf
    induction files generalizing index start with
    | nil => cases hf; exact h
    | cons file rest ih => exact ih (h.addClasses _ _) _ hf

theorem Built.qualifiedName_of_get? (h : Built index) {name : String} {cls : SourceClass}
    (hc : index.classes.get? name = some cls) : cls.qualifiedName = name := by
  induction h with
  | empty => cases hc
  | addClass other source _ ih =>
    rw [SourceIndex.addClass, Entries.get?_insert] at hc
    split at hc
    next hn => cases hc; exact hn
    next => exact ih hc

/-- A class is found by the name that it is stored under. -/
theorem Built.qualifiedName_of_class? (h : Built index) {name : String} {cls : SourceClass}
    (hc : index.class? name = some cls) : cls.qualifiedName = dropLeading name :=
  h.qualifiedName_of_get? hc

theorem Built.class?_qualifiedName (h : Built index) {name : String} {cls : SourceClass}
    (hc : index.class? name = some cls) : index.class? cls.qualifiedName = some cls := by
  rw [h.qualifiedName_of_class? hc, class?, dropLeading_dropLeading]
  exact hc

theorem Built.dropLeading_qualifiedName (h : Built index) {name : String} {cls : SourceClass}
    (hc : index.class? name = some cls) : dropLeading cls.qualifiedName = cls.qualifiedName := by
  rw [h.qualifiedName_of_class? hc, dropLeading_dropLeading]

section AddClasses

variable {classes : List SourceClass} {source name : String} {cls : SourceClass}

theorem get?_sources_addClasses :
    (index.addClasses classes source).sources.get? name =
      if name ∈ classes.map (·.qualifiedName) then some source else index.sources.get? name := by
  induction classes generalizing index with
  | nil => rfl
  | cons first rest ih =>
    have hrest : (index.addClasses (first :: rest) source).sources.get? name = _ :=
      @ih (index.addClass first source)
    have hfirst : (index.addClass first source).sources.get? name = _ := Entries.get?_insert ..
    rw [hrest, hfirst, List.map_cons]
    by_cases hmem : name ∈ rest.map (·.qualifiedName)
    · simp [hmem]
    · by_cases hname : name = first.qualifiedName
      · simp [hname]
      · simp [hmem, hname, Ne.symm hname]

theorem get?_classes_addClasses_of_notMem (h : name ∉ classes.map (·.qualifiedName)) :
    (index.addClasses classes source).classes.get? name = index.classes.get? name := by
  induction classes generalizing index with
  | nil => rfl
  | cons first rest ih =>
    obtain ⟨hfirst, hrest⟩ := not_or.mp (List.mem_cons.not.mp h)
    refine (@ih (index.addClass first source) hrest).trans ?_
    rw [addClass, Entries.get?_insert, if_neg (Ne.symm hfirst)]

theorem get?_classes_addClasses (hnodup : (classes.map (·.qualifiedName)).Nodup)
    (hcls : cls ∈ classes) :
    (index.addClasses classes source).classes.get? cls.qualifiedName = some cls := by
  induction classes generalizing index with
  | nil => cases hcls
  | cons first rest ih =>
    obtain ⟨hfirst, hrest⟩ := List.nodup_cons.mp hnodup
    obtain rfl | hcls := List.mem_cons.mp hcls
    · have hkept : ((index.addClass cls source).addClasses rest source).classes.get?
          cls.qualifiedName = _ := get?_classes_addClasses_of_notMem hfirst
      refine hkept.trans ?_
      rw [addClass, Entries.get?_insert, if_pos rfl]
    · exact @ih (index.addClass first source) hrest hcls

theorem parse_addClasses : (index.addClasses classes source).parse = index.parse := by
  induction classes generalizing index with
  | nil => rfl
  | cons first rest ih => exact @ih (index.addClass first source)

/-- Adding a source does not change how the next one is read. -/
theorem classesOf_addSource (file : Option String) :
    (index.addSource source file).2.classesOf = index.classesOf := by
  have hparse : (index.addSource source file).2.parse = index.parse := parse_addClasses
  funext other path
  rw [classesOf, classesOf, hparse]

/-- The index with the classes of more sources. -/
def addSources (index : SourceIndex) (sources : List (String × Option String)) : SourceIndex :=
  sources.foldl (fun index s => (index.addSource s.1 s.2).2) index

theorem Built.addSources (h : Built index) (sources : List (String × Option String)) :
    Built (index.addSources sources) := by
  induction sources generalizing index with
  | nil => exact h
  | cons s rest ih => exact ih (h.addSource s.1 s.2)

/-- None of the sources declares a class of this name. -/
def Without (index : SourceIndex) (name : String) (sources : List (String × Option String)) :
    Prop :=
  ∀ s ∈ sources, name ∉ (index.classesOf s.1 (shownPath s.2)).map (·.qualifiedName)

instance (index : SourceIndex) (name : String) (sources : List (String × Option String)) :
    Decidable (index.Without name sources) :=
  inferInstanceAs (Decidable (∀ s ∈ sources, _))

/-- What an index says about a name stays when sources without a class of this name are added. -/
theorem get?_addSources {later : List (String × Option String)} (h : index.Without name later) :
    (index.addSources later).sources.get? name = index.sources.get? name ∧
      (index.addSources later).classes.get? name = index.classes.get? name := by
  induction later generalizing index with
  | nil => exact ⟨rfl, rfl⟩
  | cons s rest ih =>
    have hfirst : name ∉ (index.classesOf s.1 (shownPath s.2)).map (·.qualifiedName) :=
      h s List.mem_cons_self
    have hrest : (index.addSource s.1 s.2).2.Without name rest := by
      intro t ht
      rw [classesOf_addSource]
      exact h t (List.mem_cons_of_mem s ht)
    obtain ⟨hsources, hclasses⟩ := ih hrest
    refine ⟨hsources.trans ?_, hclasses.trans ?_⟩
    · exact get?_sources_addClasses.trans (if_neg hfirst)
    · exact get?_classes_addClasses_of_notMem hfirst

/-- A class has the source that was added last of those that declare one of its name. -/
theorem source_addSources (hname : dropLeading name = name) {file : Option String}
    {later : List (String × Option String)}
    (hmem : name ∈ (index.classesOf source (shownPath file)).map (·.qualifiedName))
    (hlater : index.Without name later) :
    ((index.addSource source file).2.addSources later).source name = source := by
  have hfirst : (index.addSource source file).2.sources.get? name = some source :=
    get?_sources_addClasses.trans (if_pos hmem)
  have hnext : (index.addSource source file).2.Without name later := by
    rwa [Without, classesOf_addSource]
  rw [SourceIndex.source, hname, (get?_addSources hnext).1, hfirst]
  rfl

/-- Classes with distinct names are found, unless others of their names are added later. -/
theorem class?_addSources {file : Option String} {later : List (String × Option String)}
    (hname : dropLeading cls.qualifiedName = cls.qualifiedName)
    (hnodup : ((index.classesOf source (shownPath file)).map (·.qualifiedName)).Nodup)
    (hcls : cls ∈ index.classesOf source (shownPath file))
    (hlater : index.Without cls.qualifiedName later) :
    ((index.addSource source file).2.addSources later).class? cls.qualifiedName = some cls := by
  have hnext : (index.addSource source file).2.Without cls.qualifiedName later := by
    rwa [Without, classesOf_addSource]
  rw [class?, hname, (get?_addSources hnext).2]
  exact get?_classes_addClasses hnodup hcls

end AddClasses

end SourceIndex

end DocAnnotations
