import DocAnnotations.AliasTable
import Mathlib.Tactic.Common

/-! Which names stand for a class, and which of them are listed as the names of that class. -/
namespace DocAnnotations.AliasTable

open QualifiedName Text

variable {known : String → Bool} {table : AliasTable} {name className : String}
  {i : String × String}

theorem relativeTo?_eq_some_iff {scope rest : String} :
    relativeTo? scope name = some rest ↔ name = below scope rest := by
  simp only [relativeTo?, Option.map_eq_some_iff, dropFront?_eq_some_iff]
  constructor
  · rintro ⟨cs, hcs, rfl⟩
    rw [← String.toList_inj, hcs]
    simp [below]
  · rintro rfl
    exact ⟨rest.toList, by simp [below], String.ofList_toList⟩

theorem below_ne (scope rest : String) : below scope rest ≠ scope := by
  intro h
  have hlength := congrArg (fun s => s.toList.length) h
  simp only [below, String.toList_append, List.length_append] at hlength
  have hone : "\\".toList.length = 1 := rfl
  omega

/-- An import makes a name stand for a class: its local name stands for what it imports, and a name
below the local name for the same name below that. -/
inductive Renames (i : String × String) : String → String → Prop
  | whole : Renames i i.2 i.1
  | inside (rest : String) : Renames i (below i.2 rest) (below i.1 rest)

theorem throughImport_eq_some_iff :
    throughImport i.1 i.2 name = some className ↔ Renames i name className := by
  unfold throughImport
  split
  next hname =>
    subst hname
    constructor
    · intro h
      cases h
      exact .whole
    · intro h
      generalize hn : i.2 = n at h
      cases h with
      | whole => rfl
      | inside rest => exact absurd hn.symm (below_ne i.2 rest)
  next hname =>
    rw [Option.map_eq_some_iff]
    constructor
    · rintro ⟨rest, hrest, rfl⟩
      obtain rfl := relativeTo?_eq_some_iff.mp hrest
      exact .inside rest
    · intro h
      cases h with
      | whole => exact absurd rfl hname
      | inside rest => exact ⟨rest, relativeTo?_eq_some_iff.mpr rfl, rfl⟩

theorem ne_empty_of_renames (hkey : i.1 ≠ "") (h : Renames i name className) : className ≠ "" := by
  cases h with
  | whole => exact hkey
  | inside rest =>
    intro hempty
    have hcs := congrArg String.toList hempty
    simp [below] at hcs

/-- The last import that makes a name stand for anything makes it stand for this class. -/
def Through (table : AliasTable) (name className : String) : Prop :=
  ∃ before i after, table.imports = before ++ i :: after ∧ Renames i name className ∧
    ∀ later ∈ after, ∀ other, ¬ Renames later name other

theorem getLast?_filterMap_eq_some_iff :
    (table.imports.filterMap fun i => throughImport i.1 i.2 name).getLast? = some className ↔
      Through table name className := by
  have hnone (later : String × String) :
      throughImport later.1 later.2 name = none ↔ ∀ other, ¬ Renames later name other := by
    simp only [Option.eq_none_iff_forall_ne_some, ne_eq, throughImport_eq_some_iff]
  simp only [List.getLast?_filterMap, List.findSome?_eq_some_iff, throughImport_eq_some_iff, hnone]
  constructor
  · rintro ⟨after, i, before, heq, hi, hlater⟩
    refine ⟨before.reverse, i, after.reverse, ?_, hi, by simpa using hlater⟩
    simpa using congrArg List.reverse heq
  · rintro ⟨before, i, after, heq, hi, hlater⟩
    exact ⟨after.reverse, i, before.reverse, by simp [heq], hi, by simpa using hlater⟩

theorem throughImports_eq_some_iff (hkeys : ∀ i ∈ table.imports, i.1 ≠ "") :
    table.throughImports name = some className ↔ Through table name className := by
  rw [throughImports, Option.filter_eq_some_iff, getLast?_filterMap_eq_some_iff]
  refine and_iff_left_of_imp fun h => ?_
  obtain ⟨before, i, after, heq, hi, -⟩ := h
  have hne := ne_empty_of_renames (hkeys i (by simp [heq])) hi
  simpa using hne

theorem Through.unique {other : String} (h : Through table name className)
    (hother : Through table name other) : className = other := by
  rw [← getLast?_filterMap_eq_some_iff] at h hother
  exact Option.some.inj (h.symm.trans hother)

/-- A name that any import makes stand for something goes through one of them. -/
theorem exists_through (hi : i ∈ table.imports) (h : Renames i name className) :
    ∃ other, Through table name other := by
  have hfound : className ∈ table.imports.filterMap fun i => throughImport i.1 i.2 name :=
    List.mem_filterMap.mpr ⟨i, hi, throughImport_eq_some_iff.mpr h⟩
  obtain ⟨other, hlast⟩ := Option.isSome_iff_exists.mp
    (List.getLast?_isSome.mpr (List.ne_nil_of_mem hfound))
  exact ⟨other, getLast?_filterMap_eq_some_iff.mp hlast⟩

/-- A name that is looked up as it is written, and in the scope of a class. -/
structure IsRelative (name : String) : Prop where
  strip_eq : strip name = name
  ne_empty : name ≠ ""
  isAbsolute_eq : isAbsolute name = false

instance (name : String) : Decidable (IsRelative name) :=
  decidable_of_iff (_ ∧ _ ∧ _)
    ⟨fun ⟨hstrip, hne, habsolute⟩ => ⟨hstrip, hne, habsolute⟩,
      fun h => ⟨h.strip_eq, h.ne_empty, h.isAbsolute_eq⟩⟩

theorem dropLeading_of_not_absolute (h : isAbsolute name = false) : dropLeading name = name := by
  unfold dropLeading
  unfold isAbsolute at h
  cases hcs : name.toList with
  | nil => rw [List.dropWhile_nil, ← hcs, String.ofList_toList]
  | cons c cs =>
    have hc : isSeparator c = false := by simpa [isSeparator, hcs] using h
    rw [List.dropWhile_cons, hc, if_neg Bool.false_ne_true, ← hcs, String.ofList_toList]

/-- The levels of a look-up, in the order in which they are asked: imported classes by their full
names, local names, the namespace, and all classes. -/
inductive Level where
  | fullName
  | localName
  | ambient
  | bare
  deriving DecidableEq, Repr

/-- The level at which a relative name is found, and the class that it stands for. Each level
counts where those before it have no answer. -/
inductive FoundAt (known : String → Bool) (table : AliasTable) (name : String) :
    Level → String → Prop
  | fullName : table.imports.hasKey name = true → FoundAt known table name .fullName name
  | localName {className : String} : table.imports.hasKey name = false →
      Through table name className → FoundAt known table name .localName className
  | ambient : table.imports.hasKey name = false → (∀ other, ¬ Through table name other) →
      table.scope ≠ "" → known (below table.scope name) = true →
      FoundAt known table name .ambient (below table.scope name)
  | bare : table.imports.hasKey name = false → (∀ other, ¬ Through table name other) →
      ¬ (table.scope ≠ "" ∧ known (below table.scope name) = true) → known name = true →
      FoundAt known table name .bare name

theorem find?_of_relative (hname : IsRelative name) : table.find? known name =
    if table.imports.hasKey name then some name
    else (table.throughImports name).or (table.ambient known name) := by
  obtain ⟨hstrip, hne, habsolute⟩ := hname
  rw [find?, hstrip, findTrimmed?, dropLeading_of_not_absolute habsolute, if_neg hne, habsolute,
    if_neg Bool.false_ne_true]

/-- A look-up answers at one of its levels. -/
theorem find?_eq_some_iff (hname : IsRelative name) (hkeys : ∀ i ∈ table.imports, i.1 ≠ "") :
    table.find? known name = some className ↔
      ∃ level, FoundAt known table name level className := by
  have hnone : table.throughImports name = none ↔ ∀ other, ¬ Through table name other := by
    simp only [Option.eq_none_iff_forall_ne_some, ne_eq, throughImports_eq_some_iff hkeys]
  rw [find?_of_relative hname]
  constructor
  · intro h
    split at h
    next hkey =>
      cases h
      exact ⟨.fullName, .fullName hkey⟩
    next hkey =>
      rw [Bool.not_eq_true] at hkey
      rw [Option.or_eq_some_iff, throughImports_eq_some_iff hkeys, hnone, ambient] at h
      obtain h | ⟨hno, h⟩ := h
      · exact ⟨.localName, .localName hkey h⟩
      split at h
      next hscope =>
        cases h
        exact ⟨.ambient, .ambient hkey hno hscope.1 hscope.2⟩
      next hscope =>
        split at h
        next hknown =>
          cases h
          exact ⟨.bare, .bare hkey hno hscope hknown⟩
        next => cases h
  · rintro ⟨level, hfound⟩
    cases hfound with
    | fullName hkey => rw [if_pos hkey]
    | localName hkey h =>
      rw [hkey, if_neg Bool.false_ne_true, (throughImports_eq_some_iff hkeys).mpr h, Option.some_or]
    | ambient hkey hno hscope hknown =>
      rw [hkey, if_neg Bool.false_ne_true, hnone.mpr hno, Option.none_or, ambient,
        if_pos ⟨hscope, hknown⟩]
    | bare hkey hno hscope hknown =>
      rw [hkey, if_neg Bool.false_ne_true, hnone.mpr hno, Option.none_or, ambient, if_neg hscope,
        if_pos hknown]

theorem aliasIn_of_localName_ne (hlocal : i.2 ≠ "") (h : aliasIn i.1 i.2 className = some name) :
    ∃ other, Renames i name other := by
  unfold aliasIn at h
  split at h
  next =>
    cases h
    exact ⟨i.1, .whole⟩
  next =>
    obtain ⟨rest, -, hrest⟩ := Option.map_eq_some_iff.mp h
    split at hrest
    next =>
      cases hrest
      exact ⟨i.1, .whole⟩
    next =>
      cases hrest
      exact ⟨below i.1 rest, .inside rest⟩

theorem aliasIn_ambient {scope : String} (h : aliasIn scope "" className = some name) :
    className = below scope name := by
  simp only [aliasIn, ne_eq, not_true_eq_false, and_false, if_false, if_true,
    Option.map_eq_some_iff, relativeTo?_eq_some_iff] at h
  obtain ⟨rest, hrest, rfl⟩ := h
  exact hrest

/-- The names of a class are those that its namespace and the imports give it. -/
theorem mem_aliasesFor_iff (hclass : isAbsolute className = false) :
    name ∈ table.aliasesFor className ↔
      table.scope ≠ "" ∧ aliasIn table.scope "" className = some name ∨
        ∃ i ∈ table.imports, aliasIn i.1 i.2 className = some name := by
  rw [aliasesFor, dropLeading_of_not_absolute hclass, List.mem_eraseDups, List.mem_filterMap,
    scopes]
  split
  next hscope => simp [hscope]
  next hscope => simp [hscope]

/-- Another class has the name: it is the full name of that class, or the last import that it goes
through leads there. -/
def Shadowed (table : AliasTable) (name className : String) : Prop :=
  table.imports.hasKey name = true ∧ name ≠ className ∨
    table.imports.hasKey name = false ∧ ∃ other, other ≠ className ∧ Through table name other

theorem find?_eq_some_iff_not_shadowed (hkeys : ∀ i ∈ table.imports, i.1 ≠ "")
    (hlocals : ∀ i ∈ table.imports, i.2 ≠ "") (hclass : isAbsolute className = false)
    (hknown : known className = true) (hname : IsRelative name)
    (hlisted : name ∈ table.aliasesFor className) :
    table.find? known name = some className ↔ ¬ Shadowed table name className := by
  rw [find?_eq_some_iff hname hkeys]
  constructor
  · rintro ⟨level, hfound⟩ (⟨hkey, hne⟩ | ⟨hkey, other, hne, hother⟩)
    · cases hfound with
      | fullName => exact hne rfl
      | localName hno | ambient hno | bare hno => simp [hkey] at hno
    · cases hfound with
      | fullName hyes => simp [hkey] at hyes
      | localName _ h => exact hne (hother.unique h)
      | ambient _ hno | bare _ hno => exact hno other hother
  · intro hshadow
    by_cases hkey : table.imports.hasKey name = true
    · obtain rfl : name = className := by
        by_contra hne
        exact hshadow (.inl ⟨hkey, hne⟩)
      exact ⟨.fullName, .fullName hkey⟩
    rw [Bool.not_eq_true] at hkey
    have honly : ∀ other, Through table name other → other = className := by
      intro other hother
      by_contra hne
      exact hshadow (.inr ⟨hkey, other, hne, hother⟩)
    by_cases hthrough : ∃ other, Through table name other
    · obtain ⟨other, hother⟩ := hthrough
      obtain rfl := honly other hother
      exact ⟨.localName, .localName hkey hother⟩
    -- No import makes the name stand for anything, so it is listed for the namespace.
    obtain ⟨hscope, halias⟩ | ⟨i, hi, halias⟩ := (mem_aliasesFor_iff hclass).mp hlisted
    · obtain rfl := aliasIn_ambient halias
      exact ⟨.ambient, .ambient hkey (not_exists.mp hthrough) hscope hknown⟩
    · obtain ⟨other, hother⟩ := aliasIn_of_localName_ne (hlocals i hi) halias
      exact absurd (exists_through hi hother) hthrough

/-- A known class is found under its own name where nothing else is. -/
theorem find_eq_iff (hname : IsRelative name) (hknown : known className = true) :
    table.find known name = className ↔ table.find? known name = some className := by
  rw [find, hname.strip_eq]
  cases hfound : table.find? known name with
  | some found => simp
  | none =>
    suffices name ≠ className by simpa
    rintro rfl
    rw [find?_of_relative hname] at hfound
    split at hfound
    next => cases hfound
    next =>
      rw [Option.or_eq_none_iff, ambient, if_pos hknown] at hfound
      split at hfound <;> simp at hfound

/-- A name that is listed for a known class stands for that class exactly if no other class has
it. -/
theorem find_of_mem_aliasesFor (hkeys : ∀ i ∈ table.imports, i.1 ≠ "")
    (hlocals : ∀ i ∈ table.imports, i.2 ≠ "") (hclass : isAbsolute className = false)
    (hknown : known className = true) (hname : IsRelative name)
    (hlisted : name ∈ table.aliasesFor className) :
    table.find known name = className ↔ ¬ Shadowed table name className := by
  rw [find_eq_iff hname hknown]
  exact find?_eq_some_iff_not_shadowed hkeys hlocals hclass hknown hname hlisted

/-- An import below a namespace serves, and one under the short name of a class takes it away. -/
theorem find_of_mem_aliasesFor_vendor :
    let known := fun name => decide (name = "App\\Note" ∨ name = "Vendor\\Map\\Table")
    let table : AliasTable :=
      { scope := "App", imports := [("Lib\\Note", "Note"), ("Vendor", "V")] }
    ("V\\Map\\Table" ∈ table.aliasesFor "Vendor\\Map\\Table" ∧
        table.find known "V\\Map\\Table" = "Vendor\\Map\\Table") ∧
      "Note" ∈ table.aliasesFor "App\\Note" ∧ table.find known "Note" ≠ "App\\Note" := by
  intro known table
  have hkeys : ∀ i ∈ table.imports, i.1 ≠ "" := by decide
  have hlocals : ∀ i ∈ table.imports, i.2 ≠ "" := by decide
  have hvendor : "V\\Map\\Table" ∈ table.aliasesFor "Vendor\\Map\\Table" := by decide
  have hnote : "Note" ∈ table.aliasesFor "App\\Note" := by decide
  have hthrough : Through table "V\\Map\\Table" "Vendor\\Map\\Table" :=
    getLast?_filterMap_eq_some_iff.mp (by decide)
  have hlib : Through table "Note" "Lib\\Note" := getLast?_filterMap_eq_some_iff.mp (by decide)
  have hfree : ¬ Shadowed table "V\\Map\\Table" "Vendor\\Map\\Table" := by
    rintro (⟨hkey, -⟩ | ⟨-, other, hne, hother⟩)
    · revert hkey
      decide
    · exact hne (hother.unique hthrough)
  have htaken : Shadowed table "Note" "App\\Note" :=
    .inr ⟨by decide, "Lib\\Note", by decide, hlib⟩
  refine ⟨⟨hvendor, ?_⟩, hnote, fun hfound => ?_⟩
  · exact (find_of_mem_aliasesFor hkeys hlocals (by decide) (by decide) (by decide) hvendor).mpr
      hfree
  · exact (find_of_mem_aliasesFor hkeys hlocals (by decide) (by decide) (by decide) hnote).mp
      hfound htaken

/-- A class of the namespace is listed under its short name, which an import has taken. -/
theorem find_ne_of_mem_aliasesFor :
    let known := fun name => decide (name = "App\\Note")
    let table : AliasTable := { scope := "App", imports := [("Lib\\Note", "Note")] }
    (∀ i ∈ table.imports, i.1 ≠ "" ∧ dropOuter i.1 = i.1 ∧ i.2 ≠ "" ∧ '\\' ∉ i.2.toList) ∧
      known "App\\Note" = true ∧ "Note" ∈ table.aliasesFor "App\\Note" ∧
        table.find known "Note" = "Lib\\Note" := by
  decide

theorem aliasIn_of_renames (hne : i.2 ≠ "") (hend : name.toList.getLast? ≠ some '\\')
    (h : Renames i name className) : aliasIn i.1 i.2 className = some name := by
  cases h with
  | whole => rw [aliasIn, if_pos ⟨rfl, hne⟩]
  | inside rest =>
    have hrest : rest ≠ "" := by
      rintro rfl
      simp [below] at hend
    rw [aliasIn, if_neg fun hq => below_ne i.1 rest hq.1, relativeTo?_eq_some_iff.mpr rfl,
      Option.map_some, if_neg hne, if_neg hrest]

theorem aliasIn_below {scope : String} : aliasIn scope "" (below scope name) = some name := by
  rw [aliasIn, if_neg fun h => h.2 rfl, relativeTo?_eq_some_iff.mpr rfl, Option.map_some,
    if_pos rfl]

theorem isAbsolute_below {scope : String} (hne : scope ≠ "") (rest : String) :
    isAbsolute (below scope rest) = isAbsolute scope := by
  have hcs : scope.toList ≠ [] := fun h => hne (String.toList_eq_nil_iff.mp h)
  obtain ⟨c, cs, hc⟩ := List.exists_cons_of_ne_nil hcs
  simp [isAbsolute, below, hc]

/-- A local name that a relative name goes through is not empty. -/
theorem localName_ne_empty (hname : IsRelative name) (h : Renames i name className) : i.2 ≠ "" := by
  intro hempty
  cases h with
  | whole => exact hname.ne_empty hempty
  | inside rest =>
    have habsolute := hname.isAbsolute_eq
    simp [hempty, isAbsolute, below] at habsolute

/-- A name that stands for a class through an import or through the namespace is listed for it. -/
theorem mem_aliasesFor_of_foundAt {level : Level}
    (hkeys : ∀ i ∈ table.imports, i.1 ≠ "" ∧ isAbsolute i.1 = false)
    (hscope : isAbsolute table.scope = false) (hname : IsRelative name)
    (hend : name.toList.getLast? ≠ some '\\') (hlevel : level = .localName ∨ level = .ambient)
    (hfound : FoundAt known table name level className) :
    table.find? known name = some className ∧ name ∈ table.aliasesFor className := by
  refine ⟨(find?_eq_some_iff hname fun i hi => (hkeys i hi).1).mpr ⟨level, hfound⟩, ?_⟩
  cases hfound with
  | fullName | bare => simp at hlevel
  | localName _ hthrough =>
    obtain ⟨before, i, after, heq, hi, -⟩ := hthrough
    have hmem : i ∈ table.imports := by simp [heq]
    obtain ⟨hkey, hrelative⟩ := hkeys i hmem
    have hclass : isAbsolute className = false := by
      cases hi with
      | whole => exact hrelative
      | inside rest => rwa [isAbsolute_below hkey]
    have halias := aliasIn_of_renames (localName_ne_empty hname hi) hend hi
    exact (mem_aliasesFor_iff hclass).mpr (.inr ⟨i, hmem, halias⟩)
  | ambient _ _ hne =>
    have hclass : isAbsolute (below table.scope name) = false := by rwa [isAbsolute_below hne]
    exact (mem_aliasesFor_iff hclass).mpr (.inl ⟨hne, aliasIn_below⟩)

/-- A name below an imported namespace, and one in the namespace of the class. -/
theorem mem_aliasesFor_of_foundAt_vendor :
    let known := fun name => decide (name = "App\\Note")
    let table : AliasTable := { scope := "App", imports := [("Vendor", "V"), ("Lib\\Map", "V")] }
    (table.find? known "V\\Table" = some "Lib\\Map\\Table" ∧
        "V\\Table" ∈ table.aliasesFor "Lib\\Map\\Table") ∧
      table.find? known "Note" = some "App\\Note" ∧ "Note" ∈ table.aliasesFor "App\\Note" := by
  intro known table
  have hkeys : ∀ i ∈ table.imports, i.1 ≠ "" ∧ isAbsolute i.1 = false := by decide
  have hlocal : FoundAt known table "V\\Table" .localName "Lib\\Map\\Table" :=
    .localName (by decide) (getLast?_filterMap_eq_some_iff.mp (by decide))
  have hno : ∀ other, ¬ Through table "Note" other := by
    intro other h
    have hlast := getLast?_filterMap_eq_some_iff.mpr h
    revert hlast
    simp [table, throughImport, relativeTo?, dropFront?]
  have hambient : FoundAt known table "Note" .ambient "App\\Note" :=
    .ambient (by decide) hno (by decide) (by decide)
  exact ⟨mem_aliasesFor_of_foundAt hkeys (by decide) (by decide) (by decide) (.inl rfl) hlocal,
    mem_aliasesFor_of_foundAt hkeys (by decide) (by decide) (by decide) (.inr rfl) hambient⟩

end DocAnnotations.AliasTable
