import DocAnnotations.Proofs.AliasTable
import DocAnnotations.Proofs.Entries
import Mathlib.Data.List.TakeWhile

/-! The rules for a name, in the order in which they count: its full name if it is absolute, an
imported class, a local name for its first segment, the namespace, and the bare name. -/
namespace DocAnnotations.AliasTable

open QualifiedName Text

variable {known : String → Bool} {table : AliasTable} {name className qualified : String}
  {i : String × String} {result : Option String}

/-- A name up to its first backslash. -/
def firstSegment (name : String) : String :=
  String.ofList (name.toList.takeWhile (!isSeparator ·))

/-- What follows the first segment. It begins with a backslash or is empty. -/
def behindFirst (name : String) : String :=
  String.ofList (name.toList.dropWhile (!isSeparator ·))

/-- The last import under a local name is that of a class. -/
def LastUnder (table : AliasTable) (localName qualified : String) : Prop :=
  ∃ before after, table.imports = before ++ (qualified, localName) :: after ∧
    ∀ later ∈ after, later.2 ≠ localName

/-- A relative name that is not the full name of an import, and whose first segment is no local
name. -/
structure Unimported (table : AliasTable) (name : String) : Prop where
  relative : isAbsolute name = false
  fullName : name ∉ table.imports.keys
  localName : ∀ i ∈ table.imports, i.2 ≠ firstSegment name

/-- The class that a name stands for by the first rule that applies to it. -/
inductive FirstRule (known : String → Bool) (table : AliasTable) (name : String) :
    Option String → Prop
  | absolute : isAbsolute name = true → known (dropLeading name) = true →
      FirstRule known table name (some (dropLeading name))
  | absoluteUnknown : isAbsolute name = true → known (dropLeading name) = false →
      FirstRule known table name none
  | fullName : isAbsolute name = false → name ∈ table.imports.keys →
      FirstRule known table name (some name)
  | localName {qualified : String} : isAbsolute name = false → name ∉ table.imports.keys →
      LastUnder table (firstSegment name) qualified →
      FirstRule known table name (some (qualified ++ behindFirst name))
  | ambient : Unimported table name → table.scope ≠ "" → known (below table.scope name) = true →
      FirstRule known table name (some (below table.scope name))
  | bare : Unimported table name → ¬ (table.scope ≠ "" ∧ known (below table.scope name) = true) →
      known name = true → FirstRule known table name (some name)
  | unknown : Unimported table name →
      ¬ (table.scope ≠ "" ∧ known (below table.scope name) = true) → known name = false →
      FirstRule known table name none

section Segment

theorem firstSegment_append_behindFirst (name : String) :
    firstSegment name ++ behindFirst name = name := by
  rw [firstSegment, behindFirst, ← String.ofList_append, List.takeWhile_append_dropWhile,
    String.ofList_toList]

theorem behindFirst_cases (name : String) :
    behindFirst name = "" ∨ ∃ rest, behindFirst name = "\\" ++ rest := by
  unfold behindFirst
  cases hcs : name.toList.dropWhile (!isSeparator ·) with
  | nil => exact .inl rfl
  | cons c cs =>
    have hhead := List.head?_dropWhile_not (!isSeparator ·) name.toList
    rw [hcs] at hhead
    obtain rfl : c = '\\' := by simpa [isSeparator] using hhead
    exact .inr ⟨String.ofList cs, String.ofList_cons⟩

theorem noSeparator_iff {segment : String} :
    '\\' ∉ segment.toList ↔ ∀ c ∈ segment.toList, (!isSeparator c) = true := by
  constructor
  · intro h c hc
    have hne : c ≠ '\\' := by
      rintro rfl
      exact h hc
    simp [isSeparator, hne]
  · intro h hmem
    simpa [isSeparator] using h '\\' hmem

theorem segments_of_whole {segment : String} (h : '\\' ∉ segment.toList) :
    firstSegment segment = segment ∧ behindFirst segment = "" := by
  have hall := noSeparator_iff.mp h
  rw [firstSegment, behindFirst, List.takeWhile_eq_self_iff.mpr hall,
    List.dropWhile_eq_nil_iff.mpr hall, String.ofList_toList]
  exact ⟨rfl, rfl⟩

theorem segments_of_below {segment : String} (h : '\\' ∉ segment.toList) (rest : String) :
    firstSegment (below segment rest) = segment ∧
      behindFirst (below segment rest) = "\\" ++ rest := by
  have hall := noSeparator_iff.mp h
  have hcs : (below segment rest).toList = segment.toList ++ '\\' :: rest.toList := by
    simp [below]
  rw [firstSegment, behindFirst, hcs, List.takeWhile_append_of_pos hall,
    List.dropWhile_append_of_pos hall]
  simp [isSeparator]

end Segment

/-- An import makes a name stand for a class exactly if the first segment is its local name, and
the rest of the name goes behind its class. -/
theorem renames_iff (hlocal : '\\' ∉ i.2.toList) :
    Renames i name className ↔ i.2 = firstSegment name ∧ className = i.1 ++ behindFirst name := by
  constructor
  · intro h
    cases h with
    | whole =>
      obtain ⟨hfirst, hbehind⟩ := segments_of_whole hlocal
      exact ⟨hfirst.symm, by rw [hbehind, String.append_empty]⟩
    | inside rest =>
      obtain ⟨hfirst, hbehind⟩ := segments_of_below hlocal rest
      exact ⟨hfirst.symm, by rw [hbehind, below, String.append_assoc]⟩
  · rintro ⟨hfirst, rfl⟩
    have hname := firstSegment_append_behindFirst name
    rw [← hfirst] at hname
    rcases behindFirst_cases name with hbehind | ⟨rest, hbehind⟩
    · rw [hbehind, String.append_empty] at hname ⊢
      exact hname ▸ .whole
    · rw [hbehind] at hname ⊢
      have hinside : Renames i (below i.2 rest) (below i.1 rest) := .inside rest
      rwa [below, below, String.append_assoc, String.append_assoc, hname] at hinside

theorem through_iff (hlocals : ∀ i ∈ table.imports, '\\' ∉ i.2.toList) :
    Through table name className ↔ ∃ qualified, LastUnder table (firstSegment name) qualified ∧
      className = qualified ++ behindFirst name := by
  constructor
  · rintro ⟨before, i, after, heq, hi, hlater⟩
    have hlocal : ∀ k ∈ i :: after, '\\' ∉ k.2.toList := fun k hk =>
      hlocals k (heq ▸ List.mem_append_right before hk)
    obtain ⟨hfirst, hclass⟩ := (renames_iff (hlocal i List.mem_cons_self)).mp hi
    refine ⟨i.1, ⟨before, after, by rw [← hfirst, heq], fun later hmem hname => ?_⟩, hclass⟩
    have hseparator := hlocal later (List.mem_cons_of_mem i hmem)
    exact hlater later hmem _ ((renames_iff hseparator).mpr ⟨hname, rfl⟩)
  · rintro ⟨qualified, ⟨before, after, heq, hlater⟩, rfl⟩
    have hlocal : ∀ k ∈ (qualified, firstSegment name) :: after, '\\' ∉ k.2.toList := fun k hk =>
      hlocals k (heq ▸ List.mem_append_right before hk)
    refine ⟨before, _, after, heq, (renames_iff (hlocal _ List.mem_cons_self)).mpr ⟨rfl, rfl⟩, ?_⟩
    intro later hmem other hrenames
    have hseparator := hlocal later (List.mem_cons_of_mem _ hmem)
    exact hlater later hmem ((renames_iff hseparator).mp hrenames).1

theorem exists_lastUnder (hlocals : ∀ i ∈ table.imports, '\\' ∉ i.2.toList)
    (hi : i ∈ table.imports) (hname : i.2 = firstSegment name) :
    ∃ qualified, LastUnder table (firstSegment name) qualified := by
  obtain ⟨other, hother⟩ := exists_through hi ((renames_iff (hlocals i hi)).mpr ⟨hname, rfl⟩)
  obtain ⟨qualified, hlast, -⟩ := (through_iff hlocals).mp hother
  exact ⟨qualified, hlast⟩

section Rules

theorem find?_of_absolute (hstrip : strip name = name) (hne : dropLeading name ≠ "")
    (habsolute : isAbsolute name = true) :
    table.find? known name =
      if known (dropLeading name) then some (dropLeading name) else none := by
  rw [find?, hstrip, findTrimmed?, if_neg hne, if_pos habsolute]

theorem isRelative_of_not_absolute (hstrip : strip name = name) (hne : dropLeading name ≠ "")
    (hrelative : isAbsolute name = false) : IsRelative name := by
  rw [dropLeading_of_not_absolute hrelative] at hne
  exact ⟨hstrip, hne, hrelative⟩

theorem hasKey_eq_false (h : name ∉ table.imports.keys) : table.imports.hasKey name = false := by
  rw [← Bool.not_eq_true, Entries.hasKey_iff_mem]
  exact h

/-- Where no import counts, only the namespace and the bare name are left. -/
theorem Unimported.find?_eq (h : Unimported table name) (hname : IsRelative name)
    (hkeys : ∀ i ∈ table.imports, i.1 ≠ "") (hlocals : ∀ i ∈ table.imports, '\\' ∉ i.2.toList) :
    table.find? known name = table.ambient known name := by
  have hnone : table.throughImports name = none := by
    rw [Option.eq_none_iff_forall_ne_some]
    intro other hother
    obtain ⟨before, i, after, heq, hi, -⟩ := (throughImports_eq_some_iff hkeys).mp hother
    have hmem : i ∈ table.imports := by simp [heq]
    exact h.localName i hmem ((renames_iff (hlocals i hmem)).mp hi).1
  rw [find?_of_relative hname, hasKey_eq_false h.fullName, if_neg Bool.false_ne_true, hnone,
    Option.none_or]

/-- The answer of a look-up is that of the first rule. -/
theorem FirstRule.find?_eq (h : FirstRule known table name result)
    (hkeys : ∀ i ∈ table.imports, i.1 ≠ "") (hlocals : ∀ i ∈ table.imports, '\\' ∉ i.2.toList)
    (hstrip : strip name = name) (hne : dropLeading name ≠ "") :
    table.find? known name = result := by
  cases h with
  | absolute habsolute hknown => rw [find?_of_absolute hstrip hne habsolute, if_pos hknown]
  | absoluteUnknown habsolute hknown =>
    rw [find?_of_absolute hstrip hne habsolute, hknown, if_neg Bool.false_ne_true]
  | fullName hrelative hkey =>
    have hname := isRelative_of_not_absolute hstrip hne hrelative
    rw [find?_of_relative hname, if_pos (Entries.hasKey_iff_mem.mpr hkey)]
  | localName hrelative hkey hlast =>
    have hname := isRelative_of_not_absolute hstrip hne hrelative
    have hthrough := (through_iff hlocals).mpr ⟨_, hlast, rfl⟩
    rw [find?_of_relative hname, hasKey_eq_false hkey, if_neg Bool.false_ne_true,
      (throughImports_eq_some_iff hkeys).mpr hthrough, Option.some_or]
  | ambient hfree hscope hknown =>
    have hname := isRelative_of_not_absolute hstrip hne hfree.relative
    rw [hfree.find?_eq hname hkeys hlocals, AliasTable.ambient, if_pos ⟨hscope, hknown⟩]
  | bare hfree hscope hknown =>
    have hname := isRelative_of_not_absolute hstrip hne hfree.relative
    rw [hfree.find?_eq hname hkeys hlocals, AliasTable.ambient, if_neg hscope, if_pos hknown]
  | unknown hfree hscope hknown =>
    have hname := isRelative_of_not_absolute hstrip hne hfree.relative
    rw [hfree.find?_eq hname hkeys hlocals, AliasTable.ambient, if_neg hscope, hknown,
      if_neg Bool.false_ne_true]

/-- Some rule applies to every name. -/
theorem exists_firstRule (known : String → Bool) (name : String)
    (hlocals : ∀ i ∈ table.imports, '\\' ∉ i.2.toList) :
    ∃ result, FirstRule known table name result := by
  cases habsolute : isAbsolute name with
  | true =>
    cases hknown : known (dropLeading name) with
    | true => exact ⟨_, .absolute habsolute hknown⟩
    | false => exact ⟨_, .absoluteUnknown habsolute hknown⟩
  | false =>
    by_cases hkey : name ∈ table.imports.keys
    · exact ⟨_, .fullName habsolute hkey⟩
    by_cases hlocal : ∃ i ∈ table.imports, i.2 = firstSegment name
    · obtain ⟨i, hi, hname⟩ := hlocal
      obtain ⟨qualified, hlast⟩ := exists_lastUnder hlocals hi hname
      exact ⟨_, .localName habsolute hkey hlast⟩
    have hfree : Unimported table name :=
      ⟨habsolute, hkey, fun i hi hname => hlocal ⟨i, hi, hname⟩⟩
    by_cases hscope : table.scope ≠ "" ∧ known (below table.scope name) = true
    · exact ⟨_, .ambient hfree hscope.1 hscope.2⟩
    · cases hknown : known name with
      | true => exact ⟨_, .bare hfree hscope hknown⟩
      | false => exact ⟨_, .unknown hfree hscope hknown⟩

end Rules

/-- A name stands for the class that the first rule for it gives, and for no class exactly if that
rule gives none. Where an answer is needed in any case, the name itself is the answer then. -/
theorem find?_eq_iff_firstRule (hkeys : ∀ i ∈ table.imports, i.1 ≠ "")
    (hlocals : ∀ i ∈ table.imports, '\\' ∉ i.2.toList) (hstrip : strip name = name)
    (hne : dropLeading name ≠ "") :
    (∀ result, table.find? known name = result ↔ FirstRule known table name result) ∧
      ∀ found, table.find known name = found ↔
        ∃ result, FirstRule known table name result ∧ found = result.getD name := by
  have hiff : ∀ result, table.find? known name = result ↔ FirstRule known table name result := by
    intro result
    obtain ⟨first, hfirst⟩ := exists_firstRule known name hlocals
    have hfound := hfirst.find?_eq hkeys hlocals hstrip hne
    constructor
    · rintro rfl
      exact hfound ▸ hfirst
    · exact fun h => h.find?_eq hkeys hlocals hstrip hne
  refine ⟨hiff, fun found => ?_⟩
  rw [find, hstrip]
  constructor
  · rintro rfl
    exact ⟨_, (hiff _).mp rfl, rfl⟩
  · rintro ⟨result, hresult, rfl⟩
    rw [(hiff result).mpr hresult]

/-- Of two imports under one local name the later counts, also for a name below it. An absolute name
passes the imports by. -/
theorem find?_eq_iff_firstRule_twice :
    let known := fun name => decide (name = "N\\Sub" ∨ name = "App\\Tag")
    let table : AliasTable :=
      { scope := "App", imports := [("Lib\\Note", "N"), ("Model", "Tag"), ("Vendor\\Note", "N")] }
    table.find? known "N\\Sub" = some "Vendor\\Note\\Sub" ∧
      table.find? known "\\N\\Sub" = some "N\\Sub" ∧ table.find? known "Tag" = some "Model" ∧
      table.find? known "Other\\Tag" = none ∧ table.find known "\\Other" = "\\Other" := by
  intro known table
  have hkeys : ∀ i ∈ table.imports, i.1 ≠ "" := by decide
  have hlocals : ∀ i ∈ table.imports, '\\' ∉ i.2.toList := by decide
  have hlater : LastUnder table (firstSegment "N\\Sub") "Vendor\\Note" :=
    ⟨[("Lib\\Note", "N"), ("Model", "Tag")], [], by decide, by simp⟩
  have htag : LastUnder table (firstSegment "Tag") "Model" :=
    ⟨[("Lib\\Note", "N")], [("Vendor\\Note", "N")], by decide, by decide⟩
  have hother : Unimported table "Other\\Tag" := ⟨by decide, by decide, by decide⟩
  refine ⟨?_, ?_, ?_, ?_, ?_⟩
  · exact ((find?_eq_iff_firstRule hkeys hlocals (by decide) (by decide)).1 _).mpr
      (.localName (by decide) (by decide) hlater)
  · exact ((find?_eq_iff_firstRule hkeys hlocals (by decide) (by decide)).1 _).mpr
      (.absolute (by decide) (by decide))
  · exact ((find?_eq_iff_firstRule hkeys hlocals (by decide) (by decide)).1 _).mpr
      (.localName (by decide) (by decide) htag)
  · exact ((find?_eq_iff_firstRule hkeys hlocals (by decide) (by decide)).1 _).mpr
      (.unknown hother (by decide) (by decide))
  · exact ((find?_eq_iff_firstRule hkeys hlocals (by decide) (by decide)).2 _).mpr
      ⟨none, .absoluteUnknown (by decide) (by decide), rfl⟩

end DocAnnotations.AliasTable
