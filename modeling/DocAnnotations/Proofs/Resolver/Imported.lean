import DocAnnotations.Proofs.AliasTable.Precedence
import DocAnnotations.Proofs.Resolver.Literal
import DocAnnotations.Proofs.Resolver.Origin
import DocAnnotations.Proofs.SourceIndex

/-! Which type an imported name is resolved to: the one that the import gives, if it is registered,
and else the one that is registered under the name as it is written. -/
namespace DocAnnotations

namespace AliasTable

open QualifiedName Text

variable {known : String → Bool} {table : AliasTable} {name qualified : String}
  {i : String × String}

theorem firstSegment_noSeparator (name : String) : '\\' ∉ (firstSegment name).toList := by
  rw [noSeparator_iff, firstSegment, String.toList_ofList]
  intro c hc
  exact List.mem_takeWhile_imp (p := (!isSeparator ·)) hc

/-- An import of the first segment of a name makes the name stand for something. -/
theorem exists_through_of_firstSegment (hi : i ∈ table.imports) (hname : i.2 = firstSegment name) :
    ∃ qualified, Through table name qualified :=
  exists_through hi ((renames_iff (hname ▸ firstSegment_noSeparator name)).mpr ⟨hname, rfl⟩)

/-- A name that is no key of the table is found through the last import that applies to it. -/
theorem find?_of_through (hrelative : isAbsolute (strip name) = false)
    (hkey : table.hasKey (strip name) = false) (h : Through table (strip name) qualified)
    (hne : qualified ≠ "") : table.find? known name = some qualified := by
  have hthrough : table.throughImports (strip name) = some qualified := by
    rw [throughImports, Option.filter_eq_some_iff, getLast?_filterMap_eq_some_iff]
    exact ⟨h, by simpa using hne⟩
  rw [hasKey, Bool.or_eq_false_iff, decide_eq_false_iff_not] at hkey
  rw [find?, findTrimmed?, dropLeading_of_not_absolute hrelative, if_neg hkey.1, hrelative,
    if_neg Bool.false_ne_true, hkey.2, if_neg Bool.false_ne_true, hthrough, Option.some_or]

end AliasTable

namespace Resolver

open AliasTable Argument QualifiedName

variable {resolver : Resolver} {known : String → Bool} {table : AliasTable} {key : DeclarationKey}
  {name qualified : String} {f : Fragment} {i : String × String}

/-- Of the class that a name stands for and the name itself, the first that is registered. -/
theorem qualify_of_find? {scope : NameScope} (h : scope.find? name = some qualified) :
    resolver.qualify (some scope) name =
      if resolver.registry.contains qualified then some (dropLeading qualified)
      else if resolver.registry.contains name then some (dropLeading name)
      else none := by
  rw [qualify, Option.bind_some, h]
  cases hq : resolver.registry.contains qualified <;>
    cases hn : resolver.registry.contains name <;> simp [hq, hn]

theorem convert_dropLeading (scope : Option NameScope) (key : DeclarationKey) (type : String)
    (f : Fragment) :
    resolver.convert scope key (dropLeading type) f = resolver.convert scope key type f := by
  have hget : resolver.registry.get? (dropLeading type) = resolver.registry.get? type := by
    rw [Registry.get?, Registry.get?, dropLeading_dropLeading]
  rw [convert, convert, hget]

/-- A name whose first segment is imported, and that is no full name of an import, is resolved as
the class that the last such import gives, if this is registered. Else it is resolved as what is
registered under the name as it is written, and kept as text if nothing is. -/
theorem resolve_imported (hrelative : isAbsolute (Text.strip f.name) = false)
    (hkey : table.hasKey (Text.strip f.name) = false) (hi : i ∈ table.imports)
    (hlocal : i.2 = firstSegment (Text.strip f.name)) :
    ∃ qualified, Through table (Text.strip f.name) qualified ∧
      ((∀ i ∈ table.imports, '\\' ∉ i.2.toList) →
        ∃ imported, LastUnder table (firstSegment (Text.strip f.name)) imported ∧
          qualified = imported ++ behindFirst (Text.strip f.name)) ∧
      (qualified ≠ "" →
        let scope : Option NameScope := some ⟨table, known⟩
        resolver.resolve scope key f =
          if resolver.registry.contains qualified then resolver.convert scope key qualified f
          else if resolver.registry.contains f.name then resolver.convert scope key f.name f
          else pure (keep scope (some key) f.name f.raw)) := by
  obtain ⟨qualified, hthrough⟩ := exists_through_of_firstSegment hi hlocal
  refine ⟨qualified, hthrough, fun hlocals => (through_iff hlocals).mp hthrough, ?_⟩
  intro hne scope
  have hfind : (⟨table, known⟩ : NameScope).find? f.name = some qualified :=
    find?_of_through hrelative hkey hthrough hne
  have hqualify : resolver.qualify scope f.name = _ := qualify_of_find? hfind
  split_ifs at hqualify ⊢
  · rw [resolve_eq_convert hqualify, convert_dropLeading]
  · rw [resolve_eq_convert hqualify, convert_dropLeading]
  · have htype : resolver.typeOf? scope f.name = none := by rw [typeOf?, hqualify, Option.bind_none]
    obtain ⟨name, raw, children⟩ := f
    exact resolve_of_none htype

/-- Of two imports under one local name the later counts, also against a type of the written name. -/
theorem resolve_imported_later :
    let note : Schema := ⟨"Lib\\Note", Factory.param, ["name"], ["name", "type"], [], none, false⟩
    let resolver : Resolver :=
      { registry := ⟨[("N\\Note", { note with name := "N\\Note" }), ("Lib\\Note", note)]⟩ }
    let table : AliasTable := { imports := [("Old", "N"), ("Lib", "N")] }
    let scope : Option NameScope := some ⟨table, fun _ => true⟩
    let key : DeclarationKey := { className := "Host" }
    let f : Fragment := ⟨"N\\Note", "(name=a)", []⟩
    isAbsolute (Text.strip f.name) = false ∧ table.hasKey (Text.strip f.name) = false ∧
      resolver.resolve scope key f = resolver.convert scope key "Lib\\Note" f := by
  intro note resolver table scope key f
  have hrelative : isAbsolute (Text.strip f.name) = false := by decide
  have hkey : table.hasKey (Text.strip f.name) = false := by decide
  have hlocals : ∀ i ∈ table.imports, '\\' ∉ i.2.toList := by decide
  obtain ⟨qualified, hthrough, -, hresolve⟩ := resolve_imported hrelative hkey
    (show ("Lib", "N") ∈ table.imports by decide) (by decide)
  have hlast : LastUnder table (firstSegment (Text.strip f.name)) "Lib" :=
    ⟨[("Old", "N")], [], by decide, nofun⟩
  obtain rfl : qualified = "Lib\\Note" := by
    refine hthrough.unique ((through_iff hlocals).mpr ⟨"Lib", hlast, ?_⟩)
    decide
  refine ⟨hrelative, hkey, ?_⟩
  rw [hresolve (by decide), if_pos (by decide)]

/-- An imported class that is not registered gives way to a type of the written name. -/
theorem resolve_imported_written :
    let note : Schema := ⟨"Note", Factory.param, ["name"], ["name", "type"], [], none, false⟩
    let resolver : Resolver := { registry := ⟨[("Note", note)]⟩ }
    let table : AliasTable := { imports := [("Lib\\Note", "Note")] }
    let key : DeclarationKey := { className := "Host" }
    let f : Fragment := ⟨"Note", "(name=\"a\")", []⟩
    isAbsolute f.name = false ∧ table.hasKey f.name = false ∧
      LastUnder table (firstSegment f.name) "Lib\\Note" ∧ behindFirst f.name = "" ∧
      resolver.registry.contains "Lib\\Note" = false ∧
      (resolver.resolve (some ⟨table, fun _ => false⟩) key f {}).1 =
        .ok (.object "Param" [("name", .text "a"), ("type", .text "")]) := by
  intro note resolver table key f
  have hlast : LastUnder table (firstSegment f.name) "Lib\\Note" := ⟨[], [], by decide, nofun⟩
  exact ⟨by decide, by decide, hlast, by decide, by decide, by decide +kernel⟩

end Resolver

end DocAnnotations
