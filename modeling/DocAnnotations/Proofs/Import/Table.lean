import DocAnnotations.Import
import DocAnnotations.Proofs.AliasTable
import DocAnnotations.Proofs.Entries
import DocAnnotations.Proofs.Text

/-! What use statements leave in an alias table, and what their local names stand for there. -/
namespace DocAnnotations

open QualifiedName Text

namespace QualifiedName

/-- Nothing behind a backslash counts for the characters up to it. -/
theorem takeWhile_append_separator (cs ds : List Char) :
    (cs ++ '\\' :: ds).takeWhile (!isSeparator ·) = cs.takeWhile (!isSeparator ·) := by
  induction cs with
  | nil => rfl
  | cons c cs ih => simp only [List.cons_append, List.takeWhile_cons, ih]

theorem lastSegment_below (scope name : String) :
    lastSegment (below scope name) = lastSegment name := by
  have hrev : (below scope name).toList.reverse =
      name.toList.reverse ++ '\\' :: scope.toList.reverse := by
    simp [below]
  rw [lastSegment, hrev, takeWhile_append_separator, lastSegment]

theorem lastSegment_dropLeading (name : String) :
    lastSegment (dropLeading name) = lastSegment name := by
  simp only [lastSegment, dropLeading, String.toList_ofList]
  congr 2
  induction name.toList with
  | nil => rfl
  | cons c cs ih =>
    rw [List.dropWhile_cons]
    split
    next hc =>
      obtain rfl : c = '\\' := by simpa [isSeparator] using hc
      rw [ih, List.reverse_cons, takeWhile_append_separator]
    next => rfl

/-- A name has a last segment unless it is empty or ends in a backslash. -/
theorem lastSegment_ne_empty_iff {name : String} :
    lastSegment name ≠ "" ↔ ∃ c ∈ name.toList.getLast?, c ≠ '\\' := by
  rw [lastSegment, Ne, String.ofList_eq_empty_iff, List.reverse_eq_nil_iff, ← List.head?_reverse]
  cases name.toList.reverse with
  | nil => simp
  | cons c cs => by_cases hc : c = '\\' <;> simp [isSeparator, hc]

theorem lastSegment_append_ne_empty {front name : String} (h : lastSegment name ≠ "") :
    lastSegment (front ++ name) ≠ "" := by
  rw [lastSegment_ne_empty_iff] at h ⊢
  obtain ⟨c, hlast, hc⟩ := h
  have hne : name.toList ≠ [] := List.ne_nil_of_mem (List.mem_of_getLast? hlast)
  rw [String.toList_append, List.getLast?_append_of_ne_nil _ hne]
  exact ⟨c, hlast, hc⟩

theorem noSeparator_lastSegment (name : String) : '\\' ∉ (lastSegment name).toList := by
  intro h
  rw [lastSegment, String.toList_ofList, List.mem_reverse] at h
  have hall := List.all_takeWhile (p := (!isSeparator ·)) (l := name.toList.reverse)
  simpa [isSeparator] using List.all_eq_true.mp hall _ h

theorem mem_of_mem_lastSegment {name : String} {c : Char} (h : c ∈ (lastSegment name).toList) :
    c ∈ name.toList := by
  rw [lastSegment, String.toList_ofList, List.mem_reverse] at h
  simpa using (List.takeWhile_prefix _).mem h

end QualifiedName

/-- One segment of a name: not empty, and without backslashes and white space. -/
structure IsSegment (name : String) : Prop where
  ne_empty : name ≠ ""
  noSeparator : '\\' ∉ name.toList
  noBlank : ∀ c ∈ name.toList, isBlank c = false

namespace AliasTable

variable {known : String → Bool} {table : AliasTable} {name qualified : String}

theorem throughImport_of_segment (hn : '\\' ∉ name.toList) (localName : String) :
    throughImport qualified localName name = if name = localName then some qualified else none := by
  unfold throughImport
  split
  next => rfl
  next =>
    rw [Option.map_eq_none_iff, relativeTo?, Option.map_eq_none_iff,
      ← Option.not_isSome_iff_eq_none, Option.isSome_iff_exists]
    rintro ⟨rest, hrest⟩
    rw [dropFront?_eq_some_iff] at hrest
    exact hn (by simp [hrest])

/-- A local name stands for the only class that is imported under it. -/
theorem throughImports_eq (hn : '\\' ∉ name.toList) (hq : qualified ≠ "")
    (hmem : (qualified, name) ∈ table.imports)
    (honly : ∀ i ∈ table.imports, i.2 = name → i.1 = qualified) :
    table.throughImports name = some qualified := by
  have hfound : ∀ found ∈ table.imports.filterMap fun i => throughImport i.1 i.2 name,
      found = qualified := by
    intro found h
    obtain ⟨i, hi, hfound⟩ := List.mem_filterMap.mp h
    rw [throughImport_of_segment hn] at hfound
    split at hfound
    next hname =>
      cases hfound
      exact honly i hi hname.symm
    next => cases hfound
  have hself : qualified ∈ table.imports.filterMap fun i => throughImport i.1 i.2 name :=
    List.mem_filterMap.mpr ⟨_, hmem, if_pos rfl⟩
  obtain ⟨last, hlast⟩ := Option.isSome_iff_exists.mp
    (List.getLast?_isSome.mpr (List.ne_nil_of_mem hself))
  obtain rfl := hfound last (List.mem_of_getLast? hlast)
  rw [throughImports, hlast, Option.filter_some, if_pos (by simpa using hq)]

/-- The import of a class counts before local names. -/
theorem find?_segment (hs : IsSegment name) : table.find? known name =
    if table.imports.hasKey name then some name
    else (table.throughImports name).or (table.ambient known name) := by
  obtain ⟨hne, hsep, hblank⟩ := hs
  have hhead : name.toList.head? ≠ some '\\' := fun h => hsep (List.mem_of_head? h)
  exact find?_of_relative ⟨strip_of_not_blank hblank, hne, by simpa [isAbsolute] using hhead⟩

end AliasTable

namespace Import

variable {known : String → Bool} {scope : String} {table : AliasTable} {e : String × String}

/-- A use statement for one class, with the word behind `as` if there is one. The words `use` and
`as` are written in any case. -/
structure UseStatement where
  keyword : String := "use"
  written : String
  renamed : Option (String × String) := none
  deriving DecidableEq, Repr

namespace UseStatement

/-- The name of the class. A relative name is taken in the namespace if that class is known. -/
def qualified (known : String → Bool) (scope : String) (s : UseStatement) : String :=
  qualify known scope s.written

/-- The name that stands for the class. -/
def localName (s : UseStatement) : String :=
  (s.renamed.map (·.2)).getD (lastSegment s.written)

def clause (s : UseStatement) : Clause where
  current := s.written
  localName := s.renamed.map (·.2)

def entry (known : String → Bool) (scope : String) (s : UseStatement) : String × String :=
  (s.qualified known scope, s.localName)

/-- The statement takes an entry for a class away: it imports the class itself, or a class of the
namespace by a relative name that spells the class. -/
def Replaces (known : String → Bool) (scope : String) (s : UseStatement) (name : String) : Prop :=
  s.qualified known scope = name ∨
    s.qualified known scope ≠ dropLeading s.written ∧ s.written = name

instance (known : String → Bool) (scope : String) (s : UseStatement) (name : String) :
    Decidable (s.Replaces known scope name) :=
  inferInstanceAs (Decidable (_ ∨ _ ∧ _))

/-- The imported name is written in one word with a last segment. -/
structure Named (s : UseStatement) : Prop where
  lastSegment : lastSegment s.written ≠ ""
  noBlank : ∀ c ∈ s.written.toList, isBlank c = false

theorem lastSegment_qualified (s : UseStatement) :
    QualifiedName.lastSegment (s.qualified known scope) = QualifiedName.lastSegment s.written := by
  unfold qualified qualify
  dsimp only
  split
  · rw [lastSegment_below, lastSegment_dropLeading]
  · exact lastSegment_dropLeading _

theorem ne_empty_of_lastSegment {name : String} (h : QualifiedName.lastSegment name ≠ "") :
    name ≠ "" := by
  rintro rfl
  exact h rfl

theorem qualified_ne_empty {s : UseStatement} (hs : s.Named) : s.qualified known scope ≠ "" :=
  ne_empty_of_lastSegment (by rw [lastSegment_qualified]; exact hs.lastSegment)

/-- The imported name is written in one word. -/
structure IsWritten (s : UseStatement) : Prop where
  ne_empty : s.written ≠ ""
  noBlank : ∀ c ∈ s.written.toList, isBlank c = false

theorem Named.isWritten {s : UseStatement} (hs : s.Named) : s.IsWritten :=
  ⟨ne_empty_of_lastSegment hs.lastSegment, hs.noBlank⟩

end UseStatement

section Chars

variable {source : String} {cs : List Char}

/-- The table for a text that is given by its characters. Evaluating it leaves out their
encoding. -/
theorem ofSource_of_chars (file : Option String) (h : source = String.ofList cs) :
    AliasTable.ofSource known source file =
      tableOfTokens known file (lexFrom 1 (preambleOf cs)) := by
  rw [h, AliasTable.ofSource, lex, preamble, String.toList_ofList, String.toList_ofList]

theorem lexemes_of_chars {ls : List Lexeme} (h : source = String.ofList cs)
    (hls : (lexFrom 1 (preambleOf cs)).map Token.lexeme = ls) :
    (lex (preamble source)).map Token.lexeme = ls := by
  rw [h, lex, preamble, String.toList_ofList, String.toList_ofList, hls]

end Chars

open UseStatement

/-- A statement takes the entries for its class away and writes its own behind the others. -/
theorem imports_record {s : UseStatement} (hs : s.IsWritten) :
    (record known table s.clause).imports =
      Entries.erase (if s.qualified known table.scope = dropLeading s.written then table.imports
        else table.imports.erase s.written) (s.qualified known table.scope) ++
          [s.entry known table.scope] := by
  have hstrip : strip s.clause.written = s.written := by
    simp only [clause, Clause.written, String.empty_append]
    exact strip_of_not_blank hs.noBlank
  have hlocal : s.clause.localName.getD
      (lastSegment (qualify known table.scope s.written)) = s.localName := by
    rw [show qualify known table.scope s.written = s.qualified known table.scope from rfl,
      lastSegment_qualified]
    rfl
  simp only [record, hstrip, if_neg hs.ne_empty, hlocal]
  rfl

/-- A statement writes its own entry, and keeps those that it does not replace. -/
theorem mem_record_iff {s : UseStatement} (hs : s.IsWritten) :
    e ∈ (record known table s.clause).imports ↔
      e ∈ table.imports ∧ ¬ s.Replaces known table.scope e.1 ∨ e = s.entry known table.scope := by
  rw [imports_record hs, List.mem_append, List.mem_singleton]
  refine or_congr_left ?_
  unfold Replaces
  split
  next hq =>
    rw [Entries.mem_erase_iff]
    simp [hq]
  next hq =>
    rw [Entries.mem_erase_iff, Entries.mem_erase_iff, not_or, and_assoc,
      and_comm (a := s.written ≠ e.1)]
    simp [hq]

theorem record_scope (clause : Clause) : (record known table clause).scope = table.scope := by
  unfold record
  dsimp only
  split <;> rfl

/-- The table after use statements, one after another. -/
def recordAll (known : String → Bool) (table : AliasTable) (statements : List UseStatement) :
    AliasTable :=
  statements.foldl (fun table s => record known table s.clause) table

theorem recordAll_scope (statements : List UseStatement) :
    (recordAll known table statements).scope = table.scope := by
  induction statements generalizing table with
  | nil => rfl
  | cons s rest ih => exact ih.trans (record_scope _)

/-- The import of a statement is not replaced by a later one. -/
def Lasts (known : String → Bool) (scope : String) (statements : List UseStatement)
    (s : UseStatement) : Prop :=
  ∃ before after, statements = before ++ s :: after ∧
    ∀ later ∈ after, ¬ later.Replaces known scope (s.qualified known scope)

/-- An element of a list, with what holds of all behind it, is the first one or one behind that. -/
theorem exists_split_cons_iff {α : Type} {first x : α} {rest : List α} {p : List α → Prop} :
    (∃ before after, first :: rest = before ++ x :: after ∧ p after) ↔
      x = first ∧ p rest ∨ ∃ before after, rest = before ++ x :: after ∧ p after := by
  constructor
  · rintro ⟨before, after, heq, hafter⟩
    cases before with
    | nil =>
      cases heq
      exact .inl ⟨rfl, hafter⟩
    | cons _ before =>
      cases heq
      exact .inr ⟨before, after, rfl, hafter⟩
  · rintro (⟨rfl, hafter⟩ | ⟨before, after, rfl, hafter⟩)
    · exact ⟨[], rest, rfl, hafter⟩
    · exact ⟨first :: before, after, rfl, hafter⟩

theorem lasts_cons_iff {first s : UseStatement} {rest : List UseStatement} :
    Lasts known scope (first :: rest) s ↔
      s = first ∧ (∀ later ∈ rest, ¬ later.Replaces known scope (s.qualified known scope)) ∨
        Lasts known scope rest s :=
  exists_split_cons_iff

/-- Behind use statements a table has what they do not replace, and the lasting imports. -/
theorem mem_recordAll_iff {statements : List UseStatement} (hs : ∀ s ∈ statements, s.IsWritten) :
    e ∈ (recordAll known table statements).imports ↔
      e ∈ table.imports ∧ (∀ s ∈ statements, ¬ s.Replaces known table.scope e.1) ∨
        ∃ s, Lasts known table.scope statements s ∧ e = s.entry known table.scope := by
  induction statements generalizing table with
  | nil => simp [recordAll, Lasts]
  | cons first rest ih =>
    have hfirst : e ∈ (record known table first.clause).imports ↔ _ :=
      mem_record_iff (hs first (by simp))
    have hrest : e ∈ (recordAll known (record known table first.clause) rest).imports ↔ _ :=
      ih fun s h => hs s (by simp [h])
    rw [record_scope] at hrest
    change e ∈ (recordAll known (record known table first.clause) rest).imports ↔ _
    rw [hrest, hfirst]
    simp only [lasts_cons_iff, List.forall_mem_cons, or_and_right, exists_or, and_assoc]
    constructor
    · rintro ((⟨hold, hkeep, hlater⟩ | ⟨rfl, hlater⟩) | hlast)
      · exact .inl ⟨hold, hkeep, hlater⟩
      · exact .inr (.inl ⟨first, rfl, hlater, rfl⟩)
      · exact .inr (.inr hlast)
    · rintro (⟨hold, hkeep, hlater⟩ | ⟨s, rfl, hlater, rfl⟩ | hlast)
      · exact .inl (.inl ⟨hold, hkeep, hlater⟩)
      · exact .inl (.inr ⟨rfl, hlater⟩)
      · exact .inr hlast

section Lookup

variable {statements : List UseStatement} {s t : UseStatement}

theorem Lasts.mem (h : Lasts known scope statements s) : s ∈ statements := by
  obtain ⟨before, after, rfl, -⟩ := h
  simp

/-- The table of a namespace with the imports of use statements. -/
def tableOf (known : String → Bool) (scope : String) (statements : List UseStatement) :
    AliasTable :=
  recordAll known { scope } statements

theorem mem_tableOf_iff (hs : ∀ s ∈ statements, s.Named) :
    e ∈ (tableOf known scope statements).imports ↔
      ∃ s, Lasts known scope statements s ∧ e = s.entry known scope := by
  rw [tableOf, mem_recordAll_iff fun s h => (hs s h).isWritten]
  simp

/-- A local name that is also the full name of an imported class stands for that class. -/
theorem find?_tableOf_of_qualified (hs : ∀ s ∈ statements, s.Named)
    (hsegment : IsSegment s.localName) (ht : Lasts known scope statements t)
    (hname : t.qualified known scope = s.localName) :
    (tableOf known scope statements).find? known s.localName = some s.localName := by
  have hkey : (tableOf known scope statements).imports.hasKey s.localName = true := by
    rw [Entries.hasKey_iff_mem]
    exact List.mem_map.mpr ⟨_, (mem_tableOf_iff hs).mpr ⟨t, ht, rfl⟩, hname⟩
  rw [AliasTable.find?_segment hsegment, if_pos hkey]

/-- The local name of a lasting import stands for its class, unless it is the full name of another
imported class. -/
theorem find?_tableOf_of_lasts (hs : ∀ s ∈ statements, s.Named)
    (hlocal : (statements.map localName).Nodup) (hsegment : IsSegment s.localName)
    (hlasts : Lasts known scope statements s)
    (hname : ∀ t, Lasts known scope statements t →
      t.qualified known scope = s.localName → t = s) :
    (tableOf known scope statements).find? known s.localName =
      some (s.qualified known scope) := by
  by_cases hself : s.qualified known scope = s.localName
  · rw [find?_tableOf_of_qualified hs hsegment hlasts hself, hself]
  have hkey : (tableOf known scope statements).imports.hasKey s.localName = false := by
    rw [← Bool.not_eq_true, Entries.hasKey_iff_mem]
    intro hmem
    obtain ⟨e, he, hfirst⟩ := List.mem_map.mp hmem
    obtain ⟨t, ht, rfl⟩ := (mem_tableOf_iff hs).mp he
    obtain rfl := hname t ht hfirst
    exact hself hfirst
  have honly : ∀ i ∈ (tableOf known scope statements).imports,
      i.2 = s.localName → i.1 = s.qualified known scope := by
    intro i hi heq
    obtain ⟨t, ht, rfl⟩ := (mem_tableOf_iff hs).mp hi
    rw [List.inj_on_of_nodup_map hlocal ht.mem hlasts.mem heq]
    rfl
  have hthrough := AliasTable.throughImports_eq hsegment.noSeparator
    (qualified_ne_empty (hs s hlasts.mem)) ((mem_tableOf_iff hs).mpr ⟨s, hlasts, rfl⟩) honly
  rw [AliasTable.find?_segment hsegment, hkey, if_neg Bool.false_ne_true, hthrough, Option.some_or]

end Lookup

end Import

end DocAnnotations
