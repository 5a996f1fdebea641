import DocAnnotations.Proofs.Import.Ending
import DocAnnotations.Proofs.Import.Statements

/-! Namespace statements and use statements as the language has them: with functions and constants
among the classes of a group, and with a comma at its end. -/
namespace DocAnnotations.Import

open QualifiedName Text

/-- A name in a use statement. In a group it may be a function or a constant. -/
structure UseName where
  kind : Option String := none
  listed : Listed

namespace UseName

def lexemes (n : UseName) : List Lexeme :=
  n.kind.toList.map .word ++ n.listed.lexemes

/-- The name as it is read. The word for its kind counts as part of it. -/
def read (n : UseName) : Listed :=
  { n.listed with words := n.kind.toList ++ n.listed.words }

theorem lexemes_read (n : UseName) : n.read.lexemes = n.lexemes := by
  simp [read, lexemes, Listed.lexemes]

/-- The name ends in a segment, and a word behind `as` is one segment. -/
structure Valid (n : UseName) : Prop where
  kind : ∀ w ∈ n.kind, NamesNoClass w
  words : ∀ w ∈ n.listed.words, lower w ≠ "as"
  lastSegment : lastSegment (String.join n.listed.words) ≠ ""
  renamed : ∀ r ∈ n.listed.renamed,
    lower r.1 = "as" ∧ lower r.2 ≠ "as" ∧ r.2 ≠ "" ∧ '\\' ∉ r.2.toList

instance (n : UseName) : Decidable n.Valid :=
  decidable_of_iff (_ ∧ _ ∧ _ ∧ _)
    ⟨fun ⟨hkind, hwords, hlast, hrenamed⟩ => ⟨hkind, hwords, hlast, hrenamed⟩,
      fun h => ⟨h.kind, h.words, h.lastSegment, h.renamed⟩⟩

theorem Valid.readable {n : UseName} (h : n.Valid) : n.read.Readable := by
  refine ⟨fun w hw has => ?_, fun r hr => ⟨(h.renamed r hr).1, (h.renamed r hr).2.1⟩⟩
  rcases List.mem_append.mp hw with hw | hw
  · rcases h.kind w (Option.mem_toList.mp hw) with hkind | hkind
    all_goals
      rw [has] at hkind
      exact absurd hkind (by decide)
  · exact h.words w hw has

/-- The imported name ends in the same segment. -/
theorem Valid.lastSegment_written {n : UseName} (h : n.Valid) (base : String) :
    QualifiedName.lastSegment (n.read.under base).written ≠ "" := by
  have hwritten : (n.read.under base).written =
      (base ++ String.join n.kind.toList) ++ String.join n.listed.words := by
    simp [Listed.under, read, String.append_assoc]
  rw [hwritten]
  exact lastSegment_append_ne_empty h.lastSegment

end UseName

/-- A use statement for classes. In a group the words of `base` stand before the brace, and the last
name may have a comma behind it. -/
structure Use where
  keyword : String := "use"
  base : Option (List String) := none
  names : List UseName
  comma : Bool := false

namespace Use

def listing (u : Use) : List Lexeme :=
  [.punct ','].intercalate (u.names.map UseName.lexemes) ++ if u.comma then [.punct ','] else []

def body (u : Use) : List Lexeme :=
  match u.base with
  | none => u.listing
  | some base => base.map .word ++ .punct '{' :: (u.listing ++ [.punct '}'])

def lexemes (u : Use) : List Lexeme :=
  .word u.keyword :: (u.body ++ [.punct ';'])

/-- The statement as it is read. A comma at its end has an empty name behind it. -/
def list (u : Use) : UseList where
  keyword := u.keyword
  base := u.base
  names := u.names.map UseName.read ++ if u.comma then [{ words := [] }] else []

/-- In front of the brace of a group stands a name with a backslash at its end. Where there is no
group, all names are classes, and no comma is left over. -/
structure Valid (u : Use) : Prop where
  keyword : lower u.keyword = "use"
  classes : ∀ l ∈ u.body.head?, ∀ w ∈ l.word?, ¬ NamesNoClass w
  base : ∀ base ∈ u.base,
    (String.join base).toList.getLast? = some '\\' ∧ ∀ w ∈ base, lower w ≠ "as"
  ungrouped : u.base = none → u.comma = false ∧ ∀ n ∈ u.names, n.kind = none
  ne_nil : u.names ≠ []
  names : ∀ n ∈ u.names, n.Valid

instance (u : Use) : Decidable u.Valid :=
  decidable_of_iff (_ ∧ _ ∧ _ ∧ _ ∧ _ ∧ _)
    ⟨fun ⟨hkeyword, hclasses, hbase, hungrouped, hne, hnames⟩ =>
      ⟨hkeyword, hclasses, hbase, hungrouped, hne, hnames⟩,
      fun h => ⟨h.keyword, h.classes, h.base, h.ungrouped, h.ne_nil, h.names⟩⟩

variable {u : Use}

theorem intercalate_append_nil {names : List (List Lexeme)} (hne : names ≠ []) :
    [Lexeme.punct ','].intercalate (names ++ [[]]) =
      [Lexeme.punct ','].intercalate names ++ [.punct ','] := by
  induction names with
  | nil => exact absurd rfl hne
  | cons first rest ih =>
    cases rest with
    | nil => simp
    | cons second rest =>
      rw [List.cons_append, List.cons_append, List.intercalate_cons_cons, ← List.cons_append,
        ih (List.cons_ne_nil _ _), List.intercalate_cons_cons]
      simp

theorem Valid.listing_eq (h : u.Valid) : Listed.listing u.list.names = u.listing := by
  have hread : (u.names.map UseName.read).map Listed.lexemes = u.names.map UseName.lexemes := by
    rw [List.map_map]
    exact List.map_congr_left fun n _ => n.lexemes_read
  have hne : u.names.map UseName.lexemes ≠ [] := fun hnil => h.ne_nil (List.map_eq_nil_iff.mp hnil)
  rw [Listed.listing, list, List.map_append, hread, listing]
  cases u.comma with
  | false => simp
  | true => exact intercalate_append_nil hne

theorem Valid.body_eq (h : u.Valid) : u.list.body = u.body := by
  rw [UseList.body, body, h.listing_eq]
  rfl

theorem Valid.readable (h : u.Valid) : u.list.Readable := by
  refine ⟨h.keyword, fun l hl w hw => ?_, fun base hbase => ?_, ?_, fun l hl => ?_⟩
  · rw [h.body_eq] at hl
    exact not_or.mp (h.classes l hl w hw)
  · obtain ⟨hlast, hwords⟩ := h.base base hbase
    refine ⟨fun hempty => ?_, hwords⟩
    rw [hempty] at hlast
    cases hlast
  · simp [list, h.ne_nil]
  · rcases List.mem_append.mp hl with hl | hl
    · obtain ⟨n, hn, rfl⟩ := List.mem_map.mp hl
      exact (h.names n hn).readable
    · split at hl
      next =>
        obtain rfl := List.mem_singleton.mp hl
        exact ⟨List.forall_mem_nil _, nofun⟩
      next => cases hl

/-- What stands in front of each name in a group. -/
def prefixed (u : Use) : String :=
  u.base.elim "" String.join

/-- What is read of a comma at the end: an import of what stands before the brace. -/
def remnant? (u : Use) : Option UseStatement :=
  if u.comma then some { written := u.prefixed } else none

theorem mem_remnant?_iff {r : UseStatement} :
    r ∈ u.remnant? ↔ u.comma = true ∧ r = { written := u.prefixed } := by
  rw [remnant?, Option.mem_ite_none_right, Option.mem_some, eq_comm (a := r)]

theorem imports_list (u : Use) : (Statement.use u.list).imports =
    u.names.map (fun n => n.read.under u.prefixed) ++ u.remnant?.toList := by
  have hprefixed : u.list.prefixed = u.prefixed := rfl
  rw [Statement.imports, hprefixed, list, List.map_append, List.map_map, remnant?]
  cases u.comma with
  | false => rfl
  | true => simp [Listed.under]

/-- A comma at the end of a group leaves a name with the backslash in front of the brace at its
end. -/
theorem Valid.getLast?_remnant (h : u.Valid) {r : UseStatement} (hr : r ∈ u.remnant?) :
    r.written.toList.getLast? = some '\\' := by
  obtain ⟨hcomma, rfl⟩ := mem_remnant?_iff.mp hr
  cases hbase : u.base with
  | none =>
    have hplain := (h.ungrouped hbase).1
    rw [hcomma] at hplain
    cases hplain
  | some base =>
    rw [prefixed, hbase]
    exact (h.base base hbase).1

theorem Valid.ne_empty_of_mem_imports (h : u.Valid) {i : UseStatement}
    (hi : i ∈ (Statement.use u.list).imports) : i.written ≠ "" := by
  rw [imports_list] at hi
  rcases List.mem_append.mp hi with hi | hi
  · obtain ⟨n, hn, rfl⟩ := List.mem_map.mp hi
    exact UseStatement.ne_empty_of_lastSegment ((h.names n hn).lastSegment_written _)
  · intro hempty
    have hlast := h.getLast?_remnant (Option.mem_toList.mp hi)
    rw [hempty] at hlast
    cases hlast

end Use

/-- A statement in front of the classes of a source. -/
inductive Directive where
  /-- Statements of other kinds. -/
  | other (lexemes : List Lexeme)
  /-- A namespace statement. The global namespace has no name. -/
  | scope (keyword : String) (name : List String) (ending : Char)
  /-- An import of functions or of constants only. -/
  | skipped (keyword kind : String) (lexemes : List Lexeme)
  | use (u : Use)

namespace Directive

def lexemes : Directive → List Lexeme
  | other lexemes => lexemes
  | scope keyword name ending => .word keyword :: (name.map .word ++ [.punct ending])
  | skipped keyword kind lexemes => .word keyword :: .word kind :: (lexemes ++ [.punct ';'])
  | use u => u.lexemes

/-- The statement as it is read. -/
def statement : Directive → Statement
  | other lexemes => .other lexemes
  | scope keyword name ending => .scope keyword name ending
  | skipped keyword kind lexemes => .skipped keyword kind lexemes
  | use u => .use u.list

def Valid : Directive → Prop
  | use u => u.Valid
  | d => d.statement.Proper

instance : (d : Directive) → Decidable d.Valid
  | use u => inferInstanceAs (Decidable u.Valid)
  | other lexemes => inferInstanceAs (Decidable (Statement.other lexemes).Proper)
  | scope keyword name ending =>
    inferInstanceAs (Decidable (Statement.scope keyword name ending).Proper)
  | skipped keyword kind lexemes =>
    inferInstanceAs (Decidable (Statement.skipped keyword kind lexemes).Proper)

/-- The names that the statement imports as classes. -/
def names : Directive → List UseName
  | use u => u.names
  | other _ | scope _ _ _ | skipped _ _ _ => []

theorem Valid.readable {d : Directive} (h : d.Valid) : d.statement.Readable := by
  cases d with
  | other | scope | skipped => exact h
  | use u => exact Use.Valid.readable h

theorem Valid.lexemes_eq {d : Directive} (h : d.Valid) : d.statement.lexemes = d.lexemes := by
  cases d with
  | other | scope | skipped => rfl
  | use u =>
    have hbody : u.list.body = u.body := Use.Valid.body_eq h
    rw [statement, Statement.lexemes, hbody]
    rfl

/-- The table that statements make of the empty table. -/
def aliasTable (known : String → Bool) (directives : List Directive) : AliasTable :=
  (directives.map statement).foldl (Statement.apply known) {}

/-- The imports of statements, each with the namespace that it stands in. -/
def placed (directives : List Directive) : List (String × UseStatement) :=
  Statement.placed "" (directives.map statement)

/-- The tokens in front of the first class of a source are those of statements, and of what stands
before the class itself. -/
structure Open (directives : List Directive) (closing : List Lexeme) (source : String) : Prop where
  valid : ∀ d ∈ directives, d.Valid
  idles : Idles true closing
  lexemes_eq : (lex (preamble source)).map Token.lexeme = directives.flatMap lexemes ++ closing

namespace Open

variable {directives : List Directive} {closing : List Lexeme} {source : String}

theorem flatMap_lexemes (h : Open directives closing source) :
    (directives.map statement).flatMap Statement.lexemes = directives.flatMap lexemes := by
  rw [List.flatMap_map]
  exact List.flatMap_congr fun d hd => (h.valid d hd).lexemes_eq

/-- The table of a source is that of its statements. -/
theorem ofSource_eq (known : String → Bool) (file : Option String)
    (h : Open directives closing source) :
    AliasTable.ofSource known source file = .ok (aliasTable known directives) := by
  have hreadable : ∀ s ∈ directives.map statement, s.Readable :=
    List.forall_mem_map.mpr fun d hd => (h.valid d hd).readable
  have hlexemes := h.lexemes_eq
  rw [← h.flatMap_lexemes] at hlexemes
  exact Runs.ofSource_eq hreadable h.idles hlexemes

/-- What is imported is written in one word. -/
theorem isWritten (h : Open directives closing source) :
    ∀ s ∈ directives.map statement, ∀ i ∈ s.imports, i.IsWritten := by
  intro s hs i hi
  obtain ⟨d, hd, rfl⟩ := List.mem_map.mp hs
  have hvalid := h.valid d hd
  refine ⟨?_, Statement.noBlank_of_mem_imports (fun w hw => ?_) hi⟩
  · cases d with
    | other | scope | skipped => cases hi
    | use u => exact Use.Valid.ne_empty_of_mem_imports hvalid hi
  · rw [hvalid.lexemes_eq] at hw
    have hmem : .word w ∈ directives.flatMap lexemes ++ closing :=
      List.mem_append_left _ (List.mem_flatMap.mpr ⟨d, hd, hw⟩)
    exact noBlank_of_mem_lexemes (h.lexemes_eq ▸ hmem)

theorem mem_aliasTable_iff (h : Open directives closing source) {known : String → Bool}
    {e : String × String} : e ∈ (aliasTable known directives).imports ↔
      ∃ i, Stays known (placed directives) i ∧ e = i.2.entry known i.1 := by
  rw [aliasTable, Statement.mem_foldl_apply_iff h.isWritten]
  simp [placed]

end Open

end Directive

end DocAnnotations.Import
