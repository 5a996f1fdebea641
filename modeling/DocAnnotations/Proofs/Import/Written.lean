import DocAnnotations.Proofs.Import.Lexing
import DocAnnotations.Source.Class
import Mathlib.Data.List.Pairwise

/-! Preambles as they are written, with one statement on each line, and the table that they give. -/
namespace DocAnnotations.Import

open QualifiedName Text

/-- An import on a line of its own, with the name behind `as` if there is one. -/
structure ImportLine where
  indent : String := ""
  written : String
  renamed : Option String := none

namespace ImportLine

def statement (l : ImportLine) : UseStatement where
  written := l.written
  renamed := l.renamed.map ("as", ·)

def text (l : ImportLine) : String :=
  l.indent ++ "use " ++ l.written ++ l.renamed.elim "" (" as " ++ ·) ++ ";\n"

/-- Names are made of the characters of words, and none is reserved. -/
structure Proper (l : ImportLine) : Prop where
  indent : ∀ c ∈ l.indent.toList, c = ' ' ∨ c = '\t'
  written : IsWord l.written.toList
  lastSegment : lastSegment l.written ≠ ""
  unreserved : lower l.written ∉ ["function", "const", "as"]
  renamed : ∀ name ∈ l.renamed, IsWord name.toList ∧ '\\' ∉ name.toList ∧ lower name ≠ "as"

instance (l : ImportLine) : Decidable l.Proper :=
  have := List.decidableBAll (fun c => c = ' ' ∨ c = '\t') l.indent.toList
  decidable_of_iff (_ ∧ _ ∧ _ ∧ _ ∧ _)
    ⟨fun ⟨hindent, hwritten, hlast, hunreserved, hrenamed⟩ =>
      ⟨hindent, hwritten, hlast, hunreserved, hrenamed⟩,
      fun h => ⟨h.indent, h.written, h.lastSegment, h.unreserved, h.renamed⟩⟩

theorem Proper.statement {l : ImportLine} (h : l.Proper) : l.statement.Proper where
  keyword := show lower "use" = "use" by decide
  written := h.unreserved
  lastSegment := h.lastSegment
  renamed := by
    intro r hr
    obtain ⟨name, hname, rfl⟩ := Option.map_eq_some_iff.mp hr
    obtain ⟨hword, hsep, hlower⟩ := h.renamed name hname
    refine ⟨show lower "as" = "as" by decide, hlower, ?_, hsep⟩
    rintro rfl
    exact hword.1 rfl

theorem Proper.lexes {l : ImportLine} (h : l.Proper) :
    Lexes l.text.toList l.statement.lexemes := by
  have hindent : ∀ c ∈ l.indent.toList, isBlank c = true := by
    intro c hc
    rcases h.indent c hc with rfl | rfl <;> decide
  have hspace : isBlank ' ' = true ∧ isNamePart ' ' = false := by decide
  have huse : IsWord "use".toList := by decide
  have hend : Lexes [';', '\n'] [.punct ';'] := .punct rfl (.blank (by decide) .nil)
  cases hrenamed : l.renamed with
  | none =>
    have htext : l.text.toList = l.indent.toList ++
        ("use".toList ++ ' ' :: (l.written.toList ++ [';', '\n'])) := by
      simp [text, hrenamed]
    have hlexemes : l.statement.lexemes =
        [.word (String.ofList "use".toList), .word (String.ofList l.written.toList),
          .punct ';'] := by
      simp [UseStatement.lexemes, ImportLine.statement, hrenamed]
    rw [htext, hlexemes]
    exact .blanks hindent (.word huse hspace.2 (.blank hspace.1
      (.word h.written (by decide) hend)))
  | some name =>
    have hname := (h.renamed name hrenamed).1
    have has : IsWord "as".toList := by decide
    have htext : l.text.toList = l.indent.toList ++ ("use".toList ++ ' ' :: (l.written.toList ++
        ' ' :: ("as".toList ++ ' ' :: (name.toList ++ [';', '\n'])))) := by
      simp [text, hrenamed]
    have hlexemes : l.statement.lexemes =
        [.word (String.ofList "use".toList), .word (String.ofList l.written.toList),
          .word (String.ofList "as".toList), .word (String.ofList name.toList), .punct ';'] := by
      simp [UseStatement.lexemes, ImportLine.statement, hrenamed]
    rw [htext, hlexemes]
    exact .blanks hindent (.word huse hspace.2 (.blank hspace.1 (.word h.written hspace.2
      (.blank hspace.1 (.word has hspace.2 (.blank hspace.1 (.word hname (by decide) hend)))))))

theorem Proper.passed {l : ImportLine} (h : l.Proper) : Passed l.text.toList := by
  refine ⟨⟨(l.indent ++ "use " ++ l.written ++ l.renamed.elim "" (" as " ++ ·) ++ ";").toList,
    by simp [text], fun c hc => ?_⟩, ?_⟩
  · simp only [String.toList_append, List.mem_append] at hc
    rcases hc with (((hindent | huse) | hwritten) | hrenamed) | hend
    · rcases h.indent c hindent with rfl | rfl <;> decide
    · exact noLineEnd_of_mem (by decide) huse
    · exact h.written.noLineEnd c hwritten
    · cases hl : l.renamed with
      | none => simp [hl] at hrenamed
      | some name =>
        rw [hl, Option.elim_some, String.toList_append, List.mem_append] at hrenamed
        rcases hrenamed with has | hname
        · exact noLineEnd_of_mem (by decide) has
        · exact (h.renamed name hl).1.noLineEnd c hname
    · exact noLineEnd_of_mem (by decide) hend
  · have htext : l.text.toList = l.indent.toList ++ ("use".toList ++ ' ' :: (l.written.toList ++
        (l.renamed.elim "" (" as " ++ ·) ++ ";\n").toList)) := by
      simp [text]
    have hindent : ∀ c ∈ l.indent.toList, isBlank c = true := by
      intro c hc
      rcases h.indent c hc with rfl | rfl <;> decide
    rw [htext]
    exact beginsDeclaration_eq_false hindent (by decide) (by decide) (by decide)

end ImportLine

/-- The imported classes with their local names, each class once: in the place and under the name
of the last statement that imports it. -/
def lastImports (statements : List UseStatement) : Entries String :=
  (statements.map fun s => (dropLeading s.written, s.localName)).pwFilter
    fun e later => e.1 ≠ later.1

theorem lastImports_cons (s : UseStatement) (rest : List UseStatement) :
    lastImports (s :: rest) =
      if ∀ later ∈ rest, dropLeading s.written ≠ dropLeading later.written then
        (dropLeading s.written, s.localName) :: lastImports rest
      else lastImports rest := by
  have hlast := List.forall_mem_pwFilter (R := fun e later : String × String => e.1 ≠ later.1)
    (by grind) (dropLeading s.written, s.localName)
    (rest.map fun s => (dropLeading s.written, s.localName))
  rw [List.forall_mem_map] at hlast
  rw [lastImports, List.map_cons]
  split
  next h => exact List.pwFilter_cons_of_pos (hlast.mpr h)
  next h => exact List.pwFilter_cons_of_neg (fun hall => h (hlast.mp hall))

variable {known : String → Bool} {file : Option String} {table : AliasTable}

/-- Behind statements that import classes by their full names stand the last of these imports. -/
theorem imports_recordAll {statements : List UseStatement} (hnamed : ∀ s ∈ statements, s.Named)
    (hfull : ∀ s ∈ statements, s.qualified known table.scope = dropLeading s.written) :
    (recordAll known table statements).imports =
      table.imports.filter (fun e => ∀ s ∈ statements, e.1 ≠ dropLeading s.written) ++
        lastImports statements := by
  induction statements generalizing table with
  | nil => simp [recordAll, lastImports]
  | cons s rest ih =>
    have hrest : (recordAll known (record known table s.clause) rest).imports = _ :=
      ih (fun t ht => hnamed t (by simp [ht]))
        fun t ht => by rw [record_scope]; exact hfull t (by simp [ht])
    have hs : s.qualified known table.scope = dropLeading s.written := hfull s (by simp)
    change (recordAll known (record known table s.clause) rest).imports = _
    rw [hrest, imports_record (hnamed s (by simp)).isWritten, if_pos hs, hs, lastImports_cons,
      List.filter_append, Entries.erase, List.filter_filter, UseStatement.entry, hs]
    simp only [List.forall_mem_cons, Bool.decide_and, Bool.and_comm, decide_not]
    -- The entry of the first statement stays unless a later one imports the same class.
    split
    next hlast =>
      rw [List.filter_cons_of_pos (by simpa using hlast)]
      simp
    next hlast =>
      rw [List.filter_cons_of_neg (by simpa using hlast)]
      simp

/-- What stands in front of a class: a namespace, which may open a block, and imports. -/
structure Header where
  scope : String
  braced : Bool := false
  imports : List ImportLine

namespace Header

def scopeLine (h : Header) : String :=
  "namespace " ++ h.scope ++ (if h.braced then " \x7b" else ";") ++ "\n"

def text (h : Header) : String :=
  "<?php\n" ++ h.scopeLine ++ String.join (h.imports.map ImportLine.text)

def statements (h : Header) : List UseStatement :=
  h.imports.map ImportLine.statement

def preamble (h : Header) : Preamble where
  scope := some { name := h.scope, ending := if h.braced then '{' else ';' }
  imports := h.statements

/-- The names are made of the characters of words. -/
structure Proper (h : Header) : Prop where
  scope : IsWord h.scope.toList
  outer : dropOuter h.scope = h.scope
  imports : ∀ l ∈ h.imports, l.Proper

instance (h : Header) : Decidable h.Proper :=
  decidable_of_iff (_ ∧ _ ∧ _)
    ⟨fun ⟨hscope, houter, himports⟩ => ⟨hscope, houter, himports⟩,
      fun h => ⟨h.scope, h.outer, h.imports⟩⟩

variable {h : Header}

theorem toList_text (h : Header) : h.text.toList =
    ("<?php\n".toList :: h.scopeLine.toList :: h.imports.map (·.text.toList)).flatten := by
  rw [text, String.toList_append, String.toList_append, String.toList_join, List.flatMap_def,
    List.map_map, List.flatten_cons, List.flatten_cons, List.append_assoc]
  rfl

theorem passed_scopeLine (hp : h.Proper) : Passed h.scopeLine.toList := by
  have hending : (if h.braced then " \x7b" else ";").toList.all (!isLineEnd ·) = true := by
    cases h.braced <;> decide
  refine ⟨⟨("namespace " ++ h.scope ++ (if h.braced then " \x7b" else ";")).toList,
    by simp [scopeLine], fun c hc => ?_⟩, ?_⟩
  · simp only [String.toList_append, List.mem_append] at hc
    rcases hc with (hkeyword | hscope) | hend
    · exact noLineEnd_of_mem (by decide) hkeyword
    · exact hp.scope.noLineEnd c hscope
    · exact noLineEnd_of_mem hending hend
  · have htext : h.scopeLine.toList = [] ++ ("namespace".toList ++ ' ' ::
        (h.scope ++ (if h.braced then " \x7b" else ";") ++ "\n").toList) := by
      simp [scopeLine]
    rw [htext]
    exact beginsDeclaration_eq_false (by simp) (by decide) (by decide) (by decide)

theorem lexes_scopeLine (hp : h.Proper) : Lexes h.scopeLine.toList
    [.word "namespace", .word h.scope, .punct (if h.braced then '{' else ';')] := by
  have hspace : isBlank ' ' = true ∧ isNamePart ' ' = false := by decide
  have hkeyword : IsWord "namespace".toList := by decide
  have hend : isBlank '\n' = true := by decide
  rw [show "namespace" = String.ofList "namespace".toList by rw [String.ofList_toList],
    ← String.ofList_toList (s := h.scope)]
  cases hbraced : h.braced with
  | false =>
    have htext : h.scopeLine.toList =
        "namespace".toList ++ ' ' :: (h.scope.toList ++ [';', '\n']) := by
      simp [scopeLine, hbraced]
    rw [htext]
    exact .word hkeyword hspace.2 (.blank hspace.1
      (.word hp.scope (by decide) (.punct rfl (.blank hend .nil))))
  | true =>
    have htext : h.scopeLine.toList =
        "namespace".toList ++ ' ' :: (h.scope.toList ++ [' ', '{', '\n']) := by
      simp [scopeLine, hbraced]
    rw [htext]
    exact .word hkeyword hspace.2 (.blank hspace.1
      (.word hp.scope hspace.2 (.blank hspace.1 (.punct rfl (.blank hend .nil)))))

theorem lexes_imports {imports : List ImportLine} (hp : ∀ l ∈ imports, l.Proper) :
    Lexes (imports.map (·.text.toList)).flatten
      ((imports.map ImportLine.statement).flatMap UseStatement.lexemes) := by
  induction imports with
  | nil => exact .nil
  | cons l imports ih =>
    rw [List.map_cons, List.map_cons, List.flatten_cons, List.flatMap_cons]
    exact (hp l (by simp)).lexes.append (ih fun k hk => hp k (by simp [hk]))

/-- The tokens in front of a class are those of the statements in its header. -/
theorem begins (hp : h.Proper) {rest : String}
    (hrest : ∀ l ∈ (lines rest.toList).head?, beginsDeclaration l = true) :
    h.preamble.Begins (h.text ++ rest) := by
  have hpassed : ∀ l ∈ "<?php\n".toList :: h.scopeLine.toList :: h.imports.map (·.text.toList),
      Passed l := by
    simp only [List.forall_mem_cons, List.forall_mem_map]
    exact ⟨⟨⟨"<?php".toList, rfl, fun c hc => noLineEnd_of_mem (by decide) hc⟩, by decide⟩,
      passed_scopeLine hp, fun l hl => (hp.imports l hl).passed⟩
  have hpreamble : (Import.preamble (h.text ++ rest)).toList = h.text.toList := by
    rw [Import.preamble, String.toList_ofList, String.toList_append, toList_text,
      preambleOf_append hpassed hrest]
  have hlexes : Lexes h.text.toList h.preamble.lexemes := by
    have hall := (lexes_scopeLine hp).append (lexes_imports hp.imports)
    have hnewline : Lexes ['\n'] [] := .blank (by decide) .nil
    have htext : h.text.toList = "<?php".toList ++ ('\n' ::
        (h.scopeLine.toList ++ (h.imports.map (·.text.toList)).flatten)) := by
      rw [toList_text]
      simp
    have hlexemes : h.preamble.lexemes = [.word "namespace", .word h.scope,
        .punct (if h.braced then '{' else ';')] ++
          (h.imports.map ImportLine.statement).flatMap UseStatement.lexemes := by
      simp [preamble, statements, Preamble.lexemes, ScopeStatement.lexemes]
    rw [htext, hlexemes]
    exact .tag (.blank (by decide) hall)
  refine ⟨⟨by simp [preamble, Idle], by simp [preamble], ?_, ?_, by simp [preamble, Idle]⟩, ?_⟩
  · rintro s ⟨⟩
    refine ⟨show lower "namespace" = "namespace" by decide, ?_⟩
    cases h.braced <;> simp
  · exact List.forall_mem_map.mpr fun l hl => (hp.imports l hl).statement
  · obtain ⟨next, heq⟩ := hlexes 1 []
    rw [lex, hpreamble]
    simpa [lexFrom] using heq

end Header

/-- The namespace and the imports of a header are read back from its text. -/
theorem ofSource_header (known : String → Bool) (file : Option String) {h : Header} (hp : h.Proper)
    (hfull : ∀ l ∈ h.imports, isAbsolute l.written = false →
      known (below h.scope l.written) = false)
    {rest : String} (hrest : ∀ l ∈ (lines rest.toList).head?, beginsDeclaration l = true) :
    AliasTable.ofSource known (h.text ++ rest) file =
      .ok { scope := h.scope, imports := lastImports h.statements } := by
  have hbegins := Header.begins hp hrest
  have hscope : h.preamble.scopeName = h.scope := hp.outer
  have hnamed : ∀ s ∈ h.statements, s.Named := fun s hs => hbegins.named hs
  have hwritten : ∀ s ∈ h.statements, s.qualified known h.scope = dropLeading s.written := by
    refine List.forall_mem_map.mpr fun l hl => if_neg fun hbelow => ?_
    simp only [Bool.and_eq_true, Bool.not_eq_true'] at hbelow
    obtain ⟨⟨hrelative, -⟩, hknown⟩ := hbelow
    rw [AliasTable.dropLeading_of_not_absolute hrelative] at hknown
    exact absurd hknown (by simp [ImportLine.statement, hfull l hl hrelative])
  have himports : (tableOf known h.scope h.statements).imports = lastImports h.statements :=
    imports_recordAll hnamed hwritten
  have hkept : (tableOf known h.scope h.statements).scope = h.scope := recordAll_scope h.statements
  rw [hbegins.ofSource_eq, hscope]
  change Except.ok (tableOf known h.scope h.statements) = _
  generalize tableOf known h.scope h.statements = table at himports hkept ⊢
  obtain ⟨scope, imports⟩ := table
  obtain rfl : scope = h.scope := hkept
  obtain rfl : imports = lastImports h.statements := himports
  rfl

/-- A class that is imported twice has the name of the second import, and its place. -/
theorem ofSource_header_twice :
    let h : Header :=
      { scope := "App\\Domain", braced := true
        imports := [{ written := "Lib\\Note" }, { written := "Vendor\\Map", renamed := some "M" },
          { indent := "  ", written := "\\Lib\\Note", renamed := some "Text" }] }
    h.text = "<?php\nnamespace App\\Domain \x7b\nuse Lib\\Note;\nuse Vendor\\Map as M;\n" ++
        "  use \\Lib\\Note as Text;\n" ∧
      AliasTable.ofSource (fun name => decide (name = "Lib\\Note")) (h.text ++ "final class Host\n")
          none =
        .ok { scope := "App\\Domain", imports := [("Vendor\\Map", "M"), ("Lib\\Note", "Text")] } := by
  intro h
  have hp : h.Proper := by decide
  refine ⟨by decide, (ofSource_header _ none hp ?_ (by decide)).trans ?_⟩
  · decide
  · decide

/-- A combining accent is part of a name in the language, but not of a word. -/
theorem ofSource_accented :
    Source.isNameChar '\u0301' = true ∧ isNamePart '\u0301' = false ∧
      AliasTable.ofSource (fun _ => false)
          "<?php\nnamespace App;\nuse Lib\\Cafe\u0301;\nclass Host \x7b\x7d\n" none =
        .ok { scope := "App", imports := [("Lib\\Cafe", "Cafe")] } :=
  ⟨by decide, by decide +kernel,
    (ofSource_of_chars none rfl).trans (by decide +kernel)⟩

end DocAnnotations.Import
