import DocAnnotations.Proofs.Import.Declaration
import DocAnnotations.Proofs.Import.Statements
import DocAnnotations.Proofs.Import.Written

/-! What the body of a class does to the alias table of its source. -/
namespace DocAnnotations.Import

open QualifiedName Text

variable {statements : List Statement} {header : List Lexeme} {front : String}
  {traits : List ImportLine} {known : String → Bool} {file : Option String}

/-- A text up to the body of a class: statements, and the header of the class. -/
structure Heads (statements : List Statement) (header : List Lexeme) (front : String) : Prop where
  proper : ∀ s ∈ statements, s.Proper
  idles : Idles true header
  lexes : Lexes (front.toList ++ ['{'])
    (statements.flatMap Statement.lexemes ++ (header ++ [.punct '{']))

/-- Nothing behind the line of a declaration counts for the table. -/
theorem ofSource_append_of_declares (h : ∃ line ∈ lines front.toList, Declares line)
    (rest : String) :
    AliasTable.ofSource known (front ++ rest) file = AliasTable.ofSource known front file := by
  rw [AliasTable.ofSource, AliasTable.ofSource, preamble, preamble, String.toList_append,
    preambleOf_append_of_declares h]

/-- The body of a class that uses traits, behind its brace. -/
def traitBody (traits : List ImportLine) : String :=
  "\n" ++ String.join (traits.map ImportLine.text) ++ "\x7d\n"

theorem toList_append_traitBody (traits : List ImportLine) :
    (front ++ "\x7b" ++ traitBody traits).toList =
      front.toList ++ '{' :: '\n' :: ((traits.map (·.text.toList)).flatten ++ ['}', '\n']) := by
  simp [traitBody, String.toList_join, List.flatMap_def, Function.comp_def]

/-- No line of such a body begins a declaration. -/
theorem not_declares_traitBody (htraits : ∀ l ∈ traits, l.Proper) :
    ∀ line ∈ lines ('{' :: '\n' :: ((traits.map (·.text.toList)).flatten ++ ['}', '\n'])),
      ¬ Declares line := by
  have hbrace : Passed ['{', '\n'] := ⟨⟨['{'], rfl, by simp; decide⟩, by decide⟩
  have hpassed : ∀ l ∈ ['{', '\n'] :: traits.map (·.text.toList), Passed l := by
    simp only [List.forall_mem_cons, List.forall_mem_map]
    exact ⟨hbrace, fun l hl => (htraits l hl).passed⟩
  have hlines := lines_flatten_append hpassed ['}', '\n']
  have hclosing : ∀ line ∈ lines ['}', '\n'], beginsDeclaration line = false := by decide
  intro line hline
  rw [← beginsDeclaration_iff, Bool.not_eq_true]
  rcases List.mem_append.mp (hlines ▸ hline) with hline | hline
  · exact (hpassed line hline).begins
  · exact hclosing line hline

theorem lexes_traitBody (htraits : ∀ l ∈ traits, l.Proper) :
    Lexes ('\n' :: ((traits.map (·.text.toList)).flatten ++ ['}', '\n']))
      ((traits.map ImportLine.statement).flatMap UseStatement.lexemes ++ [.punct '}']) :=
  .blank (by decide) ((Header.lexes_imports htraits).append
    (.punct rfl (.blank (by decide) .nil)))

theorem Idles.append_punct {atStart : Bool} {lexemes : List Lexeme} (h : Idles atStart lexemes)
    (c : Char) : Idles atStart (lexemes ++ [.punct c]) := by
  induction lexemes generalizing atStart with
  | nil => exact ⟨fun _ _ hw => (by cases hw), trivial⟩
  | cons l rest ih => exact ⟨h.1, ih h.2⟩

namespace Heads

/-- Where no line of the text begins a declaration, the traits of the class are imported. -/
theorem ofSource_traitBody (h : Heads statements header front)
    (hfront : ∀ line ∈ lines front.toList, ¬ Declares line)
    (htraits : ∀ l ∈ traits, l.Proper) :
    AliasTable.ofSource known (front ++ "\x7b" ++ traitBody traits) file =
      .ok (recordAll known (statements.foldl (Statement.apply known) {})
        (traits.map ImportLine.statement)) := by
  have hpreamble : (preamble (front ++ "\x7b" ++ traitBody traits)).toList =
      front.toList ++ '{' :: '\n' :: ((traits.map (·.text.toList)).flatten ++ ['}', '\n']) := by
    rw [preamble, String.toList_ofList, toList_append_traitBody,
      preambleOf_eq_self (not_declares_of_append_brace hfront (not_declares_traitBody htraits))]
  have htokens : (lex (preamble (front ++ "\x7b" ++ traitBody traits))).map Token.lexeme =
      statements.flatMap Statement.lexemes ++ ((header ++ [.punct '{']) ++
        ((traits.map ImportLine.statement).flatMap UseStatement.lexemes ++ [.punct '}'])) := by
    obtain ⟨next, hlexemes⟩ := (h.lexes.append (lexes_traitBody htraits)) 1 []
    rw [lex, hpreamble]
    simpa [lexFrom] using hlexemes
  obtain ⟨before, _, heq, hbefore, hrest⟩ := List.map_eq_append_iff.mp htokens
  obtain ⟨opening, _, rfl, hopening, hrest⟩ := List.map_eq_append_iff.mp hrest
  obtain ⟨uses, closing, rfl, huses, hclosing⟩ := List.map_eq_append_iff.mp hrest
  have hopened : Runs known file opening
      (.outside true, statements.foldl (Statement.apply known) {}) _ :=
    .idles (hopening ▸ h.idles.append_punct '{')
  have hclosed : Runs known file closing (.outside true, recordAll known
      (statements.foldl (Statement.apply known) {}) (traits.map ImportLine.statement)) _ :=
    .idles (hclosing ▸ by simp [Idles, Lexeme.word?])
  rw [hopening, List.getLast?_concat] at hopened
  have hstatement : ∀ s ∈ traits.map ImportLine.statement, s.Proper :=
    List.forall_mem_map.mpr fun l hl => (htraits l hl).statement
  have hrun := (Runs.statements (fun s hs => (h.proper s hs).readable) hbefore).append
    (hopened.append ((Runs.uses hstatement huses).append hclosed))
  rw [AliasTable.ofSource, tableOfTokens, heq, hrun]
  rfl

theorem localName_ofSource_traitBody (h : Heads statements header front)
    (known : String → Bool) (file : Option String)
    (hfront : ∀ line ∈ lines front.toList, ¬ Declares line) {trait : ImportLine}
    (htrait : trait.Proper) :
    (AliasTable.ofSource known (front ++ "\x7b" ++ traitBody [trait]) file).toOption.bind
      (·.imports.getLast?.map Prod.snd) = some trait.statement.localName := by
  have hnamed : trait.statement.Named := ⟨htrait.lastSegment, htrait.written.noBlank⟩
  rw [h.ofSource_traitBody hfront (List.forall_mem_singleton.mpr htrait)]
  simp only [Except.toOption, Option.bind_some, List.map_cons, List.map_nil, recordAll,
    List.foldl_cons, List.foldl_nil]
  rw [imports_record hnamed.isWritten, List.getLast?_concat]
  rfl

end Heads

/-- The table does not depend on the body of a class if some line in front of the body begins a
declaration, and only then. Where none does, the traits that the class uses are imported. -/
theorem ofSource_body_iff (h : Heads statements header front) (known : String → Bool)
    (file : Option String) :
    ((∀ body body' : String, AliasTable.ofSource known (front ++ "\x7b" ++ body) file =
        AliasTable.ofSource known (front ++ "\x7b" ++ body') file) ↔
      ∃ line ∈ lines front.toList, Declares line) ∧
    ((∀ line ∈ lines front.toList, ¬ Declares line) → ∀ traits : List ImportLine,
      (∀ l ∈ traits, l.Proper) →
        AliasTable.ofSource known (front ++ "\x7b" ++ traitBody traits) file =
          .ok (recordAll known (statements.foldl (Statement.apply known) {})
            (traits.map ImportLine.statement))) := by
  refine ⟨⟨fun hsame => ?_, fun hdeclares body body' => ?_⟩,
    fun hfront traits htraits => h.ofSource_traitBody hfront htraits⟩
  · by_contra hnone
    have hfront : ∀ line ∈ lines front.toList, ¬ Declares line := fun line hl hd =>
      hnone ⟨line, hl, hd⟩
    have hfirst := h.localName_ofSource_traitBody known file hfront
      (show ImportLine.Proper { written := "A" } by decide)
    have hsecond := h.localName_ofSource_traitBody known file hfront
      (show ImportLine.Proper { written := "B" } by decide)
    rw [hsame _ (traitBody [{ written := "B" }]), hsecond] at hfirst
    exact absurd hfirst (by decide)
  · rw [String.append_assoc, String.append_assoc, ofSource_append_of_declares hdeclares,
      ofSource_append_of_declares hdeclares]

/-- An attribute in front of the class on its line hides the declaration, and a trait of the class
is imported. -/
theorem ofSource_body_attribute :
    let statements : List Statement :=
      [.scope "namespace" ["App"] ';', .use { names := [{ words := ["Lib\\Note"] }] }]
    let header : List Lexeme :=
      [.punct '#', .punct '[', .word "Note", .punct ']', .word "final", .word "class", .word "Host"]
    let front := "<?php\nnamespace App;\nuse Lib\\Note;\n#[Note] final class Host "
    let traits : List ImportLine := [{ indent := "  ", written := "Lib\\Tags" }]
    Heads statements header front ∧ (∀ line ∈ lines front.toList, ¬ Declares line) ∧
      (∀ l ∈ traits, l.Proper) ∧
      (¬ ∀ body body' : String, AliasTable.ofSource (fun _ => false) (front ++ "\x7b" ++ body) none =
        AliasTable.ofSource (fun _ => false) (front ++ "\x7b" ++ body') none) ∧
      AliasTable.ofSource (fun _ => false) (front ++ "\x7b" ++ traitBody traits) none =
        .ok { scope := "App", imports := [("Lib\\Note", "Note"), ("Lib\\Tags", "Tags")] } := by
  intro statements header front traits
  have hword : ∀ w ∈ ["namespace", "App", "use", "Lib\\Note", "Note", "final", "class", "Host"],
      IsWord w.toList := by decide
  simp only [List.forall_mem_cons, List.not_mem_nil, false_implies, implies_true, and_true] at hword
  obtain ⟨hnamespace, hname, huse, himport, hattribute, hfinal, hclass, hhost⟩ := hword
  have htext : front.toList ++ ['{'] = "<?php".toList ++ '\n' :: ("namespace".toList ++ ' ' ::
      ("App".toList ++ ';' :: '\n' :: ("use".toList ++ ' ' :: ("Lib\\Note".toList ++ ';' :: '\n' ::
        ('#' :: '[' :: ("Note".toList ++ ']' :: ' ' :: ("final".toList ++ ' ' :: ("class".toList ++
          ' ' :: ("Host".toList ++ ' ' :: ['{']))))))))) := by decide
  have hlexes : Lexes (front.toList ++ ['{'])
      (statements.flatMap Statement.lexemes ++ (header ++ [.punct '{'])) := by
    have hend : isNamePart ';' = false ∧ isNamePart ']' = false := by decide
    have hblank : isBlank '\n' = true ∧ isBlank ' ' = true ∧ isBlank ']' = false := by decide
    rw [htext]
    refine .tag (.blank hblank.1 (.spaced hnamespace (.name hname hend.1 (.punct rfl ?_))))
    refine .blank hblank.1 (.spaced huse (.name himport hend.1 (.punct rfl ?_)))
    refine .blank hblank.1 (.openAttribute (.name hattribute hend.2
      (.sign hend.2 hblank.2.2 (fun _ => by simp [cutSkipped]) (.blank hblank.2.1 ?_))))
    exact .spaced hfinal (.spaced hclass (.spaced hhost (.punct rfl .nil)))
  have hheads : Heads statements header front := ⟨by decide, by decide, hlexes⟩
  have hfront : ∀ line ∈ lines front.toList, ¬ Declares line := by
    simp only [← beginsDeclaration_iff]
    decide +kernel
  have htraits : ∀ l ∈ traits, l.Proper := by decide
  obtain ⟨hiff, himported⟩ := ofSource_body_iff hheads (fun _ => false) none
  refine ⟨hheads, hfront, htraits, fun hsame => ?_, (himported hfront traits htraits).trans ?_⟩
  · obtain ⟨line, hline, hdeclares⟩ := hiff.mp hsame
    exact hfront line hline hdeclares
  · decide

/-- The table of a class with an attribute on its line changes with the body. -/
theorem ofSource_body_ne :
    AliasTable.ofSource (fun _ => false)
        "<?php\nnamespace App;\n#[Note] class Host \x7b use Lib\\Tags; \x7d\n" none =
          .ok { scope := "App", imports := [("Lib\\Tags", "Tags")] } ∧
      AliasTable.ofSource (fun _ => false)
        "<?php\nnamespace App;\n#[Note] class Host \x7b \x7d\n" none =
          .ok { scope := "App" } :=
  ⟨(ofSource_of_chars none rfl).trans (by decide +kernel),
    (ofSource_of_chars none rfl).trans (by decide +kernel)⟩

end DocAnnotations.Import
