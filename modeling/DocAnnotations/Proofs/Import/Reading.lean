import DocAnnotations.Proofs.Import.Declaration

/-! What is read of a source depends on the lexemes in front of its class only. Lines count for
errors, not for tables. -/
namespace DocAnnotations.Import

open QualifiedName Text

variable {known : String → Bool} {file : Option String} {first : State × AliasTable}

/-- The state and table after a lexeme, if it can be read. -/
def stepLexeme (known : String → Bool) (s : State × AliasTable) (l : Lexeme) :
    Option (State × AliasTable) :=
  (step known none s ⟨l, 1⟩).toOption

/-- The state and table after lexemes, if they can be read. -/
def readLexemes (known : String → Bool) (s : State × AliasTable) (ls : List Lexeme) :
    Option (State × AliasTable) :=
  ls.foldlM (stepLexeme known) s

/-- The alias table of lexemes, if they have one. -/
def tableOf? (known : String → Bool) (ls : List Lexeme) : Option AliasTable :=
  (readLexemes known (.outside true, {}) ls).bind fun s => (finish s).toOption

theorem readLexemes_nil : readLexemes known first [] = some first := rfl

theorem readLexemes_cons (l : Lexeme) (ls : List Lexeme) : readLexemes known first (l :: ls) =
    (stepLexeme known first l).bind fun s => readLexemes known s ls :=
  List.foldlM_cons

theorem readLexemes_append (ks ls : List Lexeme) : readLexemes known first (ks ++ ls) =
    (readLexemes known first ks).bind fun s => readLexemes known s ls :=
  List.foldlM_append

theorem tableOf?_append (ks ls : List Lexeme) : tableOf? known (ks ++ ls) =
    (readLexemes known (.outside true, {}) ks).bind fun s =>
      (readLexemes known s ls).bind fun last => (finish last).toOption := by
  rw [tableOf?, readLexemes_append, Option.bind_assoc]

theorem toOption_stepImport (table : AliasTable) (clause : Clause) (token : Token) :
    (stepImport known file table clause token).toOption =
      (stepImport known none table clause ⟨token.lexeme, 1⟩).toOption := by
  unfold stepImport
  split <;> simp_all
  split <;> rfl

/-- The line of a token and the file do not count for what it does. -/
theorem toOption_step (token : Token) :
    (step known file first token).toOption = stepLexeme known first token.lexeme := by
  obtain ⟨state, table⟩ := first
  cases state with
  | outside => rfl
  | ignored => rfl
  | importing clause => exact toOption_stepImport table clause token
  | scope name =>
    simp only [stepLexeme, step]
  | opened =>
    simp only [stepLexeme, step]
    cases hl : token.lexeme with
    | punct c => simpa [hl] using toOption_stepImport table {} token
    | word w =>
      dsimp only
      split
      next => rfl
      next => simpa [hl] using toOption_stepImport table {} token

theorem toOption_foldlM (tokens : List Token) :
    (tokens.foldlM (step known file) first).toOption =
      readLexemes known first (tokens.map Token.lexeme) := by
  induction tokens generalizing first with
  | nil => rfl
  | cons token tokens ih =>
    have hstep : (step known file first token).toOption = _ := toOption_step token
    rw [List.foldlM_cons, List.map_cons, readLexemes_cons, ← hstep]
    cases step known file first token with
    | error e => rfl
    | ok next => exact ih

theorem toOption_tableOfTokens (tokens : List Token) :
    (tableOfTokens known file tokens).toOption = tableOf? known (tokens.map Token.lexeme) := by
  have hread : (tokens.foldlM (step known file) (.outside true, {})).toOption = _ :=
    toOption_foldlM tokens
  rw [tableOfTokens, tableOf?, ← hread]
  cases tokens.foldlM (step known file) (.outside true, {}) <;> rfl

/-- The table of a source is the table of the lexemes in front of its class. -/
theorem toOption_ofSource (cs : List Char) :
    (AliasTable.ofSource known (String.ofList cs) file).toOption =
      tableOf? known ((lexFrom 1 (preambleOf cs)).map Token.lexeme) := by
  rw [AliasTable.ofSource, toOption_tableOfTokens, lex, preamble, String.toList_ofList,
    String.toList_ofList]

section Preamble

variable {cs rest : List Char}

/-- The lines of a text are kept where another one follows its last line feed. -/
theorem lines_append_newline (cs rest : List Char) :
    lines (cs ++ '\n' :: rest) = lines (cs ++ ['\n']) ++ lines rest := by
  induction cs with
  | nil => rfl
  | cons c cs ih =>
    rw [List.cons_append, List.cons_append]
    have hbreaks : breaksLine c (cs ++ '\n' :: rest) = breaksLine c (cs ++ ['\n']) := by
      cases cs <;> rfl
    cases hc : breaksLine c (cs ++ ['\n']) with
    | true =>
      rw [lines_cons_of_breaks (hbreaks.trans hc), lines_cons_of_breaks hc, ih, List.cons_append]
    | false =>
      obtain ⟨l, ls, hlines⟩ : ∃ l ls, lines (cs ++ ['\n']) = l :: ls := by
        refine List.exists_cons_of_ne_nil fun hnil => ?_
        have hflatten := flatten_lines (cs ++ ['\n'])
        simp [hnil] at hflatten
      rw [lines_cons_of_not_breaks hc hlines,
        lines_cons_of_not_breaks (hbreaks.trans hc) (by rw [ih, hlines, List.cons_append])]
      rfl

/-- Behind whole lines none of which declares, the preamble goes on. -/
theorem preambleOf_append_newline (h : ∀ line ∈ lines (cs ++ ['\n']), ¬ Declares line)
    (rest : List Char) :
    preambleOf (cs ++ '\n' :: rest) = cs ++ '\n' :: preambleOf rest := by
  have hall : ∀ line ∈ lines (cs ++ ['\n']), (!beginsDeclaration line) = true := by
    intro line hline
    simpa [← beginsDeclaration_iff] using h line hline
  rw [preambleOf, lines_append_newline, List.takeWhile_append_of_pos hall, List.flatten_append,
    flatten_lines, List.append_assoc, List.singleton_append]
  rfl

/-- The text is what is read of a source: whole lines of which none declares, in front of a line
that does. -/
structure IsPreamble (cs rest : List Char) : Prop where
  plain : ∀ line ∈ lines cs, ¬ Declares line
  whole : ∀ c ∈ cs.getLast?, c = '\n'
  declares : ∀ line ∈ (lines rest).head?, Declares line

theorem preambleOf_eq_nil (h : ∀ line ∈ (lines rest).head?, Declares line) :
    preambleOf rest = [] := by
  cases hlines : lines rest with
  | nil => rw [preambleOf, hlines]; rfl
  | cons line ls =>
    have hbegins := (h line (by simp [hlines])).beginsDeclaration
    rw [preambleOf, hlines, List.takeWhile_cons_of_neg (by simp [hbegins]), List.flatten_nil]

theorem IsPreamble.preambleOf_append (h : IsPreamble cs rest) : preambleOf (cs ++ rest) = cs := by
  obtain ⟨hplain, hwhole, hdeclares⟩ := h
  obtain rfl | ⟨init, c, rfl⟩ := cs.eq_nil_or_concat'
  · exact preambleOf_eq_nil hdeclares
  · obtain rfl : c = '\n' := hwhole c (by simp)
    rw [List.append_assoc, List.singleton_append, preambleOf_append_newline hplain,
      preambleOf_eq_nil hdeclares]

end Preamble

end DocAnnotations.Import
