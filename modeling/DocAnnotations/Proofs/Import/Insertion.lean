import DocAnnotations.Proofs.Import.Declaration

/-! Statements put into a source: where the preamble ends then, and when one text may stand for
another. -/
namespace DocAnnotations.Import

open QualifiedName Text

variable {known : String → Bool} {file : Option String} {table : AliasTable}
  {cs ds : List Char} {c : Char} {first middle last : State × AliasTable}

/-- The text is read as tokens of its own, whatever follows, and they lead from one state and table
to another. -/
def Reads (known : String → Bool) (file : Option String) (cs : List Char)
    (first last : State × AliasTable) : Prop :=
  ∀ line rest, ∃ tokens, lexFrom line (cs ++ rest) = tokens ++ lexFrom line rest ∧
    Runs known file tokens first last

namespace Reads

theorem nil : Reads known file [] first first :=
  fun _ _ => ⟨[], rfl, .nil⟩

theorem append (hc : Reads known file cs first middle) (hd : Reads known file ds middle last) :
    Reads known file (cs ++ ds) first last := by
  intro line rest
  obtain ⟨front, hfront, hrun⟩ := hc line (ds ++ rest)
  obtain ⟨behind, hbehind, hrun'⟩ := hd line rest
  exact ⟨front ++ behind, by rw [List.append_assoc, hfront, hbehind, List.append_assoc],
    hrun.append hrun'⟩

theorem space (h : Reads known file cs first last) : Reads known file (' ' :: cs) first last := by
  intro line rest
  rw [List.cons_append, lexFrom_blank (by decide) (by decide)]
  exact h line rest

/-- Signs between names. -/
theorem sign (hc : c ∈ [',', '{', '}', ';'])
    (hstep : ∀ line, step known file first ⟨.punct c, line⟩ = .ok middle)
    (h : Reads known file cs middle last) : Reads known file (c :: cs) first last := by
  obtain ⟨hblank, hpart, hmarks⟩ : isBlank c = false ∧ isNamePart c = false ∧
      c ∉ ['<', '?', '/', '#', '"', '\''] := by
    simp only [List.mem_cons, List.not_mem_nil, or_false] at hc
    rcases hc with rfl | rfl | rfl | rfl <;> decide
  intro line rest
  obtain ⟨tokens, heq, hrun⟩ := h line rest
  refine ⟨⟨.punct c, line⟩ :: tokens, ?_, .cons middle (hstep line) hrun⟩
  rw [List.cons_append, lexFrom_sign hblank (cutSkipped_of_not_mem hmarks _) hpart, heq,
    List.cons_append]

theorem word {w : List Char} (hw : IsWord w)
    (hstep : ∀ line, step known file first ⟨.word (String.ofList w), line⟩ = .ok middle)
    (h : Reads known file cs middle last) : Reads known file (w ++ ' ' :: cs) first last := by
  intro line rest
  obtain ⟨tokens, heq, hrun⟩ := h line rest
  refine ⟨⟨.word (String.ofList w), line⟩ :: tokens, ?_, .cons middle (hstep line) hrun⟩
  rw [List.append_assoc, List.cons_append, hw.lexFrom_append (by decide),
    lexFrom_blank (by decide) (by decide), heq, List.cons_append]

end Reads

section Insert

variable {front behind text : List Char}

theorem exists_mem_words_append {w : List Char} (hne : w ≠ []) (hw : ∀ c ∈ w, isBlank c = false)
    (cs : List Char) : ∃ before, before ++ w ∈ words (cs ++ w) := by
  have hsplit := List.rdropWhile_append_rtakeWhile (p := (!isBlank ·)) (l := cs)
  have hlast : ∀ c ∈ (cs.rdropWhile (!isBlank ·)).getLast?, isBlank c = true := by
    intro c hc
    obtain ⟨hcs, rfl⟩ := List.mem_getLast?_eq_getLast hc
    simpa using List.rdropWhile_last_not (!isBlank ·) cs hcs
  have hword : ∀ c ∈ cs.rtakeWhile (!isBlank ·) ++ w, isBlank c = false := by
    refine List.forall_mem_append.mpr ⟨fun c hc => ?_, hw⟩
    simpa using List.mem_rtakeWhile_imp hc
  refine ⟨cs.rtakeWhile (!isBlank ·), ?_⟩
  rw [← congrArg (· ++ w) hsplit, List.append_assoc, words_append_gap hlast,
    words_of_not_blank (by simp [hne]) hword]
  simp

theorem not_isOneOf_append_use {options : List String}
    (hoptions : ∀ o ∈ options, ¬ "use".toList <:+ o.toList) (w : List Char) :
    isOneOf options (w ++ "use".toList) = false := by
  by_contra h
  obtain ⟨o, ho, heq⟩ := List.any_eq_true.mp (Bool.not_eq_false _ ▸ h)
  rw [decide_eq_true_iff, List.map_append] at heq
  exact hoptions o ho ⟨w.map foldCase, heq.symm⟩

/-- A use statement behind a text makes no declaration of its last line. -/
theorem Declares.of_append_use (h : Declares (front ++ ("use ".toList ++ behind))) :
    Declares front := by
  obtain ⟨gap, word, b, rest, heq, hgap, hword, hb⟩ := h
  have heq : front ++ ("use".toList ++ ' ' :: behind) = (gap ++ (word ++ [b])) ++ rest := by
    simpa using heq
  have hwords : words (gap ++ (word ++ [b])) = words gap ++ [word] := by
    rw [words_append_gap hgap.ends, words_append_cons hb,
      words_of_not_blank (ne_nil_of_declarationWord hword) (noBlank_of_declarationWord hword)]
    rfl
  have hdeclares : Declares (gap ++ (word ++ [b])) := ⟨gap, word, b, [], rfl, hgap, hword, hb⟩
  rcases List.append_eq_append_iff.mp heq with ⟨more, hmore, hrest⟩ | ⟨more, rfl, -⟩
  · have huse : IsWord "use".toList := by decide
    by_cases hnil : more = []
    · rwa [hmore, hnil, List.append_nil] at hdeclares
    have hlast : b ∈ more := by
      have hlast := congrArg List.getLast? hmore
      rw [List.getLast?_append_of_ne_nil _ hnil] at hlast
      exact List.mem_of_getLast? (by simpa using hlast.symm)
    have hnot : b ∉ "use".toList := fun hmem => by simp [huse.noBlank b hmem] at hb
    rcases List.append_eq_append_iff.mp hrest with ⟨rest', rfl, hspace⟩ | ⟨rest', hword', -⟩
    · cases rest' with
      | nil => exact absurd (by simpa using hlast) hnot
      | cons d rest' =>
        obtain ⟨rfl, -⟩ := List.cons_eq_cons.mp hspace
        -- The word `use` ends a word of the line, but neither a modifier nor a declaration word.
        obtain ⟨before, hmem⟩ := exists_mem_words_append huse.1 huse.noBlank front
        have hall : before ++ "use".toList ∈ words gap ++ [word] := by
          rw [← hwords, hmore, ← List.append_assoc, words_append_cons (by decide)]
          exact List.mem_append_left _ hmem
        rcases List.mem_append.mp hall with hmem | hmem
        · have hmodifier := hgap.words _ hmem
          rw [not_isOneOf_append_use (by decide)] at hmodifier
          cases hmodifier
        · rw [← List.mem_singleton.mp hmem, not_isOneOf_append_use (by decide)] at hword
          cases hword
    · exact absurd (hword' ▸ List.mem_append_left _ hlast) hnot
  · exact hdeclares.append more

/-- A text that ends no line goes into the line that it stands on, which is the last one of the text
in front unless that one is ended. -/
theorem exists_lines_insert (front : List Char) : ∃ init last,
    lines front = init ++ (if last = [] then [] else [last]) ∧
      ∀ text behind, text ≠ [] → (∀ c ∈ text, isLineEnd c = false) →
        lines (front ++ (text ++ behind)) =
          init ++ (last ++ (text ++ (lines behind).headD [])) :: (lines behind).tail := by
  induction front with
  | nil =>
    exact ⟨[], [], rfl, fun text behind hne htext => lines_append_of_noLineEnd hne htext behind⟩
  | cons c front ih =>
    obtain ⟨init, last, hfront, hlines⟩ := ih
    have hbreaks {text : List Char} (behind : List Char) (hne : text ≠ [])
        (htext : ∀ c ∈ text, isLineEnd c = false) :
        breaksLine c (front ++ (text ++ behind)) = breaksLine c front := by
      cases front with
      | cons d front => rfl
      | nil =>
        obtain ⟨d, text, rfl⟩ := List.exists_cons_of_ne_nil hne
        have hd : d ≠ '\n' := by
          rintro rfl
          exact absurd (htext '\n' List.mem_cons_self) (by decide)
        simp [breaksLine, hd]
    cases hc : breaksLine c front with
    | true =>
      refine ⟨[c] :: init, last, ?_, fun text behind hne htext => ?_⟩
      · rw [lines_cons_of_breaks hc, hfront, List.cons_append]
      · rw [List.cons_append, lines_cons_of_breaks ((hbreaks behind hne htext).trans hc),
          hlines text behind hne htext, List.cons_append]
    | false =>
      cases init with
      | nil =>
        refine ⟨[], c :: last, ?_, fun text behind hne htext => ?_⟩
        · by_cases hlast : last = []
          · have hnil : front = [] := by
              rw [← flatten_lines front, hfront, hlast]
              rfl
            rw [hnil] at hc
            rw [hnil, hlast, lines]
            exact if_neg (by simpa [breaksLine] using hc)
          · rw [if_neg hlast] at hfront
            exact lines_cons_of_not_breaks hc hfront
        · exact lines_cons_of_not_breaks ((hbreaks behind hne htext).trans hc)
            (hlines text behind hne htext)
      | cons i init =>
        refine ⟨(c :: i) :: init, last, lines_cons_of_not_breaks hc hfront,
          fun text behind hne htext => ?_⟩
        exact lines_cons_of_not_breaks ((hbreaks behind hne htext).trans hc)
          (hlines text behind hne htext)

/-- The two parts of the lines in front of a text make up what stands there. -/
theorem flatten_append_of_lines {front last : List Char} {init : List (List Char)}
    (h : lines front = init ++ (if last = [] then [] else [last])) :
    init.flatten ++ last = front := by
  rw [← flatten_lines front, h, List.flatten_append]
  split <;> simp_all

/-- A text on one line that begins with the word `use`. -/
structure BeginsUse (text : List Char) : Prop where
  exists_eq : ∃ cs, text = "use ".toList ++ cs
  noLineEnd : ∀ c ∈ text, isLineEnd c = false

/-- The preamble of a source ends in front of a use statement, or at the same place behind it,
whatever the statement is. -/
theorem preambleOf_insert (front behind : List Char) :
    (∃ read, ∀ text, BeginsUse text → preambleOf (front ++ (text ++ behind)) = read) ∨
      ∃ more, ∀ text, BeginsUse text →
        preambleOf (front ++ (text ++ behind)) = front ++ (text ++ more) := by
  obtain ⟨init, last, hfront, hlines⟩ := exists_lines_insert front
  obtain rfl := flatten_append_of_lines hfront
  generalize hmore : (lines behind).headD [] = more at hlines
  generalize hrest : (lines behind).tail = rest at hlines
  have hlines {text : List Char} (htext : BeginsUse text) :
      lines (init.flatten ++ last ++ (text ++ behind)) =
        init ++ (last ++ (text ++ more)) :: rest := by
    obtain ⟨⟨cs, rfl⟩, hends⟩ := htext
    rw [← hmore, ← hrest]
    exact hlines _ behind (by simp) hends
  by_cases hinit : ∀ line ∈ init, (!beginsDeclaration line) = true
  · by_cases hlast : Declares last
    · refine .inl ⟨init.flatten, fun text htext => ?_⟩
      have hbegins := (hlast.append (text ++ more)).beginsDeclaration
      rw [preambleOf, hlines htext, List.takeWhile_append_of_pos hinit, List.takeWhile_cons_of_neg,
        List.append_nil]
      simpa using hbegins
    · refine .inr ⟨more ++ (rest.takeWhile (!beginsDeclaration ·)).flatten, fun text htext => ?_⟩
      have hnot : ¬ beginsDeclaration (last ++ (text ++ more)) = true := by
        obtain ⟨cs, rfl⟩ := htext.exists_eq
        rw [beginsDeclaration_iff, List.append_assoc]
        exact fun h => hlast h.of_append_use
      rw [preambleOf, hlines htext, List.takeWhile_append_of_pos hinit, List.takeWhile_cons_of_pos]
      · simp
      · simpa using hnot
  · refine .inl ⟨(init.takeWhile (!beginsDeclaration ·)).flatten, fun text htext => ?_⟩
    rw [preambleOf, hlines htext, takeWhile_append_of_not_forall hinit]

end Insert

/-- Behind the text a statement may begin: the word `use` is a token of its own there, and no
statement is left open by the tokens in front of it. -/
structure Ready (known : String → Bool) (file : Option String) (front : List Char) : Prop where
  lexes : ∃ line, ∀ rest, lexFrom 1 (front ++ ("use ".toList ++ rest)) =
    lexFrom 1 front ++ lexFrom line ("use ".toList ++ rest)
  starts : ∀ s, Runs known file (lexFrom 1 front) (.outside true, {}) s → s.1 = .outside true

section Source

variable {front text text' : List Char}

/-- A text is ready if its tokens are those of whole statements. -/
theorem Ready.of_runs {tokens : List Token} {line : Nat}
    (htokens : ∀ rest, lexFrom 1 (front ++ rest) = tokens ++ lexFrom line rest)
    (hruns : Runs known file tokens (.outside true, {}) (.outside true, table)) :
    Ready known file front := by
  have hfront : lexFrom 1 front = tokens := by
    simpa [lexFrom.eq_1] using htokens []
  refine ⟨⟨line, fun rest => by rw [htokens, hfront]⟩, fun last hlast => ?_⟩
  rw [hfront, Runs] at hlast
  rw [Runs, hlast] at hruns
  cases hruns
  rfl

/-- The tokens of a preamble with a statement in it: those in front of it, and those from it on. -/
theorem Ready.lexFrom_append (h : Ready known file front) :
    ∃ line, ∀ text, BeginsUse text → ∀ more, lexFrom 1 (front ++ (text ++ more)) =
      lexFrom 1 front ++ lexFrom line (text ++ more) := by
  obtain ⟨line, hline⟩ := h.lexes
  refine ⟨line, fun text htext more => ?_⟩
  obtain ⟨cs, rfl⟩ := htext.exists_eq
  rw [List.append_assoc "use ".toList]
  exact hline (cs ++ more)

/-- Behind tokens that are read, the table depends on where they lead and on the tokens that
follow. -/
theorem tableOfTokens_append {tokens : List Token} {s : State × AliasTable}
    (h : Runs known file tokens (.outside true, {}) s) (rest : List Token) :
    tableOfTokens known file (tokens ++ rest) = match rest.foldlM (step known file) s with
      | .ok last => finish last
      | .error e => .error (.error e) := by
  rw [tableOfTokens, List.foldlM_append, h]
  rfl

/-- Statements that do the same to every table may stand for one another in a source. -/
theorem ofSource_insert_congr (h : Ready known file front) (htext : BeginsUse text)
    (htext' : BeginsUse text') (hreads : ∀ table, ∃ after,
      Reads known file text (.outside true, table) (.outside true, after) ∧
        Reads known file text' (.outside true, table) (.outside true, after)) (behind : List Char) :
    AliasTable.ofSource known (String.ofList (front ++ (text ++ behind))) file =
      AliasTable.ofSource known (String.ofList (front ++ (text' ++ behind))) file := by
  have hlex (cs : List Char) : lex (preamble (String.ofList cs)) = lexFrom 1 (preambleOf cs) := by
    rw [lex, preamble, String.toList_ofList, String.toList_ofList]
  rw [AliasTable.ofSource, AliasTable.ofSource, hlex, hlex]
  rcases preambleOf_insert front behind with ⟨read, hread⟩ | ⟨more, hread⟩
  · rw [hread text htext, hread text' htext']
  obtain ⟨line, hline⟩ := h.lexFrom_append
  rw [hread text htext, hread text' htext', hline text htext, hline text' htext']
  cases hfront : (lexFrom 1 front).foldlM (step known file) (.outside true, {}) with
  | error e =>
    -- The tokens in front of the statement are not read to their end.
    rw [tableOfTokens, tableOfTokens, List.foldlM_append, List.foldlM_append, hfront]
    rfl
  | ok s =>
    obtain ⟨state, table⟩ := s
    obtain rfl : state = .outside true := h.starts _ hfront
    obtain ⟨after, hfirst, hsecond⟩ := hreads table
    obtain ⟨tokens, htokens, hrun⟩ := hfirst line more
    obtain ⟨tokens', htokens', hrun'⟩ := hsecond line more
    have hall := Runs.append hfront hrun
    have hall' := Runs.append hfront hrun'
    rw [htokens, htokens', ← List.append_assoc, ← List.append_assoc, tableOfTokens_append hall,
      tableOfTokens_append hall']

end Source

end DocAnnotations.Import
