import DocAnnotations.Proofs.Import.Layout

/-! Text in front of the tag that opens code. It is read as code, and changes nothing exactly where
the reader stands as it began behind it. -/
namespace DocAnnotations.Import

open QualifiedName Text

/-- The text is empty or ends in a line feed. -/
def EndsLine (cs : List Char) : Prop :=
  ∀ c ∈ cs.getLast?, c = '\n'

section EndsLine

variable {c : Char} {cs rest : List Char}

theorem EndsLine.of_suffix (h : EndsLine cs) (hrest : rest <:+ cs) : EndsLine rest := by
  obtain ⟨front, rfl⟩ := hrest
  cases hne : rest with
  | nil => exact nofun
  | cons c cs =>
    rw [hne, EndsLine, List.getLast?_append_of_ne_nil _ (List.cons_ne_nil c cs)] at h
    exact h

theorem EndsLine.tail (h : EndsLine (c :: cs)) : EndsLine cs :=
  h.of_suffix (List.suffix_cons c cs)

/-- A character that is no line feed has another one behind it. -/
theorem EndsLine.exists_cons (h : EndsLine (c :: cs)) (hc : c ≠ '\n') :
    ∃ d ds, cs = d :: ds := by
  cases cs with
  | nil => exact absurd (h c rfl) hc
  | cons d ds => exact ⟨d, ds, rfl⟩

theorem EndsLine.newline_mem (h : EndsLine cs) (hne : cs ≠ []) : '\n' ∈ cs := by
  obtain ⟨init, c, rfl⟩ := List.eq_nil_or_concat' cs |>.resolve_left hne
  have hc : c = '\n' := h c (by simp)
  simp [hc]

end EndsLine

/-- The text has no character that can end a comment or a quoted text. -/
def Closeless (cs : List Char) : Prop :=
  ∀ c ∈ cs, c ∉ ['*', '"', '\'']

instance (cs : List Char) : Decidable (Closeless cs) :=
  List.decidableBAll _ cs

section Cut

variable {c quote : Char} {cs skipped rest : List Char}

/-- A block comment ends in a text, or nothing is read behind the text either. -/
theorem cutBlock_cases (h : EndsLine cs) :
    (∀ more, cutBlock (cs ++ more) = ((cutBlock cs).1, (cutBlock cs).2 ++ more)) ∨
      ∀ more, Closeless more → (cutBlock (cs ++ more)).2 = [] := by
  fun_induction cutBlock cs with
  | case1 =>
    refine .inr fun more hmore => ?_
    have hopen : ¬ ['*', '/'] <:+: more := by
      rintro ⟨front, behind, rfl⟩
      exact hmore '*' (by simp) (by simp)
    rw [List.nil_append, cutBlock_open hopen]
  | case2 cs => exact .inl fun more => rfl
  | case3 c cs hnot skipped rest hcut ih =>
    have hnext (more : List Char) : cutBlock (c :: cs ++ more) =
        (c :: (cutBlock (cs ++ more)).1, (cutBlock (cs ++ more)).2) := by
      rw [List.cons_append, cutBlock]
      rintro ds rfl heq
      obtain ⟨d, es, rfl⟩ := h.exists_cons (by decide)
      obtain ⟨rfl, -⟩ := List.cons.inj heq
      exact hnot es rfl rfl
    rw [hcut] at ih
    rcases ih h.tail with ih | ih
    · exact .inl fun more => by rw [hnext, ih]
    · exact .inr fun more hmore => by rw [hnext, ih more hmore]

theorem cutQuoted_of_not_mem (h : quote ∉ cs) : (cutQuoted quote cs).2 = [] := by
  fun_induction cutQuoted quote cs with
  | case1 => rfl
  | case2 c cs skipped rest hcut ih =>
    rw [hcut] at ih
    exact ih fun hmem => h (List.mem_cons_of_mem _ (List.mem_cons_of_mem _ hmem))
  | case3 cs => exact absurd List.mem_cons_self h
  | case4 c cs _ hc skipped rest hcut ih =>
    rw [hcut] at ih
    exact ih fun hmem => h (List.mem_cons_of_mem _ hmem)

theorem cutQuoted_cases (hquote : quote ∈ ['"', '\'']) (h : EndsLine cs) :
    (∀ more, cutQuoted quote (cs ++ more) =
      ((cutQuoted quote cs).1, (cutQuoted quote cs).2 ++ more)) ∨
        ∀ more, Closeless more → (cutQuoted quote (cs ++ more)).2 = [] := by
  fun_induction cutQuoted quote cs with
  | case1 =>
    refine .inr fun more hmore => cutQuoted_of_not_mem fun hmem => ?_
    exact hmore quote hmem (List.mem_cons_of_mem _ hquote)
  | case2 c cs skipped rest hcut ih =>
    rw [hcut] at ih
    rcases ih h.tail.tail with ih | ih
    · exact .inl fun more => by rw [List.cons_append, List.cons_append, cutQuoted, ih]
    · refine .inr fun more hmore => ?_
      rw [List.cons_append, List.cons_append, cutQuoted]
      exact ih more hmore
  | case3 cs hguard =>
    refine .inl fun more => ?_
    have hsafe : quote ≠ '\\' := by
      rintro rfl
      exact absurd hquote (by decide)
    rw [List.cons_append, cutQuoted, if_pos rfl]
    exact fun _ _ hslash _ => hsafe hslash
  | case4 c cs hguard hc skipped rest hcut ih =>
    have hnext (more : List Char) : cutQuoted quote (c :: cs ++ more) =
        (c :: (cutQuoted quote (cs ++ more)).1, (cutQuoted quote (cs ++ more)).2) := by
      rw [List.cons_append, cutQuoted, if_neg hc]
      rintro d ds rfl heq
      obtain ⟨e, es, rfl⟩ := h.exists_cons (by decide)
      exact hguard e es rfl rfl
    rw [hcut] at ih
    rcases ih h.tail with ih | ih
    · exact .inl fun more => by rw [hnext, ih]
    · exact .inr fun more hmore => by rw [hnext, ih more hmore]

theorem cutSkipped_quote (hc : c = '"' ∨ c = '\'') (cs : List Char) :
    cutSkipped c cs = some (cutQuoted c cs) := by
  rcases hc with rfl | rfl <;> simp [cutSkipped]

/-- A run of characters of a line ends in it. -/
theorem EndsLine.takeWhile_append (h : EndsLine cs) (hne : cs ≠ []) {p : Char → Bool}
    (hp : p '\n' = false) (more : List Char) :
    (cs ++ more).takeWhile p = cs.takeWhile p ∧
      (cs ++ more).dropWhile p = cs.dropWhile p ++ more := by
  have hnot : ¬ ∀ c ∈ cs, p c = true := fun hall => by
    simpa [hp] using hall '\n' (h.newline_mem hne)
  refine ⟨takeWhile_append_of_not_forall hnot more, ?_⟩
  rw [List.dropWhile_append, if_neg fun hempty => hnot ?_]
  exact List.dropWhile_eq_nil_iff.mp (List.isEmpty_iff.mp hempty)

/-- What is passed over ends in a text, or nothing is read behind the text either. -/
theorem cutSkipped_cases (h : EndsLine (c :: cs)) (hskip : cutSkipped c cs = some (skipped, rest)) :
    (∀ more, cutSkipped c (cs ++ more) = some (skipped, rest ++ more)) ∨
      ∀ more, Closeless more → ∃ taken, cutSkipped c (cs ++ more) = some (taken, []) := by
  have hne : c ≠ '\n' := by
    rintro rfl
    simp [cutSkipped] at hskip
  have hcs := h.tail
  simp only [cutSkipped] at hskip
  split at hskip
  next =>
    cases hskip
    exact .inl fun more => rfl
  next hphp =>
    cases hskip
    refine .inl fun more => ?_
    rw [List.cons_append, cutSkipped]
    -- The letters of the tag do not go on behind the line.
    intro tail heq
    obtain ⟨p, ps, rfl⟩ := hcs.exists_cons (by decide)
    rw [List.cons_append, List.cons.injEq] at heq
    obtain ⟨rfl, hfirst⟩ := heq
    obtain ⟨d, ds, rfl⟩ := hcs.tail.exists_cons (by decide)
    rw [List.cons_append, List.cons.injEq] at hfirst
    obtain ⟨rfl, hsecond⟩ := hfirst
    obtain ⟨e, es, rfl⟩ := hcs.tail.tail.exists_cons (by decide)
    rw [List.cons_append, List.cons.injEq] at hsecond
    obtain ⟨rfl, -⟩ := hsecond
    exact hphp es rfl
  next =>
    cases hskip
    exact .inl fun more => rfl
  next behind =>
    cases hskip
    obtain ⟨e, es, rfl⟩ := hcs.exists_cons (by decide)
    refine .inl fun more => ?_
    obtain ⟨htake, hdrop⟩ :=
      hcs.tail.takeWhile_append (p := (· ≠ '\n')) (List.cons_ne_nil e es) (by decide) more
    rw [List.cons_append, cutSkipped, htake, hdrop]
  next behind =>
    cases hskip
    rcases cutBlock_cases hcs.tail with hblock | hblock
    · exact .inl fun more => by rw [List.cons_append, cutSkipped, hblock]
    · refine .inr fun more hmore => ⟨'*' :: (cutBlock (behind ++ more)).1, ?_⟩
      rw [List.cons_append, cutSkipped, hblock more hmore]
  next =>
    obtain ⟨d, ds, rfl⟩ := h.exists_cons hne
    split at hskip
    next => cases hskip
    next hbracket =>
      cases hskip
      refine .inl fun more => ?_
      obtain ⟨htake, hdrop⟩ :=
        hcs.takeWhile_append (p := (· ≠ '\n')) (List.cons_ne_nil d ds) (by decide) more
      rw [← htake, ← hdrop, cutSkipped, if_neg (by simpa using hbracket)]
  next =>
    split at hskip
    next hquote =>
      have hmem : c ∈ ['"', '\''] := by simpa using hquote
      rcases cutQuoted_cases hmem hcs with hcut | hcut
      · refine .inl fun more => ?_
        rw [cutSkipped_quote hquote, hcut, Option.some.inj hskip]
      · refine .inr fun more hmore => ⟨(cutQuoted c (cs ++ more)).1, ?_⟩
        rw [cutSkipped_quote hquote, ← hcut more hmore]
    next => cases hskip

/-- Whether something is passed over shows at the next character. -/
theorem cutSkipped_none_append (h : EndsLine (c :: cs)) (hne : c ≠ '\n')
    (hskip : cutSkipped c cs = none) (more : List Char) : cutSkipped c (cs ++ more) = none := by
  obtain ⟨d, ds, rfl⟩ := h.exists_cons hne
  rw [cutSkipped_eq_none_iff] at hskip ⊢
  exact hskip

end Cut

/-- What follows the text is not read, as long as nothing in it ends a comment or a quoted text. -/
def Swallows (cs : List Char) (ls : List Lexeme) : Prop :=
  ∀ line more, Closeless more → (lexFrom line (cs ++ more)).map Token.lexeme = ls

section Cases

variable {cs rest : List Char}

theorem lexes_or_swallows_of_step (ks : List Lexeme)
    (hstep : ∀ line more, ∃ next, (lexFrom line (cs ++ more)).map Token.lexeme =
      ks ++ (lexFrom next (rest ++ more)).map Token.lexeme)
    (h : ∃ ls, Lexes rest ls ∨ Swallows rest ls) : ∃ ls, Lexes cs ls ∨ Swallows cs ls := by
  obtain ⟨ls, h⟩ := h
  refine ⟨ks ++ ls, h.imp (fun h line more => ?_) fun h line more hmore => ?_⟩
  · obtain ⟨middle, hfirst⟩ := hstep line more
    obtain ⟨next, hrest⟩ := h middle more
    exact ⟨next, by rw [hfirst, hrest, List.append_assoc]⟩
  · obtain ⟨middle, hfirst⟩ := hstep line more
    rw [hfirst, h middle more hmore]

/-- Whole lines are read by themselves, or they leave a comment or a quoted text open. -/
theorem EndsLine.lexes_or_swallows (h : EndsLine cs) : ∃ ls, Lexes cs ls ∨ Swallows cs ls := by
  fun_induction lexFrom 1 cs with
  | case1 => exact ⟨[], .inl .nil⟩
  | case2 line cs ih =>
    refine lexes_or_swallows_of_step [] (fun line more => ⟨line + 1, ?_⟩) (ih h.tail)
    rw [List.cons_append, lexFrom, if_pos rfl]
    rfl
  | case3 line c cs hline hblank ih =>
    refine lexes_or_swallows_of_step [] (fun line more => ⟨line, ?_⟩) (ih h.tail)
    rw [List.cons_append, lexFrom_blank hblank hline]
    rfl
  | case4 line c cs hline hblank skipped rest hskip ih =>
    rw [Bool.not_eq_true] at hblank
    have hrest : rest <:+ cs := ⟨skipped, cutSkipped_append hskip⟩
    rcases cutSkipped_cases h hskip with hcut | hcut
    · refine lexes_or_swallows_of_step [] (fun line more => ⟨line + skipped.count '\n', ?_⟩)
        (ih (h.tail.of_suffix hrest))
      rw [List.cons_append, lexFrom_skip hblank (hcut more)]
      rfl
    · refine ⟨[], .inr fun line more hmore => ?_⟩
      obtain ⟨taken, htaken⟩ := hcut more hmore
      rw [List.cons_append, lexFrom_skip hblank htaken, lexFrom]
      rfl
  | case5 line c cs hline hblank hskip hc ih =>
    have hpart : isNamePart '\n' = false := by decide
    refine lexes_or_swallows_of_step [.word (String.ofList (c :: cs.takeWhile isNamePart))]
      (fun line more => ⟨line, ?_⟩) (ih (h.tail.of_suffix (List.dropWhile_suffix _)))
    obtain ⟨d, ds, rfl⟩ := h.exists_cons hline
    obtain ⟨htake, hdrop⟩ := h.tail.takeWhile_append (List.cons_ne_nil d ds) hpart more
    rw [List.cons_append, lexFrom_word hc, htake, hdrop]
    rfl
  | case6 line c cs hline hblank hskip hc ih =>
    rw [Bool.not_eq_true] at hblank hc
    refine lexes_or_swallows_of_step [.punct c] (fun line more => ⟨line, ?_⟩) (ih h.tail)
    rw [List.cons_append, lexFrom_sign hblank (cutSkipped_none_append h hline hskip more) hc]
    rfl

end Cases

/-- The text in front of the code is read without a trace: no line of it looks like the declaration
of a class, and behind its tokens the reader stands as it began. -/
structure Traceless (known : String → Bool) (markup : List Char) : Prop where
  plain : ∀ line ∈ lines (markup ++ ['\n']), ¬ Declares line
  unread : ∃ ls, Lexes (markup ++ ['\n']) ls ∧
    readLexemes known (.outside true, {}) ls = some (.outside true, {})

section Markup

variable {known : String → Bool} {file : Option String} {markup code : List Char}

theorem endsLine_append_newline (cs : List Char) : EndsLine (cs ++ ['\n']) := by
  intro c hc
  simpa [eq_comm] using hc

theorem toOption_ofSource_append (hplain : ∀ line ∈ lines (markup ++ ['\n']), ¬ Declares line) :
    (AliasTable.ofSource known (String.ofList (markup ++ '\n' :: code)) file).toOption =
      tableOf? known
        ((lexFrom 1 ((markup ++ ['\n']) ++ preambleOf code)).map Token.lexeme) := by
  rw [toOption_ofSource, preambleOf_append_newline hplain]
  simp

theorem toOption_ofSource_of_lexes (hplain : ∀ line ∈ lines (markup ++ ['\n']), ¬ Declares line)
    {ls : List Lexeme} (hls : Lexes (markup ++ ['\n']) ls) :
    (AliasTable.ofSource known (String.ofList (markup ++ '\n' :: code)) file).toOption =
      tableOf? known (ls ++ (lexFrom 1 (preambleOf code)).map Token.lexeme) := by
  obtain ⟨next, heq⟩ := hls 1 (preambleOf code)
  rw [toOption_ofSource_append hplain, heq, lexemes_lexFrom next 1]

theorem Traceless.toOption_ofSource (h : Traceless known markup) :
    (AliasTable.ofSource known (String.ofList (markup ++ '\n' :: code)) file).toOption =
      (AliasTable.ofSource known (String.ofList code) file).toOption := by
  obtain ⟨hplain, ls, hls, hread⟩ := h
  rw [toOption_ofSource_of_lexes hplain hls, Import.toOption_ofSource, tableOf?, readLexemes_append,
    hread]
  rfl

/-- A short piece of code in a namespace of the given name. -/
def scopedCode (name : String) : List Char :=
  "<?php".toList ++ ("\nnamespace ".toList ++ (name.toList ++ ";\n".toList))

def scopedLexemes (name : String) : List Lexeme :=
  [.word "namespace", .word name, .punct ';']

theorem read_scopedCode : ∀ name ∈ ["A", "B"],
    (lexFrom 1 (preambleOf (scopedCode name))).map Token.lexeme = scopedLexemes name ∧
      Closeless (preambleOf (scopedCode name)) := by
  decide +kernel

theorem lower_namespace : lower "namespace" = "namespace" := by decide

theorem read_scopedLexemes (table : AliasTable) (name : String) :
    readLexemes known (.outside true, table) (scopedLexemes name) =
      some (.outside true, { table with scope := dropOuter name }) := by
  simp [scopedLexemes, readLexemes_cons, readLexemes_nil, stepLexeme, step, stepOutside,
    lower_namespace, Except.toOption]

section Inside

variable {table : AliasTable} {name : String}

theorem read_outside (first second : String) :
    readLexemes known (.outside false, table) [.word first, .word second, .punct ';'] =
      some (.outside true, table) :=
  rfl

theorem read_ignored (first second : String) :
    readLexemes known (.ignored, table) [.word first, .word second, .punct ';'] =
      some (.outside true, table) :=
  rfl

theorem read_importing (clause : Clause) (first second : String) :
    readLexemes known (.importing clause, table) [.word first, .word second, .punct ';'] =
      some (.outside true, record known table ((clause.addWord first).addWord second)) :=
  rfl

theorem stepLexeme_opened :
    stepLexeme known (.opened, table) (.word "namespace") =
      stepLexeme known (.importing {}, table) (.word "namespace") := by
  simp [stepLexeme, step, lower_namespace]

theorem toOption_finish_outside (atStart : Bool) :
    (finish (.outside atStart, table)).toOption = some table :=
  rfl

/-- Inside another statement, or behind a part of one, a namespace statement does not count. -/
theorem scope_of_read {state : State} {last : AliasTable} (hstart : state ≠ .outside true)
    (hscope : ∀ name, state ≠ .scope name)
    (h : (readLexemes known (state, table) (scopedLexemes name)).bind
      (fun s => (finish s).toOption) = some last) : last.scope = table.scope := by
  have himport (clause : Clause) (h : (readLexemes known (.importing clause, table)
      (scopedLexemes name)).bind (fun s => (finish s).toOption) = some last) :
      last.scope = table.scope := by
    rw [scopedLexemes, read_importing, Option.bind_some, toOption_finish_outside] at h
    obtain rfl := Option.some.inj h
    exact record_scope _
  cases state with
  | outside atStart =>
    cases atStart with
    | true => exact absurd rfl hstart
    | false =>
      rw [scopedLexemes, read_outside, Option.bind_some, toOption_finish_outside] at h
      obtain rfl := Option.some.inj h
      rfl
  | scope name => exact absurd rfl (hscope name)
  | opened =>
    refine himport {} ?_
    rwa [scopedLexemes, readLexemes_cons, stepLexeme_opened, ← readLexemes_cons] at h
  | ignored =>
    rw [scopedLexemes, read_ignored, Option.bind_some, toOption_finish_outside] at h
    obtain rfl := Option.some.inj h
    rfl
  | importing clause => exact himport clause h

end Inside

/-- The text in front makes no difference, whatever the code is. -/
def Unchanged (known : String → Bool) (file : Option String) (markup : List Char) : Prop :=
  ∀ code, (AliasTable.ofSource known
      (String.ofList (markup ++ '\n' :: ("<?php".toList ++ code))) file).toOption =
    (AliasTable.ofSource known (String.ofList ("<?php".toList ++ code)) file).toOption

namespace Unchanged

theorem toOption_scopedCode (h : Unchanged known file markup) : ∀ name ∈ ["A", "B"],
    (AliasTable.ofSource known (String.ofList (markup ++ '\n' :: scopedCode name)) file).toOption =
      some { scope := name } := by
  intro name hname
  have hcode : (AliasTable.ofSource known
      (String.ofList (markup ++ '\n' :: scopedCode name)) file).toOption =
        (AliasTable.ofSource known (String.ofList (scopedCode name)) file).toOption :=
    h ("\nnamespace ".toList ++ (name.toList ++ ";\n".toList))
  have houter : ∀ name ∈ ["A", "B"], dropOuter name = name := by decide
  rw [hcode, toOption_ofSource, (read_scopedCode name hname).1, tableOf?, read_scopedLexemes,
    Option.bind_some, toOption_finish_outside, houter name hname]

/-- Two pieces of code in different namespaces are told apart. -/
theorem not_constant (h : Unchanged known file markup) (result : Option AliasTable) :
    ¬ ∀ name ∈ ["A", "B"], (AliasTable.ofSource known
      (String.ofList (markup ++ '\n' :: scopedCode name)) file).toOption = result := by
  intro hresult
  have ha := hresult "A" (by simp)
  have hb := hresult "B" (by simp)
  rw [← hb, h.toOption_scopedCode "A" (by simp), h.toOption_scopedCode "B" (by simp)] at ha
  simp at ha

theorem plain (h : Unchanged known file markup) :
    ∀ line ∈ lines (markup ++ ['\n']), ¬ Declares line := by
  by_contra hdeclares
  have hline : ∃ line ∈ lines (markup ++ ['\n']), Declares line := by simpa using hdeclares
  have hcut (name : String) : preambleOf (markup ++ '\n' :: scopedCode name) =
      preambleOf (markup ++ ['\n']) := by
    rw [← preambleOf_append_of_declares hline (scopedCode name), List.append_assoc]
    rfl
  apply h.not_constant (tableOf? known ((lexFrom 1 (preambleOf (markup ++ ['\n']))).map
    Token.lexeme))
  intro name _
  rw [toOption_ofSource, hcut]

/-- The text does not leave a comment or a quoted text open. -/
theorem exists_lexes (h : Unchanged known file markup) : ∃ ls, Lexes (markup ++ ['\n']) ls := by
  obtain ⟨ls, hls | hls⟩ := (endsLine_append_newline markup).lexes_or_swallows
  · exact ⟨ls, hls⟩
  · exfalso
    apply h.not_constant (tableOf? known ls)
    intro name hname
    rw [toOption_ofSource_append h.plain, hls 1 _ (read_scopedCode name hname).2]

/-- Code without statements shows the table behind the text, and a namespace statement its state. -/
theorem readLexemes_eq (h : Unchanged known file markup) {ls : List Lexeme}
    (hls : Lexes (markup ++ ['\n']) ls) :
    readLexemes known (.outside true, {}) ls = some (.outside true, {}) := by
  have hempty : (lexFrom 1 (preambleOf ("<?php".toList ++ ['\n']))).map Token.lexeme = [] := by
    decide +kernel
  have hnone : tableOf? known ls = some {} := by
    have hcode := h ['\n']
    rwa [toOption_ofSource_of_lexes h.plain hls, toOption_ofSource, hempty,
      List.append_nil] at hcode
  obtain ⟨⟨state, table⟩, hread, hfinish⟩ := Option.bind_eq_some_iff.mp hnone
  have hscope (name : String) : state ≠ .scope name := by
    rintro rfl
    cases hfinish
  have htable : table = {} := by
    cases state with
    | scope | ignored => cases hfinish
    | outside | opened | importing => exact Option.some.inj hfinish
  subst htable
  by_cases hstart : state = .outside true
  · rw [hread, hstart]
  · have ha := h.toOption_scopedCode "A" (by simp)
    rw [toOption_ofSource_of_lexes h.plain hls, (read_scopedCode "A" (by simp)).1, tableOf?_append,
      hread, Option.bind_some] at ha
    have heq : "A" = "" := scope_of_read hstart hscope ha
    simp at heq

theorem traceless (h : Unchanged known file markup) : Traceless known markup := by
  obtain ⟨ls, hls⟩ := h.exists_lexes
  exact ⟨h.plain, ls, hls, h.readLexemes_eq hls⟩

end Unchanged

/-- Text in front of the tag that opens code changes nothing, whatever the code is, if and only if
it is read without a trace. -/
theorem ofSource_markup_iff (known : String → Bool) (file : Option String) (markup : List Char) :
    (∀ code, (AliasTable.ofSource known
        (String.ofList (markup ++ '\n' :: ("<?php".toList ++ code))) file).toOption =
      (AliasTable.ofSource known (String.ofList ("<?php".toList ++ code)) file).toOption) ↔
        Traceless known markup := by
  constructor
  · intro h
    exact Unchanged.traceless h
  · intro h code
    exact h.toOption_ofSource

/-- A heading takes the namespace statement behind it away. -/
theorem ofSource_heading_ne :
    let code := "<?php\nnamespace App;\n\nclass Page \x7b\x7d\n"
    AliasTable.ofSource (fun _ => false) ("<h1>title</h1>\n" ++ code) none = .ok {} ∧
      AliasTable.ofSource (fun _ => false) code none = .ok { scope := "App" } ∧
      ¬ ['<', '?'] <:+: "<h1>title</h1>".toList :=
  ⟨(ofSource_of_chars none (append_of_chars rfl rfl)).trans (by decide +kernel),
    (ofSource_of_chars none rfl).trans (by decide +kernel), by decide +kernel⟩

theorem readLexemes_idles {atStart : Bool} {ls : List Lexeme} (h : Idles atStart ls)
    (table : AliasTable) : readLexemes known (.outside atStart, table) ls =
      some (.outside ((ls.getLast?.map endsStatement).getD atStart), table) := by
  have hlexemes : (ls.map fun l => (⟨l, 1⟩ : Token)).map Token.lexeme = ls := by
    rw [List.map_map]
    exact List.map_id ls
  have hrun : Runs known none (ls.map fun l => ⟨l, 1⟩) (.outside atStart, table) _ :=
    .idles (hlexemes.symm ▸ h)
  have hread : ((ls.map fun l => ⟨l, 1⟩).foldlM (step known none)
      (.outside atStart, table)).toOption = _ := toOption_foldlM _
  rw [hrun, hlexemes] at hread
  exact hread.symm

/-- Text in which no word begins a statement leaves no trace if its last token ends one. -/
theorem traceless_iff_of_idles (hplain : ∀ line ∈ lines (markup ++ ['\n']), ¬ Declares line)
    {ls : List Lexeme} (hls : Lexes (markup ++ ['\n']) ls) (hidles : Idles true ls) :
    Traceless known markup ↔ ∀ last ∈ ls.getLast?, endsStatement last = true := by
  have hlast : (ls.getLast?.map endsStatement).getD true = true ↔
      ∀ last ∈ ls.getLast?, endsStatement last = true := by
    cases ls.getLast? with
    | none => simp
    | some last => simp
  have hread : readLexemes known (.outside true, {}) ls = _ := readLexemes_idles hidles {}
  rw [← hlast]
  constructor
  · rintro ⟨-, ks, hks, hks'⟩
    rw [← hks.eq_lexFrom, hls.eq_lexFrom, hread] at hks'
    simpa using hks'
  · intro hends
    rw [hends] at hread
    exact ⟨hplain, ls, hls, hread⟩

end Markup

end DocAnnotations.Import
