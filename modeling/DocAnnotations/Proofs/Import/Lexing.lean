import DocAnnotations.Proofs.Import.Preamble

/-! How the words of a text are read, and where the text in front of a class ends. -/
namespace DocAnnotations.Import

open QualifiedName Text

/-- A word as names are made of it: letters and numbers of any script, underscores and
backslashes. -/
def IsWord (w : List Char) : Prop :=
  w ≠ [] ∧ ∀ c ∈ w, isNamePart c = true

instance (w : List Char) : Decidable (IsWord w) :=
  @instDecidableAnd _ _ inferInstance (List.decidableBAll _ w)

theorem IsWord.noBlank {w : List Char} (h : IsWord w) : ∀ c ∈ w, isBlank c = false :=
  fun c hc => isBlank_of_isNamePart (h.2 c hc)

section Step

variable {line : Nat} {c : Char} {cs : List Char}

/-- Whether something is passed over behind a character, by the character that follows it. -/
def opensSkipped (c : Char) (next : Option Char) : Bool :=
  c = '<' && next = some '?' || c = '?' && next = some '>' ||
    c = '/' && (next = some '/' || next = some '*') || c = '#' && next ≠ some '[' ||
    c = '"' || c = '\''

theorem cutSkipped_eq_none_iff :
    cutSkipped c cs = none ↔ opensSkipped c cs.head? = false := by
  simp only [cutSkipped]
  split <;> simp_all [opensSkipped, List.head?_eq_some_iff]

theorem cutSkipped_of_not_mem (hc : c ∉ ['<', '?', '/', '#', '"', '\'']) (cs : List Char) :
    cutSkipped c cs = none := by
  rw [cutSkipped_eq_none_iff]
  simp only [List.mem_cons, List.not_mem_nil, or_false, not_or] at hc
  obtain ⟨hless, hquestion, hslash, hhash, hdouble, hsingle⟩ := hc
  simp [opensSkipped, hless, hquestion, hslash, hhash, hdouble, hsingle]

theorem cutSkipped_of_isNamePart (hc : isNamePart c = true) (cs : List Char) :
    cutSkipped c cs = none := by
  have hmarks : ['<', '?', '/', '#', '"', '\''].all (!isNamePart ·) = true := by decide
  refine cutSkipped_of_not_mem (fun hmem => ?_) cs
  have hmark := List.all_eq_true.mp hmarks c hmem
  simp [hc] at hmark

theorem ne_newline_of_not_blank (hblank : isBlank c = false) : c ≠ '\n' := by
  rintro rfl
  exact absurd hblank (by decide)

theorem lexFrom_skip {skipped rest : List Char} (hblank : isBlank c = false)
    (hskip : cutSkipped c cs = some (skipped, rest)) :
    lexFrom line (c :: cs) = lexFrom (line + skipped.count '\n') rest := by
  rw [lexFrom, if_neg (ne_newline_of_not_blank hblank), hblank, if_neg Bool.false_ne_true]
  split
  next hsome =>
    rw [hskip] at hsome
    cases hsome
    rfl
  next hnone =>
    rw [hskip] at hnone
    cases hnone

theorem lexFrom_token (hblank : isBlank c = false) (hskip : cutSkipped c cs = none) :
    lexFrom line (c :: cs) =
      if isNamePart c then
        ⟨.word (String.ofList (c :: cs.takeWhile isNamePart)), line⟩
          :: lexFrom line (cs.dropWhile isNamePart)
      else ⟨.punct c, line⟩ :: lexFrom line cs := by
  rw [lexFrom, if_neg (ne_newline_of_not_blank hblank), hblank, if_neg Bool.false_ne_true]
  split
  next hsome =>
    rw [hskip] at hsome
    cases hsome
  next => rfl

theorem lexFrom_blank (hblank : isBlank c = true) (hline : c ≠ '\n') (cs : List Char) :
    lexFrom line (c :: cs) = lexFrom line cs := by
  rw [lexFrom, if_neg hline, if_pos hblank]

theorem lexFrom_word (hc : isNamePart c = true) (cs : List Char) : lexFrom line (c :: cs) =
    ⟨.word (String.ofList (c :: cs.takeWhile isNamePart)), line⟩ ::
      lexFrom line (cs.dropWhile isNamePart) := by
  rw [lexFrom_token (isBlank_of_isNamePart hc) (cutSkipped_of_isNamePart hc cs), if_pos hc]

theorem lexFrom_sign (hblank : isBlank c = false) (hskip : cutSkipped c cs = none)
    (hc : isNamePart c = false) : lexFrom line (c :: cs) = ⟨.punct c, line⟩ :: lexFrom line cs := by
  rw [lexFrom_token hblank hskip, hc, if_neg Bool.false_ne_true]

/-- What is read of a text does not depend on the line that it begins on. -/
theorem lexemes_lexFrom (line line' : Nat) (cs : List Char) :
    (lexFrom line cs).map Token.lexeme = (lexFrom line' cs).map Token.lexeme := by
  fun_induction lexFrom line cs generalizing line' with
  | case1 => rw [lexFrom]
  | case2 line cs ih => rw [ih (line' + 1), lexFrom.eq_def line' ('\n' :: cs)]; rfl
  | case3 line c cs hline hblank ih => rw [ih line', lexFrom_blank hblank hline]
  | case4 line c cs hline hblank skipped rest hskip ih =>
    rw [lexFrom_skip (by simpa using hblank) hskip]
    exact ih _
  | case5 line c cs hline hblank hskip hc ih =>
    rw [lexFrom_word hc, List.map_cons, List.map_cons, ih line']
  | case6 line c cs hline hblank hskip hc ih =>
    rw [lexFrom_sign (by simpa using hblank) hskip (by simpa using hc), List.map_cons,
      List.map_cons, ih line']

/-- A word ends where a character follows that is part of none. -/
theorem IsWord.lexFrom_append {w : List Char} (hw : IsWord w) (hc : isNamePart c = false)
    (cs : List Char) :
    lexFrom line (w ++ c :: cs) = ⟨.word (String.ofList w), line⟩ :: lexFrom line (c :: cs) := by
  obtain ⟨hne, hw⟩ := hw
  obtain ⟨first, w, rfl⟩ := List.exists_cons_of_ne_nil hne
  obtain ⟨hfirst, hrest⟩ := List.forall_mem_cons.mp hw
  have hend : ¬ isNamePart c = true := by simp [hc]
  rw [List.cons_append, lexFrom_word hfirst, List.takeWhile_append_of_pos hrest,
    List.dropWhile_append_of_pos hrest, List.takeWhile_cons_of_neg hend,
    List.dropWhile_cons_of_neg hend, List.append_nil]

end Step

theorem IsWord.noLineEnd {w : List Char} (h : IsWord w) : ∀ c ∈ w, isLineEnd c = false := by
  intro c hc
  by_contra hend
  have hblank := isBlank_of_isLineEnd (Bool.not_eq_false _ ▸ hend)
  simp [h.noBlank c hc] at hblank

theorem noLineEnd_of_mem {cs : List Char} {c : Char} (h : cs.all (!isLineEnd ·) = true)
    (hc : c ∈ cs) : isLineEnd c = false := by
  simpa using List.all_eq_true.mp h c hc

/-- A text is read as these lexemes, whatever follows it. -/
def Lexes (cs : List Char) (lexemes : List Lexeme) : Prop :=
  ∀ line rest, ∃ next, (lexFrom line (cs ++ rest)).map Token.lexeme =
    lexemes ++ (lexFrom next rest).map Token.lexeme

namespace Lexes

variable {cs ds : List Char} {ks ls : List Lexeme} {c : Char}

theorem nil : Lexes [] [] := fun line _ => ⟨line, rfl⟩

theorem eq_lexFrom (h : Lexes cs ls) : (lexFrom 1 cs).map Token.lexeme = ls := by
  obtain ⟨next, heq⟩ := h 1 []
  rwa [List.append_nil, lexFrom.eq_1, List.map_nil, List.append_nil] at heq

theorem append (hc : Lexes cs ks) (hd : Lexes ds ls) : Lexes (cs ++ ds) (ks ++ ls) := by
  intro line rest
  obtain ⟨middle, hfirst⟩ := hc line (ds ++ rest)
  obtain ⟨next, hsecond⟩ := hd middle rest
  exact ⟨next, by rw [List.append_assoc, hfirst, hsecond, List.append_assoc]⟩

theorem blank (hc : isBlank c = true) (h : Lexes cs ls) : Lexes (c :: cs) ls := by
  intro line rest
  rw [List.cons_append, lexFrom, hc, if_pos rfl]
  split
  next => exact h (line + 1) rest
  next => exact h line rest

theorem blanks {indent : List Char} (hindent : ∀ c ∈ indent, isBlank c = true)
    (h : Lexes cs ls) : Lexes (indent ++ cs) ls := by
  induction indent with
  | nil => exact h
  | cons c indent ih =>
    exact blank (hindent c (by simp)) (ih fun d hd => hindent d (by simp [hd]))

/-- The tag that opens code is passed over. -/
theorem tag (h : Lexes cs ls) : Lexes ("<?php".toList ++ cs) ls := by
  intro line rest
  have hskip : cutSkipped '<' ("?php".toList ++ (cs ++ rest)) = some ("?php".toList, cs ++ rest) :=
    rfl
  obtain ⟨next, heq⟩ := h line rest
  refine ⟨next, ?_⟩
  rw [← heq, List.append_assoc]
  exact congrArg _ (lexFrom_skip (by decide) hskip)

/-- A character that is part of no word, and behind which nothing is passed over, is a token. -/
theorem sign (hpart : isNamePart c = false) (hblank : isBlank c = false)
    (hskip : ∀ rest, cutSkipped c (cs ++ rest) = none) (h : Lexes cs ls) :
    Lexes (c :: cs) (.punct c :: ls) := by
  intro line rest
  obtain ⟨next, heq⟩ := h line rest
  refine ⟨next, ?_⟩
  rw [List.cons_append, lexFrom_sign hblank (hskip rest) hpart, List.map_cons, heq]
  rfl

/-- A sign that ends a statement is a token. -/
theorem punct (hc : endsStatement (.punct c) = true) (h : Lexes cs ls) :
    Lexes (c :: cs) (.punct c :: ls) := by
  simp only [endsStatement, Bool.or_eq_true, decide_eq_true_eq, Lexeme.punct.injEq] at hc
  rcases hc with (rfl | rfl) | rfl <;>
    exact sign (by decide) (by decide) (fun rest => by simp [cutSkipped]) h

/-- The signs that open an attribute are tokens. -/
theorem openAttribute (h : Lexes cs ls) :
    Lexes ('#' :: '[' :: cs) (.punct '#' :: .punct '[' :: ls) :=
  sign (by decide) (by decide) (fun _ => rfl)
    (sign (by decide) (by decide) (fun rest => by simp [cutSkipped]) h)

theorem word {w : List Char} (hw : IsWord w) (hc : isNamePart c = false) (h : Lexes (c :: cs) ls) :
    Lexes (w ++ c :: cs) (.word (String.ofList w) :: ls) := by
  intro line rest
  obtain ⟨next, heq⟩ := h line rest
  refine ⟨next, ?_⟩
  rw [List.append_assoc, List.cons_append, hw.lexFrom_append hc, List.map_cons, ← List.cons_append,
    heq]
  rfl

theorem name {w : String} (hw : IsWord w.toList) (hc : isNamePart c = false)
    (h : Lexes (c :: cs) ls) : Lexes (w.toList ++ c :: cs) (.word w :: ls) := by
  simpa using word hw hc h

theorem spaced {w : String} (hw : IsWord w.toList) (h : Lexes cs ls) :
    Lexes (w.toList ++ ' ' :: cs) (.word w :: ls) :=
  name hw (by decide) (blank (by decide) h)

end Lexes

/-- A line that begins no declaration. -/
structure Passed (line : List Char) : Prop where
  exists_eq : ∃ cs, line = cs ++ ['\n'] ∧ ∀ c ∈ cs, isLineEnd c = false
  begins : beginsDeclaration line = false

theorem lines_flatten_append {ls : List (List Char)} (hls : ∀ l ∈ ls, Passed l)
    (rest : List Char) : lines (ls.flatten ++ rest) = ls ++ lines rest := by
  induction ls with
  | nil => rfl
  | cons l ls ih =>
    obtain ⟨cs, rfl, hends⟩ := (hls l (by simp)).exists_eq
    rw [List.flatten_cons, List.append_assoc, List.append_assoc, List.singleton_append,
      lines_append hends, ih fun k hk => hls k (by simp [hk])]
    rfl

/-- The preamble ends where a line begins a declaration. -/
theorem preambleOf_append {ls : List (List Char)} {rest : List Char} (hls : ∀ l ∈ ls, Passed l)
    (hrest : ∀ l ∈ (lines rest).head?, beginsDeclaration l = true) :
    preambleOf (ls.flatten ++ rest) = ls.flatten := by
  have hpassed : ∀ l ∈ ls, (!beginsDeclaration l) = true := fun l hl => by simp [(hls l hl).begins]
  have hstops : (lines rest).takeWhile (!beginsDeclaration ·) = [] := by
    cases hlines : lines rest with
    | nil => rfl
    | cons l ls => simp [hrest l (by simp [hlines])]
  rw [preambleOf, lines_flatten_append hls, List.takeWhile_append_of_pos hpassed, hstops,
    List.append_nil]

theorem beginsDeclaration_eq_false {indent w rest : List Char}
    (hindent : ∀ c ∈ indent, isBlank c = true) (hw : IsWord w)
    (hmodifier : isOneOf modifiers w = false) (hword : isOneOf declarationWords w = false) :
    beginsDeclaration (indent ++ (w ++ ' ' :: rest)) = false := by
  rw [beginsDeclaration, words_append_blank hindent, words_append_space hw.1 hw.noBlank,
    List.dropWhile_cons, hmodifier]
  simp [hword]

end DocAnnotations.Import
