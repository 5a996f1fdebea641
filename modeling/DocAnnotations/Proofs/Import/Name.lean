import DocAnnotations.Proofs.Import.Lexing
import DocAnnotations.Proofs.Import.Statements

/-! Names of a source with characters in them that are part of no word: how they are read piece by
piece. -/
namespace DocAnnotations.Import

open QualifiedName Text

/-- A character that names may hold: any character of words, and any character above ASCII. -/
def inName (c : Char) : Bool :=
  isNamePart c || 0x80 ≤ c.toNat

def Token.words (tokens : List Token) : List String :=
  tokens.filterMap (·.lexeme.word?)

/-- The words in which a text is read. -/
def wordsIn (cs : List Char) : List String :=
  Token.words (lexFrom 1 cs)

/-- A text on one line that names may hold. -/
def Spelled (cs : List Char) : Prop :=
  ∀ c ∈ cs, inName c = true ∧ isLineEnd c = false

instance (cs : List Char) : Decidable (Spelled cs) :=
  List.decidableBAll _ cs

variable {known : String → Bool} {file : Option String} {table : AliasTable}
  {cs ds rest : List Char} {c : Char} {w : String} {line : Nat} {clause : Clause}

theorem wordsIn_nil : wordsIn [] = [] := by
  rw [wordsIn, lexFrom]
  rfl

section Spelled

theorem Spelled.append (hc : Spelled cs) (hd : Spelled ds) : Spelled (cs ++ ds) :=
  List.forall_mem_append.mpr ⟨hc, hd⟩

theorem Spelled.tail (h : Spelled (c :: cs)) : Spelled cs :=
  (List.forall_mem_cons.mp h).2

theorem Spelled.dropWhile (h : Spelled cs) (p : Char → Bool) : Spelled (cs.dropWhile p) :=
  fun c hc => h c ((List.dropWhile_sublist p).mem hc)

theorem not_mem_of_le {marks : List Char} (hmarks : marks.all (·.toNat < 0x80) = true)
    (hc : 0x80 ≤ c.toNat) : c ∉ marks := by
  intro hmem
  have hlt := List.all_eq_true.mp hmarks c hmem
  rw [decide_eq_true_iff] at hlt
  omega

theorem cutSkipped_of_le (hc : 0x80 ≤ c.toNat) (cs : List Char) : cutSkipped c cs = none :=
  cutSkipped_of_not_mem (not_mem_of_le (by decide) hc) cs

theorem cutSkipped_of_inName (hc : inName c = true) (cs : List Char) : cutSkipped c cs = none := by
  rw [inName, Bool.or_eq_true, decide_eq_true_iff] at hc
  rcases hc with hc | hc
  · exact cutSkipped_of_isNamePart hc cs
  · exact cutSkipped_of_le hc cs

end Spelled

/-- How a name is read: white space is passed over, words are read as far as they go, and each other
character by itself. -/
inductive Pieces : List Char → Prop
  | nil : Pieces []
  | blank {c : Char} {cs : List Char} : isBlank c = true → c ≠ '\n' → Pieces cs → Pieces (c :: cs)
  | word {c : Char} {cs : List Char} : isNamePart c = true → Pieces (cs.dropWhile isNamePart) →
      Pieces (c :: cs)
  | sign {c : Char} {cs : List Char} : isBlank c = false → isNamePart c = false →
      0x80 ≤ c.toNat → Pieces cs → Pieces (c :: cs)

theorem Spelled.pieces (h : Spelled cs) : Pieces cs := by
  fun_induction lexFrom 1 cs with
  | case1 => exact .nil
  | case2 line cs => exact absurd (h '\n' List.mem_cons_self).2 (by decide)
  | case3 line c cs hline hc ih => exact .blank hc hline (ih h.tail)
  | case4 line c cs _ _ skipped rest hskip =>
    have hnone := cutSkipped_of_inName (h c List.mem_cons_self).1 cs
    rw [hskip] at hnone
    cases hnone
  | case5 line c cs _ _ _ hc ih => exact .word hc (ih (h.tail.dropWhile isNamePart))
  | case6 line c cs _ hblank _ hc ih =>
    have hpart : isNamePart c = false := by simpa using hc
    have hle := (h c List.mem_cons_self).1
    rw [inName, hpart, Bool.false_or, decide_eq_true_iff] at hle
    exact .sign (by simpa using hblank) hpart hle (ih h.tail)

namespace Pieces

/-- A name ends in front of a character that is part of no word. -/
theorem lexFrom_append (h : Pieces cs) (hc : isNamePart c = false) (line : Nat)
    (rest : List Char) :
    lexFrom line (cs ++ c :: rest) = lexFrom line cs ++ lexFrom line (c :: rest) := by
  have hstops : ∀ d ∈ (c :: rest).head?, isNamePart d = false := by
    rintro d ⟨⟩
    exact hc
  induction h with
  | nil => rw [lexFrom.eq_1]; rfl
  | blank hblank hline _ ih =>
    rw [List.cons_append, lexFrom_blank hblank hline, lexFrom_blank hblank hline, ih]
  | word hd _ ih =>
    rw [List.cons_append, lexFrom_word hd, lexFrom_word hd, takeWhile_append_of_head hstops,
      dropWhile_append_of_head hstops, ih, List.cons_append]
  | sign hblank hd hle _ ih =>
    rw [List.cons_append, lexFrom_sign hblank (cutSkipped_of_le hle _) hd,
      lexFrom_sign hblank (cutSkipped_of_le hle _) hd, ih, List.cons_append]

theorem words_lexFrom_word (hc : isNamePart c = true) (cs : List Char) (line : Nat) :
    Token.words (lexFrom line (c :: cs)) = String.ofList (c :: cs.takeWhile isNamePart) ::
      Token.words (lexFrom line (cs.dropWhile isNamePart)) := by
  rw [lexFrom_word hc]
  rfl

theorem words_lexFrom_sign (hblank : isBlank c = false) (hc : isNamePart c = false)
    (hle : 0x80 ≤ c.toNat) (cs : List Char) (line : Nat) :
    Token.words (lexFrom line (c :: cs)) = Token.words (lexFrom line cs) := by
  rw [lexFrom_sign hblank (cutSkipped_of_le hle _) hc]
  rfl

/-- The words of a name do not depend on its line. -/
theorem words_lexFrom (h : Pieces cs) (line : Nat) :
    Token.words (lexFrom line cs) = wordsIn cs := by
  unfold wordsIn
  induction h with
  | nil => rw [lexFrom.eq_1, lexFrom.eq_1]
  | blank hblank hline _ ih => rw [lexFrom_blank hblank hline, lexFrom_blank hblank hline, ih]
  | word hd _ ih => rw [words_lexFrom_word hd, words_lexFrom_word hd, ih]
  | sign hblank hd hle _ ih =>
    rw [words_lexFrom_sign hblank hd hle, words_lexFrom_sign hblank hd hle, ih]

/-- The words of a name are what is left of it without the characters that are part of no word. -/
theorem join_wordsIn (h : Pieces cs) :
    String.join (wordsIn cs) = String.ofList (cs.filter isNamePart) := by
  unfold wordsIn
  induction h with
  | nil => rw [lexFrom.eq_1]; rfl
  | @blank d ds hblank hline _ ih =>
    have hd : ¬ isNamePart d = true := fun hd => by simp [isBlank_of_isNamePart hd] at hblank
    rw [lexFrom_blank hblank hline, List.filter_cons_of_neg hd, ih]
  | @word d ds hd _ ih =>
    have hfirst : (ds.takeWhile isNamePart).filter isNamePart = ds.takeWhile isNamePart :=
      List.filter_eq_self.mpr fun c hc => List.mem_takeWhile_imp hc
    have hsplit := congrArg (List.filter isNamePart)
      (List.takeWhile_append_dropWhile (p := isNamePart) (l := ds))
    rw [List.filter_append, hfirst] at hsplit
    rw [words_lexFrom_word hd, String.join_cons, ih, List.filter_cons_of_pos hd, ← hsplit,
      ← List.cons_append, String.ofList_append]
  | sign hblank hd hle _ ih =>
    rw [words_lexFrom_sign hblank hd hle, List.filter_cons_of_neg (by simp [hd]), ih]

theorem mem_wordsIn_of_dropWhile (hw : w ∈ wordsIn (cs.dropWhile isNamePart)) :
    w ∈ wordsIn cs := by
  cases cs with
  | nil => exact hw
  | cons c cs =>
    by_cases hc : isNamePart c = true
    · rw [List.dropWhile_cons_of_pos hc] at hw
      rw [wordsIn, words_lexFrom_word hc]
      exact List.mem_cons_of_mem _ hw
    · rwa [List.dropWhile_cons_of_neg hc] at hw

theorem getLast?_of_cons {d e : Char} (h : (d :: cs).getLast? = some e) (hne : d ≠ e) :
    cs.getLast? = some e := by
  cases cs with
  | nil => exact absurd (by simpa using h) hne
  | cons c cs => rwa [List.getLast?_cons_cons] at h

/-- A backslash at the end of a name joins its last word with the first one behind it. -/
theorem mem_wordsIn_append (h : Pieces cs) (hlast : cs.getLast? = some '\\') {ds : List Char}
    (hw : w ∈ wordsIn (cs ++ ds)) : w ∈ wordsIn cs ∨ w ∈ wordsIn ds ∨ '\\' ∈ w.toList := by
  have hsep : isNamePart '\\' = true := by decide
  have hne {d : Char} (hd : isNamePart d = false) : d ≠ '\\' := by
    rintro rfl
    simp [hsep] at hd
  induction h with
  | nil => cases hlast
  | @blank d es hblank hline _ ih =>
    have hd : isNamePart d = false := by
      by_contra hd
      simp [isBlank_of_isNamePart (by simpa using hd)] at hblank
    rw [wordsIn, List.cons_append, lexFrom_blank hblank hline] at hw
    rw [wordsIn, lexFrom_blank hblank hline]
    exact ih (getLast?_of_cons hlast (hne hd)) hw
  | @sign d es hblank hd hle _ ih =>
    rw [wordsIn, List.cons_append, words_lexFrom_sign hblank hd hle] at hw
    rw [wordsIn, words_lexFrom_sign hblank hd hle]
    exact ih (getLast?_of_cons hlast (hne hd)) hw
  | @word d es hd _ ih =>
    rw [wordsIn, List.cons_append, words_lexFrom_word hd] at hw
    by_cases hall : ∀ c ∈ es, isNamePart c = true
    · -- All of the name is one word, and it goes on behind the backslash.
      rw [List.takeWhile_append_of_pos hall, List.dropWhile_append_of_pos hall] at hw
      rcases List.mem_cons.mp hw with rfl | hw
      · refine .inr (.inr ?_)
        rw [String.toList_ofList, ← List.cons_append]
        exact List.mem_append_left _ (List.mem_of_getLast? hlast)
      · exact .inr (.inl (mem_wordsIn_of_dropWhile hw))
    · have hrest : es.dropWhile isNamePart ≠ [] := mt List.dropWhile_eq_nil_iff.mp hall
      have hbehind : (es.dropWhile isNamePart).getLast? = some '\\' := by
        rw [← List.takeWhile_append_dropWhile (p := isNamePart) (l := es), ← List.cons_append,
          List.getLast?_append_of_ne_nil _ hrest] at hlast
        exact hlast
      rw [takeWhile_append_of_not_forall hall, List.dropWhile_append,
        if_neg (by simpa using hrest)] at hw
      rw [wordsIn, words_lexFrom_word hd]
      rcases List.mem_cons.mp hw with rfl | hw
      · exact .inl List.mem_cons_self
      · exact (ih hbehind hw).imp_left (List.mem_cons_of_mem _)

end Pieces

/-- The word means something to the reader of use statements. -/
def Reserved (w : String) : Prop :=
  lower w ∈ ["as", "function", "const"]

instance (w : String) : Decidable (Reserved w) :=
  inferInstanceAs (Decidable (_ ∈ _))

/-- A name on one line that is read in words, none of which is reserved. -/
structure Legible (cs : List Char) : Prop where
  spelled : Spelled cs
  ne_nil : wordsIn cs ≠ []
  unreserved : ∀ w ∈ wordsIn cs, ¬ Reserved w

instance (cs : List Char) : Decidable (Legible cs) :=
  have := List.decidableBAll (fun w => ¬ Reserved w) (wordsIn cs)
  decidable_of_iff (Spelled cs ∧ wordsIn cs ≠ [] ∧ ∀ w ∈ wordsIn cs, ¬ Reserved w)
    ⟨fun ⟨hspelled, hne, hunreserved⟩ => ⟨hspelled, hne, hunreserved⟩,
      fun h => ⟨h.spelled, h.ne_nil, h.unreserved⟩⟩

theorem Legible.not_as (h : Legible cs) : ∀ w ∈ wordsIn cs, lower w ≠ "as" := by
  intro w hw has
  have hreserved : Reserved w := by simp [Reserved, has]
  exact h.unreserved w hw hreserved

theorem mem_lower_of_backslash (h : '\\' ∈ w.toList) : '\\' ∈ (lower w).toList := by
  have hfrom (seen cs : List Char) (h : '\\' ∈ cs) : '\\' ∈ lowerFrom seen cs := by
    induction cs generalizing seen with
    | nil => cases h
    | cons c cs ih =>
      rw [lowerFrom, List.mem_append]
      rcases List.mem_cons.mp h with rfl | h
      · have hsmall : lowerChar '\\' = ['\\'] := by decide
        exact .inl (by simp [hsmall])
      · exact .inr (ih _ h)
  rw [lower, String.toList_ofList]
  exact hfrom [] w.toList h

theorem not_reserved_of_backslash (h : '\\' ∈ w.toList) : ¬ Reserved w := by
  intro hreserved
  have hplain : ∀ r ∈ ["as", "function", "const"], '\\' ∉ r.toList := by decide
  exact hplain _ hreserved (mem_lower_of_backslash h)

/-- A legible name below a legible one is legible. -/
theorem Legible.append (hc : Legible cs) (hlast : cs.getLast? = some '\\') (hd : Legible ds) :
    Legible (cs ++ ds) := by
  have hspelled := hc.spelled.append hd.spelled
  refine ⟨hspelled, fun hnil => ?_, fun w hw => ?_⟩
  · have hjoin := hspelled.pieces.join_wordsIn
    rw [hnil] at hjoin
    have hmem : '\\' ∈ (cs ++ ds).filter isNamePart :=
      List.mem_filter.mpr ⟨List.mem_append_left _ (List.mem_of_getLast? hlast), by decide⟩
    have hempty : (cs ++ ds).filter isNamePart = [] := by
      simpa using (congrArg String.toList hjoin).symm
    rw [hempty] at hmem
    cases hmem
  · rcases hc.spelled.pieces.mem_wordsIn_append hlast hw with hw | hw | hw
    · exact hc.unreserved w hw
    · exact hd.unreserved w hw
    · exact not_reserved_of_backslash hw

theorem join_wordsIn_append (hc : Spelled cs) (hd : Spelled ds) :
    String.join (wordsIn (cs ++ ds)) = String.join (wordsIn cs) ++ String.join (wordsIn ds) := by
  rw [(hc.append hd).pieces.join_wordsIn, hc.pieces.join_wordsIn, hd.pieces.join_wordsIn,
    List.filter_append, String.ofList_append]

section Clause

variable {ws : List String}

theorem addWord_of_not_as (hw : lower w ≠ "as") (hexpects : clause.expectsLocal = false) :
    clause.addWord w = { clause with current := clause.current ++ w } := by
  rw [Clause.addWord, if_neg hw, hexpects, if_neg Bool.false_ne_true]

theorem foldl_addWord (hws : ∀ w ∈ ws, lower w ≠ "as") (hexpects : clause.expectsLocal = false) :
    ws.foldl Clause.addWord clause =
      { clause with current := clause.current ++ String.join ws } := by
  induction ws generalizing clause with
  | nil => simp
  | cons w ws ih =>
    obtain ⟨hw, hws⟩ := List.forall_mem_cons.mp hws
    rw [List.foldl_cons, addWord_of_not_as hw hexpects, String.join_cons, ← String.append_assoc]
    exact ih hws hexpects

/-- Of the words behind `as`, the first one is the other name. -/
theorem foldl_addWord_of_expects (hws : ∀ w ∈ ws, lower w ≠ "as") (hne : ws ≠ [])
    (hexpects : clause.expectsLocal = true) : ws.foldl Clause.addWord clause =
      { clause with
        current := clause.current ++ String.join ws.tail
        localName := ws.head?
        expectsLocal := false } := by
  obtain ⟨w, ws, rfl⟩ := List.exists_cons_of_ne_nil hne
  obtain ⟨hw, hws⟩ := List.forall_mem_cons.mp hws
  have hfirst : clause.addWord w =
      { clause with localName := some w, expectsLocal := false } := by
    rw [Clause.addWord, if_neg hw, if_pos hexpects]
  rw [List.foldl_cons, hfirst, foldl_addWord hws rfl]
  rfl

end Clause

namespace Runs

theorem step_above_ascii (hc : 0x80 ≤ c.toNat) (line : Nat) :
    step known file (.importing clause, table) ⟨.punct c, line⟩ =
      .ok (.importing clause, table) := by
  have hne : c ∉ [',', '{', '}', ';'] := not_mem_of_le (by decide) hc
  simp only [List.mem_cons, List.not_mem_nil, or_false, not_or] at hne
  obtain ⟨hcomma, hopen, hclose, hend⟩ := hne
  simp only [step]
  unfold stepImport
  split <;> simp_all

/-- The words of a name are taken up one by one, and nothing else of it counts. -/
theorem name (h : Pieces cs) (line : Nat) (clause : Clause) :
    Runs known file (lexFrom line cs) (.importing clause, table)
      (.importing ((wordsIn cs).foldl Clause.addWord clause), table) := by
  rw [← h.words_lexFrom line]
  induction h generalizing clause with
  | nil => rw [lexFrom.eq_1]; exact nil
  | blank hblank hline _ ih => rw [lexFrom_blank hblank hline]; exact ih clause
  | word hc _ ih =>
    rw [Pieces.words_lexFrom_word hc, lexFrom_word hc]
    exact cons _ rfl (ih _)
  | sign hblank hc hle _ ih =>
    rw [Pieces.words_lexFrom_sign hblank hc hle, lexFrom_sign hblank (cutSkipped_of_le hle _) hc]
    exact cons _ (step_above_ascii hle line) (ih clause)

end Runs

end DocAnnotations.Import
