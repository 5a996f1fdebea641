import DocAnnotations.Proofs.Import.Insertion
import DocAnnotations.Proofs.Import.Reading
import Mathlib.Data.List.Chain

/-! Preambles as they are laid out: tokens, with white space, tags and comments between them.
Comments that leave the preamble whole change nothing. -/
namespace DocAnnotations.Import

open QualifiedName Text

/-- A word ends in front of what is no part of a name, or at the end of the text. -/
theorem IsWord.lexFrom_of_head {w rest : List Char} {line : Nat} (hw : IsWord w)
    (hrest : ∀ c ∈ rest.head?, isNamePart c = false) :
    lexFrom line (w ++ rest) = ⟨.word (String.ofList w), line⟩ :: lexFrom line rest := by
  cases rest with
  | cons c cs => exact hw.lexFrom_append (hrest c rfl) cs
  | nil =>
    obtain ⟨first, w, rfl⟩ := List.exists_cons_of_ne_nil hw.1
    obtain ⟨hfirst, hall⟩ := List.forall_mem_cons.mp hw.2
    rw [List.append_nil, lexFrom_word hfirst, List.takeWhile_eq_self_iff.mpr hall,
      List.dropWhile_eq_nil_iff.mpr hall]

section Block

variable {body rest : List Char}

/-- A block comment ends where its end is first written. -/
theorem cutBlock_closed (h : ¬ ['*', '/'] <:+: body) (rest : List Char) :
    cutBlock (body ++ '*' :: '/' :: rest) = (body ++ ['*', '/'], rest) := by
  fun_induction cutBlock body with
  | case1 => rfl
  | case2 cs => exact absurd ⟨[], cs, rfl⟩ h
  | case3 c cs hnot skipped rest' hcut ih =>
    have hcs : ¬ ['*', '/'] <:+: cs := fun hpart => h (hpart.trans (List.suffix_cons c cs).isInfix)
    have hnext : ∀ ds, c = '*' → cs ++ '*' :: '/' :: rest ≠ '/' :: ds := by
      rintro ds rfl heq
      cases cs with
      | nil => cases heq
      | cons d cs =>
        obtain ⟨rfl, -⟩ := List.cons.inj heq
        exact hnot cs rfl rfl
    rw [List.cons_append, cutBlock, ih hcs]
    · rfl
    · intro ds hc heq
      exact hnext ds hc heq

/-- A comment that does not end takes up the rest of the text. -/
theorem cutBlock_open (h : ¬ ['*', '/'] <:+: body) : cutBlock body = (body, []) := by
  fun_induction cutBlock body with
  | case1 => rfl
  | case2 cs => exact absurd ⟨[], cs, rfl⟩ h
  | case3 c cs hnot skipped rest' hcut ih =>
    have hcs := ih fun hpart => h (hpart.trans (List.suffix_cons c cs).isInfix)
    rw [hcut] at hcs
    cases hcs
    rfl

end Block

/-- What a preamble is written with: tokens, and what may stand between them. -/
inductive Item where
  | blank (c : Char)
  /-- The tag that opens code. -/
  | tag
  | block (body : List Char)
  /-- A comment up to the end of its line, behind two slashes or a hash sign. -/
  | line (body : List Char)
  | hash (body : List Char)
  | word (w : List Char)
  | sign (c : Char)

namespace Item

def text : Item → List Char
  | blank c => [c]
  | tag => "<?php".toList
  | block body => '/' :: '*' :: (body ++ ['*', '/'])
  | line body => '/' :: '/' :: (body ++ ['\n'])
  | hash body => '#' :: (body ++ ['\n'])
  | word w => w
  | sign c => [c]

def lexeme? : Item → Option Lexeme
  | word w => some (.word (String.ofList w))
  | sign c => some (.punct c)
  | blank _ | tag | block _ | line _ | hash _ => none

def isWord : Item → Bool
  | word _ => true
  | _ => false

/-- The item is read as what it is. A sign begins no comment, no tag and no quoted text. -/
def Proper : Item → Prop
  | blank c => isBlank c = true
  | tag => True
  | block body => ¬ ['*', '/'] <:+: body
  | line body => '\n' ∉ body
  | hash body => '\n' ∉ body ∧ body.head? ≠ some '['
  | word w => IsWord w
  | sign c => isBlank c = false ∧ isNamePart c = false ∧ c ∉ ['<', '?', '/', '#', '"', '\'']

instance : (i : Item) → Decidable i.Proper
  | blank _ => inferInstanceAs (Decidable (_ = _))
  | tag => inferInstanceAs (Decidable True)
  | block _ => inferInstanceAs (Decidable (¬ _))
  | line _ => inferInstanceAs (Decidable (¬ _))
  | hash _ => inferInstanceAs (Decidable (¬ _ ∧ _))
  | word w => inferInstanceAs (Decidable (IsWord w))
  | sign _ => inferInstanceAs (Decidable (_ ∧ _ ∧ _))

/-- Items as they are written one behind another. -/
def written (items : List Item) : List Char :=
  items.flatMap text

def lexemes (items : List Item) : List Lexeme :=
  items.filterMap lexeme?

/-- No word follows another one directly. -/
structure Laid (items : List Item) : Prop where
  proper : ∀ i ∈ items, i.Proper
  apart : items.IsChain fun i j => ¬ (i.isWord = true ∧ j.isWord = true)

instance (items : List Item) : Decidable (Laid items) :=
  have := List.decidableBAll (fun i : Item => i.Proper) items
  decidable_of_iff (_ ∧ _)
    ⟨fun ⟨hproper, hapart⟩ => ⟨hproper, hapart⟩, fun h => ⟨h.proper, h.apart⟩⟩

theorem isNamePart_of_isBlank {c : Char} (h : isBlank c = true) : isNamePart c = false := by
  by_contra hc
  have hblank := isBlank_of_isNamePart (Bool.not_eq_false _ ▸ hc)
  simp [h] at hblank

/-- What is no word begins with no part of a name. -/
theorem exists_text_eq {i : Item} (h : i.Proper) (hi : i.isWord = false) :
    ∃ c cs, i.text = c :: cs ∧ isNamePart c = false := by
  have hmarks : isNamePart '<' = false ∧ isNamePart '/' = false ∧ isNamePart '#' = false := by
    decide
  cases i with
  | blank c => exact ⟨c, [], rfl, isNamePart_of_isBlank h⟩
  | tag => exact ⟨'<', _, rfl, hmarks.1⟩
  | block body | line body => exact ⟨'/', _, rfl, hmarks.2.1⟩
  | hash body => exact ⟨'#', _, rfl, hmarks.2.2⟩
  | word w => cases hi
  | sign c => exact ⟨c, [], rfl, h.2.1⟩

variable {items front behind : List Item} {rest : List Char}

/-- Behind a word the items go on with no part of a name. -/
theorem Laid.head_written {w : List Char} (h : Laid (word w :: items))
    (hrest : ∀ c ∈ rest.head?, isNamePart c = false) :
    ∀ c ∈ (written items ++ rest).head?, isNamePart c = false := by
  cases items with
  | nil => exact hrest
  | cons i items =>
    have hword : i.isWord = false := by
      have hapart := (List.isChain_cons_cons.mp h.apart).1
      simpa [isWord] using hapart
    obtain ⟨c, cs, htext, hc⟩ := exists_text_eq (h.proper i (by simp)) hword
    intro d hd
    rw [written, List.flatMap_cons, htext] at hd
    cases hd
    exact hc

section Line

variable {body : List Char}

theorem forall_ne_newline (h : '\n' ∉ body) : ∀ c ∈ body, decide (c ≠ '\n') = true := by
  intro c hc
  rw [decide_eq_true_iff]
  rintro rfl
  exact h hc

theorem takeWhile_line (h : '\n' ∉ body) (rest : List Char) :
    (body ++ '\n' :: rest).takeWhile (· ≠ '\n') = body := by
  rw [List.takeWhile_append_of_pos (forall_ne_newline h)]
  simp

theorem dropWhile_line (h : '\n' ∉ body) (rest : List Char) :
    (body ++ '\n' :: rest).dropWhile (· ≠ '\n') = '\n' :: rest := by
  rw [List.dropWhile_append_of_pos (forall_ne_newline h)]
  simp

end Line

/-- Of each item its lexeme is read, if it has one, and then what follows it. -/
theorem Proper.lexFrom_text {i : Item} (h : i.Proper)
    (hrest : i.isWord = true → ∀ c ∈ rest.head?, isNamePart c = false) (line : Nat) :
    ∃ next, (lexFrom line (i.text ++ rest)).map Token.lexeme =
      i.lexeme?.toList ++ (lexFrom next rest).map Token.lexeme := by
  have hslash : isBlank '/' = false := by decide
  cases i with
  | blank c =>
    by_cases hc : c = '\n'
    · refine ⟨line + 1, ?_⟩
      subst hc
      rw [text, List.singleton_append, lexFrom, if_pos rfl]
      rfl
    · exact ⟨line, by rw [text, List.singleton_append, lexFrom_blank h hc]; rfl⟩
  | tag =>
    have hskip : cutSkipped '<' ("?php".toList ++ rest) = some ("?php".toList, rest) := rfl
    exact ⟨_, congrArg (List.map Token.lexeme) (lexFrom_skip (by decide) hskip)⟩
  | block body =>
    have hskip : cutSkipped '/' ('*' :: (body ++ '*' :: '/' :: rest)) =
        some ('*' :: (body ++ ['*', '/']), rest) := by
      rw [cutSkipped, cutBlock_closed h]
    have htext : text (block body) ++ rest = '/' :: '*' :: (body ++ '*' :: '/' :: rest) := by
      simp [text]
    rw [htext]
    exact ⟨_, congrArg (List.map Token.lexeme) (lexFrom_skip hslash hskip)⟩
  | line body =>
    have hskip : cutSkipped '/' ('/' :: (body ++ '\n' :: rest)) =
        some ('/' :: body, '\n' :: rest) := by
      rw [cutSkipped, takeWhile_line h, dropWhile_line h]
    refine ⟨line + ('/' :: body).count '\n' + 1, congrArg (List.map Token.lexeme) ?_⟩
    have htext : text (Item.line body) ++ rest = '/' :: '/' :: (body ++ '\n' :: rest) := by
      simp [text]
    rw [htext, lexFrom_skip hslash hskip, lexFrom, if_pos rfl]
  | hash body =>
    obtain ⟨hline, hbracket⟩ := h
    have hskip : cutSkipped '#' (body ++ '\n' :: rest) = some (body, '\n' :: rest) := by
      have hhead : (body ++ '\n' :: rest).head? ≠ some '[' := by
        cases body with
        | nil => simp
        | cons c body => exact hbracket
      rw [cutSkipped, if_neg hhead, takeWhile_line hline, dropWhile_line hline]
    refine ⟨line + body.count '\n' + 1, congrArg (List.map Token.lexeme) ?_⟩
    have htext : text (hash body) ++ rest = '#' :: (body ++ '\n' :: rest) := by
      simp [text]
    rw [htext, lexFrom_skip (by decide) hskip, lexFrom, if_pos rfl]
  | word w =>
    refine ⟨line, ?_⟩
    rw [text, h.lexFrom_of_head (hrest rfl)]
    rfl
  | sign c =>
    obtain ⟨hblank, hpart, hmarks⟩ := h
    refine ⟨line, ?_⟩
    rw [text, List.singleton_append, lexFrom_sign hblank (cutSkipped_of_not_mem hmarks _) hpart]
    rfl

theorem Laid.tail {i : Item} (h : Laid (i :: items)) : Laid items :=
  ⟨fun j hj => h.proper j (List.mem_cons_of_mem _ hj), h.apart.tail⟩

theorem Laid.left (h : Laid (front ++ behind)) : Laid front :=
  ⟨fun i hi => h.proper i (List.mem_append_left _ hi), h.apart.left_of_append⟩

/-- Of a preamble the lexemes of its items are read. -/
theorem Laid.lexFrom_written (h : Laid items) (hrest : ∀ c ∈ rest.head?, isNamePart c = false)
    (line : Nat) : ∃ next, (lexFrom line (written items ++ rest)).map Token.lexeme =
      lexemes items ++ (lexFrom next rest).map Token.lexeme := by
  induction items generalizing line with
  | nil => exact ⟨line, rfl⟩
  | cons i items ih =>
    have hword : i.isWord = true →
        ∀ c ∈ (written items ++ rest).head?, isNamePart c = false := by
      intro hi
      cases i with
      | word w => exact h.head_written hrest
      | blank | tag | block | line | hash | sign => cases hi
    obtain ⟨middle, hfirst⟩ := (h.proper i List.mem_cons_self).lexFrom_text hword line
    obtain ⟨next, hitems⟩ := ih h.tail middle
    refine ⟨next, ?_⟩
    have hlexemes : lexemes (i :: items) = i.lexeme?.toList ++ lexemes items := by
      rw [lexemes, lexemes, List.filterMap_cons]
      cases i.lexeme? <;> rfl
    rw [written, List.flatMap_cons, List.append_assoc]
    change (lexFrom line (i.text ++ (written items ++ rest))).map Token.lexeme = _
    rw [hfirst, hitems, hlexemes, List.append_assoc]

theorem Laid.lexemes_eq (h : Laid items) :
    (lexFrom 1 (written items)).map Token.lexeme = lexemes items := by
  have hnil : ∀ c ∈ ([] : List Char).head?, isNamePart c = false := by simp
  obtain ⟨next, heq⟩ := h.lexFrom_written hnil 1
  rw [List.append_nil] at heq
  rw [heq, lexFrom, List.map_nil, List.append_nil]

/-- The table of a source is that of the items in front of its class. -/
theorem Laid.toOption_ofSource {known : String → Bool} {file : Option String} (h : Laid items)
    (hrest : IsPreamble (written items) rest) :
    (AliasTable.ofSource known (String.ofList (written items ++ rest)) file).toOption =
      tableOf? known (lexemes items) := by
  rw [Import.toOption_ofSource, hrest.preambleOf_append, h.lexemes_eq]

end Item

end DocAnnotations.Import
