import DocAnnotations.Text.Blank
import DocAnnotations.Text.Letter

/-!
Tokens of a preamble: names, which hold backslashes too, and single characters, each with the line
that it stands on. Tags, comments and quoted text are passed over.
-/

namespace DocAnnotations.Import

open Text

/-- A name, or one character that is part of none. -/
inductive Lexeme where
  | word (s : String)
  | punct (c : Char)
  deriving DecidableEq, Repr

structure Token where
  lexeme : Lexeme
  line : Nat
  deriving DecidableEq, Repr

def isNamePart (c : Char) : Bool :=
  isWordChar c || c = '\\'

/-- Cuts after the end of a block comment, or at the end of the text. -/
def cutBlock : List Char → List Char × List Char
  | [] => ([], [])
  | '*' :: '/' :: cs => (['*', '/'], cs)
  | c :: cs =>
    let (skipped, rest) := cutBlock cs
    (c :: skipped, rest)

/-- Cuts after the quote that closes a text, or at the end. A backslash guards the character
behind it. -/
def cutQuoted (quote : Char) : List Char → List Char × List Char
  | [] => ([], [])
  | '\\' :: c :: cs =>
    let (skipped, rest) := cutQuoted quote cs
    ('\\' :: c :: skipped, rest)
  | c :: cs =>
    if c = quote then ([c], cs)
    else
      let (skipped, rest) := cutQuoted quote cs
      (c :: skipped, rest)

/-- What is passed over behind the character `c`, and what follows it. -/
def cutSkipped (c : Char) (cs : List Char) : Option (List Char × List Char) :=
  match c, cs with
  | '<', '?' :: 'p' :: 'h' :: 'p' :: rest => some (['?', 'p', 'h', 'p'], rest)
  | '<', '?' :: rest => some (['?'], rest)
  | '?', '>' :: rest => some (['>'], rest)
  | '/', '/' :: rest => some ('/' :: rest.takeWhile (· ≠ '\n'), rest.dropWhile (· ≠ '\n'))
  | '/', '*' :: rest => some ('*' :: (cutBlock rest).1, (cutBlock rest).2)
  | '#', rest =>
    if rest.head? = some '[' then none
    else some (rest.takeWhile (· ≠ '\n'), rest.dropWhile (· ≠ '\n'))
  | c, rest =>
    if c = '"' ∨ c = '\'' then some (cutQuoted c rest) else none

theorem cutBlock_append (cs : List Char) : (cutBlock cs).1 ++ (cutBlock cs).2 = cs := by
  fun_induction cutBlock cs <;> simp_all

theorem cutQuoted_append (quote : Char) (cs : List Char) :
    (cutQuoted quote cs).1 ++ (cutQuoted quote cs).2 = cs := by
  fun_induction cutQuoted quote cs <;> simp_all

/-- Nothing is lost where text is passed over. -/
theorem cutSkipped_append {c : Char} {cs skipped rest : List Char}
    (h : cutSkipped c cs = some (skipped, rest)) : skipped ++ rest = cs := by
  simp only [cutSkipped] at h
  split at h
  · simp only [Option.some.injEq, Prod.mk.injEq] at h
    simp [← h.1, ← h.2]
  · simp only [Option.some.injEq, Prod.mk.injEq] at h
    simp [← h.1, ← h.2]
  · simp only [Option.some.injEq, Prod.mk.injEq] at h
    simp [← h.1, ← h.2]
  · simp only [Option.some.injEq, Prod.mk.injEq] at h
    simp [← h.1, ← h.2]
  · simp only [Option.some.injEq, Prod.mk.injEq] at h
    simp [← h.1, ← h.2, cutBlock_append]
  · split at h
    · simp at h
    · simp only [Option.some.injEq, Prod.mk.injEq] at h
      simp [← h.1, ← h.2]
  · split at h
    · simp only [Option.some.injEq] at h
      have := cutQuoted_append c cs
      simp_all
    · simp at h

/-- The tokens of a text that begins on the given line. -/
def lexFrom (line : Nat) : List Char → List Token
  | [] => []
  | c :: cs =>
    if c = '\n' then lexFrom (line + 1) cs
    else if isBlank c then lexFrom line cs
    else
      match _hs : cutSkipped c cs with
      | some (skipped, rest) => lexFrom (line + skipped.count '\n') rest
      | none =>
        if isNamePart c then
          ⟨.word (String.ofList (c :: cs.takeWhile isNamePart)), line⟩
            :: lexFrom line (cs.dropWhile isNamePart)
        else ⟨.punct c, line⟩ :: lexFrom line cs
termination_by cs => cs.length
decreasing_by
  · simp
  · simp
  · have h := congrArg List.length (cutSkipped_append _hs)
    simp only [List.length_append] at h
    simp only [List.length_cons]
    omega
  · have := (List.dropWhile_suffix isNamePart (l := cs)).length_le
    simp only [List.length_cons]
    omega
  · simp

/-- The tokens of a preamble. Lines count from one. -/
def lex (preamble : String) : List Token :=
  lexFrom 1 preamble.toList

end DocAnnotations.Import
