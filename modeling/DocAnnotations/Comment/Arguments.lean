import DocAnnotations.Fragment
import DocAnnotations.Text.Letter

/-!
Names and argument lists inside a doc comment. An argument list ends at the parenthesis that closes
its first one; parentheses between quotes do not count.
-/

namespace DocAnnotations.Comment

open Text

def isNameStart (c : Char) : Bool :=
  c.isAlpha || c = '_' || c = '\\'

def isNameChar (c : Char) : Bool :=
  isWordChar c || c = '\\' || c = '.' || c = ':' || c = '-'

def isQuote (c : Char) : Bool :=
  c = '"' || c = '\''

/-- Characters after which an annotation may begin. -/
def isBoundary (c : Char) : Bool :=
  [' ', '\t', '\r', '\n', '*', '(', '{', ',', '='].contains c

/-- Cuts off the longest name in front. -/
def cutName : List Char → Option (List Char × List Char)
  | [] => none
  | c :: cs =>
    if isNameStart c then some (c :: cs.takeWhile isNameChar, cs.dropWhile isNameChar) else none

/-- The quote that is open after a character. -/
def quoteAfter (quote : Option Char) (c : Char) : Option Char :=
  match quote with
  | some q => if c = q then none else some q
  | none => if isQuote c then some c else none

/-- The number of open parentheses after a character. -/
def levelAfter (level : Nat) (quote : Option Char) (c : Char) : Nat :=
  match quote with
  | some _ => level
  | none => if c = '(' then level + 1 else if c = ')' then level - 1 else level

/-- Whether a character is the parenthesis that closes the list. -/
def closesList (level : Nat) (quote : Option Char) (c : Char) : Bool :=
  quote.isNone && c = ')' && level = 1

/-- Cuts off an argument list: up to the parenthesis that closes it, or all of the text. -/
def cutList (level : Nat) (quote : Option Char) : List Char → List Char × List Char
  | [] => ([], [])
  | c :: cs =>
    if closesList level quote c then ([c], cs)
    else
      let (list, rest) := cutList (levelAfter level quote c) (quoteAfter quote c) cs
      (c :: list, rest)

/-- A written argument list, with a placeholder for each child, and the text after it. -/
structure ArgumentText where
  text : List Char
  children : List Fragment
  rest : List Char

namespace ArgumentText

/-- Puts one more character in front. -/
def withChar (c : Char) (following : ArgumentText) : ArgumentText :=
  { following with text := c :: following.text }

/-- Puts the child with an index in front, and its placeholder into the text. -/
def withChild (index : Nat) (child : Fragment) (following : ArgumentText) : ArgumentText :=
  { following with
    text := (Fragment.placeholder index).toList ++ following.text
    children := child :: following.children }

@[simp]
theorem rest_withChar (c : Char) (following : ArgumentText) :
    (following.withChar c).rest = following.rest := rfl

@[simp]
theorem rest_withChild (index : Nat) (child : Fragment) (following : ArgumentText) :
    (following.withChild index child).rest = following.rest := rfl

end ArgumentText

/-- A way to read the argument list in front of a text. -/
structure ArgumentReader where
  read : List Char → ArgumentText
  rest_length_le : ∀ cs, (read cs).rest.length ≤ cs.length

theorem cutName_length {cs name rest : List Char} (h : cutName cs = some (name, rest)) :
    rest.length < cs.length := by
  cases cs with
  | nil => simp [cutName] at h
  | cons c cs =>
    simp only [cutName] at h
    split at h
    · simp only [Option.some.injEq, Prod.mk.injEq] at h
      have := (List.dropWhile_suffix isNameChar (l := cs)).length_le
      simp only [← h.2, List.length_cons]
      omega
    · simp at h

theorem cutName_append {cs name rest : List Char} (h : cutName cs = some (name, rest)) :
    name ++ rest = cs := by
  cases cs with
  | nil => simp [cutName] at h
  | cons c cs =>
    simp only [cutName] at h
    split at h
    · simp only [Option.some.injEq, Prod.mk.injEq] at h
      simp [← h.1, ← h.2]
    · simp at h

theorem cutList_append (level : Nat) (quote : Option Char) (cs : List Char) :
    (cutList level quote cs).1 ++ (cutList level quote cs).2 = cs := by
  induction cs generalizing level quote with
  | nil => rfl
  | cons c cs ih =>
    simp only [cutList]
    split
    · simp
    · simp [ih]

theorem cutList_length_le (level : Nat) (quote : Option Char) (cs : List Char) :
    (cutList level quote cs).2.length ≤ cs.length := by
  have h := congrArg List.length (cutList_append level quote cs)
  simp only [List.length_append] at h
  omega

end DocAnnotations.Comment
