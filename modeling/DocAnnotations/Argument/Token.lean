import DocAnnotations.Text.Blank
import DocAnnotations.ReadError

/-!
Tokens of annotation arguments such as `(name="x", list={1, 2})`: punctuation, quoted text and
bare words. Between double quotes a doubled quote stands for one, and line breaks and tabs are
left out of quoted text.
-/

namespace DocAnnotations.Argument

open Text

/-- A token of an argument text. -/
inductive Token where
  | punct (c : Char)
  | text (s : String)
  | word (s : String)
  deriving DecidableEq, Repr

/-- The brackets that open a group. -/
inductive Bracket where
  | round
  | curly
  deriving DecidableEq, Repr

namespace Bracket

def closer : Bracket → Char
  | round => ')'
  | curly => '}'

/-- The bracket that a character opens. -/
def ofOpener? (c : Char) : Option Bracket :=
  if c = '(' then some round else if c = '{' then some curly else none

end Bracket

namespace Token

def isPunct (c : Char) : Bool :=
  c = '(' || c = ')' || c = '{' || c = '}' || c = ',' || c = '='

theorem isBlank_of_isPunct {c : Char} (hc : isPunct c = true) : isBlank c = false := by
  simp only [isPunct, Bool.or_eq_true, decide_eq_true_eq] at hc
  rcases hc with ((((rfl | rfl) | rfl) | rfl) | rfl) | rfl <;> decide

def isQuote (c : Char) : Bool :=
  c = '"' || c = '\''

/-- The characters of a token, without quotes. -/
def content : Token → String
  | punct c => String.singleton c
  | text s => s
  | word s => s

/-- Quoted text from its characters: line breaks and tabs are left out. -/
def ofQuoted (cs : List Char) : Token :=
  text (String.ofList (cs.filter fun c => !(c = '\r' || c = '\n' || c = '\t')))

/-- A bare word from its characters: white space inside is one space. -/
def ofBare (cs : List Char) : Token :=
  word (String.ofList ([' '].intercalate (words cs)))

/-- Where the reader of tokens stands: between tokens, in a bare word, or between quotes. The
characters of the token so far come in reverse. -/
inductive Mode where
  | between
  | bare (sofar : List Char)
  | quoted (quote : Char) (sofar : List Char)

/-- The quote between which the reader of tokens stands. -/
def Mode.quote? : Mode → Option Char
  | between | bare _ => none
  | quoted quote _ => some quote

/-- The tokens of the text, where the first is begun as `mode` says. -/
def lexFrom : Mode → List Char → Except ArgumentFault (List Token)
  | .between, [] => .ok []
  | .bare sofar, [] => .ok [ofBare sofar.reverse]
  | .quoted _ _, [] => .error .unclosedText
  | .quoted '"' sofar, '"' :: '"' :: cs => lexFrom (.quoted '"' ('"' :: sofar)) cs
  | .quoted quote sofar, c :: cs =>
    if c = quote then (lexFrom .between cs).map (ofQuoted sofar.reverse :: ·)
    else lexFrom (.quoted quote (c :: sofar)) cs
  | .between, c :: cs =>
    if isBlank c then lexFrom .between cs
    else if isPunct c then (lexFrom .between cs).map (punct c :: ·)
    else if isQuote c then lexFrom (.quoted c []) cs
    else lexFrom (.bare [c]) cs
  | .bare sofar, c :: cs =>
    if isPunct c then (lexFrom .between cs).map ([ofBare sofar.reverse, punct c] ++ ·)
    else if isQuote c then (lexFrom (.quoted c []) cs).map (ofBare sofar.reverse :: ·)
    else lexFrom (.bare (c :: sofar)) cs

theorem lexFrom_punct {c : Char} (hc : isPunct c = true) (cs : List Char) :
    lexFrom .between (c :: cs) = (lexFrom .between cs).map (punct c :: ·) := by
  simp [lexFrom, hc, isBlank_of_isPunct hc]

theorem lexFrom_space (cs : List Char) : lexFrom .between (' ' :: cs) = lexFrom .between cs := by
  rw [lexFrom, if_pos (by decide)]

theorem lexFrom_inside {quote c : Char} (hc : c ≠ quote) (sofar cs : List Char) :
    lexFrom (.quoted quote sofar) (c :: cs) = lexFrom (.quoted quote (c :: sofar)) cs := by
  rw [lexFrom, if_neg hc]
  intro _ hq hcq
  exact absurd (hcq.trans hq.symm) hc

/-- A quote closes a text unless it is the first half of a doubled one. -/
theorem lexFrom_closing {quote : Char} {cs : List Char} (h : quote = '"' → cs.head? ≠ some '"')
    (sofar : List Char) : lexFrom (.quoted quote sofar) (quote :: cs) =
      (lexFrom .between cs).map (ofQuoted sofar.reverse :: ·) := by
  rw [lexFrom, if_pos rfl]
  rintro es hq - rfl
  exact h hq rfl

/-- The tokens of an argument text. -/
def lex (cs : List Char) : Except ArgumentFault (List Token) :=
  lexFrom .between cs

example : lex "(a b =\"x\"\"y\", 'z')".toList =
    .ok [.punct '(', .word "a b", .punct '=', .text "x\"y", .punct ',', .text "z", .punct ')'] := by
  rfl

end Token

/-- Whether brackets are closed in the order in which they were opened. -/
def checkBalance (openGroups : List Bracket) : List Token → Option ArgumentFault
  | [] => if openGroups.isEmpty then none else some .unclosedBracket
  | .punct c :: tokens =>
    match Bracket.ofOpener? c with
    | some bracket =>
      if maxNesting ≤ openGroups.length then some .tooDeep
      else checkBalance (bracket :: openGroups) tokens
    | none =>
      if c = ')' ∨ c = '}' then
        match openGroups with
        | bracket :: outer =>
          if bracket.closer = c then checkBalance outer tokens else some .mismatchedBracket
        | [] => some .mismatchedBracket
      else checkBalance openGroups tokens
  | _ :: tokens => checkBalance openGroups tokens
where
  /-- Groups nest no deeper. -/
  maxNesting : Nat := 32

end DocAnnotations.Argument
