import DocAnnotations.Numeral
import DocAnnotations.Source.Class

/-!
How far the pieces of a source reach. Every function here says how many characters belong to a
piece. Code may stand inside quoted text, quoted text inside that code, and so on, so what is open
is kept on a stack.
-/

namespace DocAnnotations.Source.Parser

/-- White space between tokens. -/
def isSpace (c : Char) : Bool :=
  [' ', '\t', '\n', '\r', '\x0b', '\x0c', '\u00a0', '\u200b', '\u2060', '\ufeff'].contains c

/-- The white space outside ASCII is no part of a name. -/
def isNamePart (c : Char) : Bool :=
  isNameChar c && !isSpace c

def isNameStart (c : Char) : Bool :=
  isNamePart c && !c.isDigit

/-- Something that is open inside a quoted text. -/
inductive Open where
  /-- Code between braces. -/
  | code
  /-- Text in which code may stand. -/
  | text (quote : Char)
  /-- Text in which no code stands. -/
  | plain
  /-- Text that ends at its label on a line of its own; raw text holds no code. -/
  | labelled (label : List Char) (raw : Bool)
  | blockComment
  | lineComment
  /-- One character that means nothing. -/
  | guarded
  deriving DecidableEq, Repr

/-- The length of a label that closes a text, with the blanks before it, if it stands in front. -/
def closingLength? (label cs : List Char) : Option Nat :=
  let blanks := (cs.takeWhile fun c => c = ' ' || c = '\t').length
  let rest := cs.drop blanks
  if label.isPrefixOf rest && !(rest.drop label.length).head?.any isNamePart then
    some (blanks + label.length)
  else none

/-- What is open after a character of code, where `next` is the character behind it. -/
def openAfterCode (outer : List Open) (c : Char) (next : Option Char) : List Open :=
  match c with
  | '{' => .code :: .code :: outer
  | '}' => outer
  | '"' | '`' => .text c :: .code :: outer
  | '\'' => .plain :: .code :: outer
  | '/' =>
    if next = some '*' then .guarded :: .blockComment :: .code :: outer
    else if next = some '/' then .lineComment :: .code :: outer
    else .code :: outer
  | '#' => if next = some '[' then .code :: outer else .lineComment :: .code :: outer
  | _ => .code :: outer

/-- What is open after a character of text in which code may stand. -/
def openInText (all : List Open) (c : Char) (next : Option Char) : List Open :=
  if c = '\\' then if next = some '\n' then all else .guarded :: all
  else if c = '{' ∧ next = some '$' then .code :: all
  else if c = '$' ∧ next = some '{' then .guarded :: .code :: all
  else all

/-- What is open after a character, where `cs` follows it. -/
def openAfter (all : List Open) (c : Char) (cs : List Char) : List Open :=
  match all with
  | [] => []
  | .guarded :: outer => outer
  | .code :: outer => openAfterCode outer c cs.head?
  | .text quote :: outer => if c = quote then outer else openInText all c cs.head?
  | .plain :: outer => if c = '\\' then .guarded :: all else if c = '\'' then outer else all
  | .labelled label raw :: outer =>
    if c = '\n' ∧ (closingLength? label cs).isSome then outer
    else if raw then all
    else openInText all c cs.head?
  | .blockComment :: outer => if c = '*' ∧ cs.head? = some '/' then .guarded :: outer else all
  | .lineComment :: outer => if c = '\n' then outer else all

/-- The number of characters up to the one that closes all that is open. -/
def openLength (all : List Open) : List Char → Nat
  | [] => 0
  | c :: cs => if all.isEmpty then 0 else 1 + openLength (openAfter all c cs) cs

/-- The length of a block comment behind its first two characters. -/
def blockCommentLength : List Char → Nat
  | [] => 0
  | '*' :: '/' :: _ => 2
  | _ :: cs => 1 + blockCommentLength cs

/-- The length of a comment that ends with its line or before a closing tag. A question mark takes
the character behind it along. -/
def lineCommentLength : List Char → Nat
  | [] => 0
  | '?' :: c :: cs =>
    if c = '>' then 0 else if c = '\n' ∨ c = '\r' then 1 else 2 + lineCommentLength cs
  | c :: cs => if c = '\n' ∨ c = '\r' then 0 else 1 + lineCommentLength cs

/-- The length of markup up to and with the tag that opens code. -/
def markupLength : List Char → Nat
  | [] => 0
  | '<' :: '?' :: cs =>
    2 + (if (cs.take 3).map Char.toLower = ['p', 'h', 'p'] then 3
      else if cs.head? = some '=' then 1 else 0)
  | _ :: cs => 1 + markupLength cs

/-- The length of a text that ends at its label, behind the sign that opens it. The label may
stand between quotes, and single quotes make the text raw. -/
def labelledLength? (cs : List Char) : Option Nat :=
  let blanks := (cs.takeWhile fun c => c = ' ' || c = '\t').length
  let cs := cs.drop blanks
  let quote := cs.head?.filter fun c => c = '"' || c = '\''
  let quotes := if quote.isSome then 1 else 0
  let label := (cs.drop quotes).takeWhile isNamePart
  let header := quotes + label.length + quotes
  if label.isEmpty then none
  else
    let body := cs.drop header
    let length := openLength [.labelled label (quote = some '\'')] body
    let closing := (closingLength? label (body.drop length)).getD 0
    some (blanks + header + length + closing)

/-- The length of a number. -/
def numberLength (cs : List Char) : Nat :=
  let digits (cs : List Char) : Nat := (cs.takeWhile fun c => c.isDigit || c = '_').length
  match cs with
  | '0' :: c :: rest =>
    if ['x', 'X', 'b', 'B', 'o', 'O'].contains c then
      2 + (rest.takeWhile fun c => c.isAlphanum || c = '_').length
    else decimalLength digits cs
  | _ => decimalLength digits cs
where
  decimalLength (digits : List Char → Nat) (cs : List Char) : Nat :=
    let whole := digits cs
    let fraction := match cs.drop whole with
      | '.' :: '.' :: _ => 0
      | '.' :: rest => 1 + digits rest
      | _ => 0
    let tail := cs.drop (whole + fraction)
    whole + fraction + (tail.length - (Numeral.cutExponent Char.isDigit tail).2.length)

end DocAnnotations.Source.Parser
