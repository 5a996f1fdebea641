import DocAnnotations.Pieces
import DocAnnotations.Text.Blank

/-!
The decoration of a doc comment: its delimiters, and the asterisk in front of each line.
-/

namespace DocAnnotations.Comment

/-- Drops the characters that open a comment. -/
def dropOpening : List Char → List Char
  | '/' :: '*' :: '*' :: cs => cs
  | '/' :: '*' :: cs => cs
  | cs => cs

/-- Drops the characters that close a comment. -/
def dropClosing : List Char → List Char
  | [] => []
  | ['*', '/'] => []
  | c :: cs => c :: dropClosing cs

def isIndent (c : Char) : Bool :=
  c = ' ' || c = '\t'

/-- Drops the asterisk in front of a line and the blanks before it. An asterisk that closes the
comment stays. -/
def dropMark (line : List Char) : List Char :=
  match line.dropWhile isIndent with
  | '*' :: '/' :: _ => line
  | '*' :: rest => rest
  | _ => line

/-- The text of a comment without its decoration. -/
def undecorate (cs : List Char) : List Char :=
  ['\n'].intercalate
    ((pieces (· = '\n') (dropClosing (dropOpening (Text.trim cs)))).map dropMark)

end DocAnnotations.Comment
