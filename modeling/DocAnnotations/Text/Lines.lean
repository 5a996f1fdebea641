/-!
Lines of a text with their ends. Nothing is lost: the lines concatenate to the text.
-/

namespace DocAnnotations.Text

/-- Characters that end a line. A carriage return and a line feed after it end one line. -/
def isLineEnd (c : Char) : Bool :=
  ['\n', '\r', '\x0b', '\x0c', '\x1c', '\x1d', '\x1e', '\u0085', '\u2028', '\u2029'].contains c

/-- The lines of a text, each with the characters that end it. -/
def lines : List Char → List (List Char)
  | [] => []
  | c :: cs =>
    if isLineEnd c && !(c = '\r' && cs.head? = some '\n') then [c] :: lines cs
    else match lines cs with
      | [] => [[c]]
      | l :: ls => (c :: l) :: ls

@[simp]
theorem flatten_lines (cs : List Char) : (lines cs).flatten = cs := by
  induction cs with
  | nil => rfl
  | cons c cs ih =>
    simp only [lines]
    split
    · simp [ih]
    · split <;> simp_all

end DocAnnotations.Text
