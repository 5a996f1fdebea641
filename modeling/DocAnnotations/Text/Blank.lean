import DocAnnotations.Text.Interval

/-!
White space, trimming and words. `words` keeps exactly the characters that are not white space.
-/

namespace DocAnnotations.Text

/-- White space of every script: the separators of Unicode and the control characters that
separate lines, fields and records. -/
def blankIntervals : List Interval :=
  [(0x9, 0xd), (0x1c, 0x20), (0x85, 0x85), (0xa0, 0xa0), (0x1680, 0x1680), (0x2000, 0x200a),
   (0x2028, 0x2029), (0x202f, 0x202f), (0x205f, 0x205f), (0x3000, 0x3000)]

def isBlank (c : Char) : Bool :=
  Interval.contains blankIntervals c.toNat

/-- Drops the characters of a class at the end. -/
def dropWhileEnd (p : Char → Bool) (cs : List Char) : List Char :=
  (cs.reverse.dropWhile p).reverse

/-- Drops the characters of a class at both ends. -/
def trimBy (p : Char → Bool) (cs : List Char) : List Char :=
  dropWhileEnd p (cs.dropWhile p)

/-- Drops white space at both ends. -/
def trim (cs : List Char) : List Char :=
  trimBy isBlank cs

/-- Drops white space at both ends of a text. -/
def strip (s : String) : String :=
  String.ofList (trim s.toList)

/-- The maximal runs of characters that are not white space. -/
def words : List Char → List (List Char)
  | [] => []
  | c :: cs =>
    if isBlank c then words cs
    else match cs, words cs with
      | d :: _, w :: ws => if isBlank d then [c] :: w :: ws else (c :: w) :: ws
      | _, ws => [c] :: ws

theorem words_eq_nil_iff {cs : List Char} : words cs = [] ↔ ∀ c ∈ cs, isBlank c = true := by
  induction cs with
  | nil => simp [words]
  | cons c cs ih =>
    by_cases h : isBlank c = true
    · simp [words, h, ih]
    · have hne : words (c :: cs) ≠ [] := by
        simp only [words, h, Bool.false_eq_true, ↓reduceIte]
        split
        · split <;> simp
        · simp
      simp [hne, h]

/-- Cutting a text into words loses white space only. -/
theorem flatten_words (cs : List Char) : (words cs).flatten = cs.filter (!isBlank ·) := by
  induction cs with
  | nil => rfl
  | cons c cs ih =>
    by_cases h : isBlank c = true
    · simp [words, h, ih]
    · simp only [words, h, Bool.false_eq_true, ↓reduceIte]
      split
      next d r w ws hw =>
        split <;> simp_all
      next => simp_all

end DocAnnotations.Text
