/-!
Lists cut at separators. Putting the separator back between the pieces gives the list again.
-/

namespace DocAnnotations

variable {α : Type}

/-- The pieces of a list between the elements that separate them. There is always one. -/
def pieces (separates : α → Bool) : List α → List (List α)
  | [] => [[]]
  | a :: rest =>
    match pieces separates rest with
    | [] => [[a]]
    | piece :: others =>
      if separates a then [] :: piece :: others else (a :: piece) :: others

theorem pieces_ne_nil (separates : α → Bool) (as : List α) : pieces separates as ≠ [] := by
  cases as with
  | nil => simp [pieces]
  | cons a rest =>
    simp only [pieces]
    split
    · simp
    · split <;> simp

theorem intercalate_pieces [DecidableEq α] (separator : α) (as : List α) :
    [separator].intercalate (pieces (· = separator) as) = as := by
  induction as with
  | nil => rfl
  | cons a rest ih =>
    simp only [pieces]
    split
    next h => exact absurd h (pieces_ne_nil _ rest)
    next piece others h =>
      rw [h] at ih
      by_cases ha : a = separator
      · subst ha
        simpa [List.intercalate_cons_cons] using ih
      · cases others with
        | nil => simp_all
        | cons other others => simp_all [List.intercalate_cons_cons]

end DocAnnotations
