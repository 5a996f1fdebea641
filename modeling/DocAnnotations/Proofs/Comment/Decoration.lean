import DocAnnotations.Comment.Decoration
import DocAnnotations.Proofs.Argument.Print

/-! Texts without decoration. -/
namespace DocAnnotations

theorem pieces_of_forall {α : Type} {separates : α → Bool} {as : List α}
    (h : ∀ a ∈ as, separates a = false) : pieces separates as = [as] := by
  induction as with
  | nil => rfl
  | cons a rest ih => simp [pieces, ih fun b hb => h b (by simp [hb]), h a]

namespace Comment

theorem dropClosing_of_not_suffix {cs : List Char} (h : ¬ ['*', '/'] <:+ cs) :
    dropClosing cs = cs := by
  induction cs with
  | nil => rfl
  | cons c cs ih =>
    rw [dropClosing, ih fun hcs => h (hcs.trans (List.suffix_cons c cs))]
    rintro rfl rfl
    exact h List.suffix_rfl

theorem dropClosing_append {d : Char} (hd : d ≠ '/') (cs : List Char) :
    dropClosing (cs ++ [d]) = cs ++ [d] := by
  refine dropClosing_of_not_suffix fun h => hd ?_
  simpa using (h.getLast (by simp)).symm

/-- A single line from an at sign to a parenthesis has no decoration. -/
theorem undecorate_of_line {cs : List Char} (h : '\n' ∉ cs) :
    undecorate ('@' :: (cs ++ [')'])) = '@' :: (cs ++ [')']) := by
  have hpieces : pieces (· = '\n') ('@' :: (cs ++ [')'])) = ['@' :: (cs ++ [')'])] :=
    pieces_of_forall fun c hc => by
      have hm : '\n' ∉ '@' :: (cs ++ [')']) := by simpa using h
      exact decide_eq_false fun hn => hm (hn ▸ hc)
  rw [undecorate, Text.trim_of_not_blank rfl rfl, dropOpening, ← List.cons_append,
    dropClosing_append (by decide), List.cons_append, hpieces]
  · simp [dropMark, isIndent]
  · simp
  · simp

end Comment

end DocAnnotations
