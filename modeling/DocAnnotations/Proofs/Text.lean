import DocAnnotations.Text.Blank
import DocAnnotations.Text.Lines
import Mathlib.Data.List.DropRight
import Mathlib.Tactic.Common

/-! White space around and between words and at the ends of lines, and the lines and words of joined
texts. -/
namespace DocAnnotations.Text

theorem strip_of_not_blank {s : String} (h : ∀ c ∈ s.toList, isBlank c = false) : strip s = s := by
  have hdrop : ∀ cs : List Char, (∀ c ∈ cs, isBlank c = false) → cs.dropWhile isBlank = cs := by
    intro cs hcs
    cases cs with
    | nil => rfl
    | cons c cs => simp [hcs c]
  rw [strip, trim, trimBy, dropWhileEnd, hdrop _ h, hdrop _ (by simpa using h),
    List.reverse_reverse, String.ofList_toList]

theorem append_of_chars {s t : String} {cs ds : List Char} (hs : s = String.ofList cs)
    (ht : t = String.ofList ds) : s ++ t = String.ofList (cs ++ ds) := by
  rw [hs, ht, String.ofList_append]

theorem words_of_not_blank {cs : List Char} (hne : cs ≠ []) (h : ∀ c ∈ cs, isBlank c = false) :
    words cs = [cs] := by
  induction cs with
  | nil => exact absurd rfl hne
  | cons c cs ih =>
    have hc := h c (by simp)
    cases cs with
    | nil => simp [words, hc]
    | cons d cs =>
      have hd := h d (by simp)
      have hrest := ih (by simp) fun e he => h e (by simp [he])
      unfold words
      simp [hc, hd, hrest]

theorem trim_of_not_blank {c d : Char} (hc : isBlank c = false) (hd : isBlank d = false)
    (cs : List Char) : trim (c :: (cs ++ [d])) = c :: (cs ++ [d]) := by
  simp [trim, trimBy, dropWhileEnd, hc, hd]

theorem count_dropWhile {p : Char → Bool} {c : Char} (hc : p c = false) (cs : List Char) :
    (cs.dropWhile p).count c = cs.count c := by
  have hfront : (cs.takeWhile p).count c = 0 := by
    refine List.count_eq_zero.mpr fun hmem => ?_
    exact Bool.false_ne_true (hc.symm.trans (List.all_eq_true.mp List.all_takeWhile c hmem))
  calc (cs.dropWhile p).count c
      = (cs.takeWhile p).count c + (cs.dropWhile p).count c := by rw [hfront, Nat.zero_add]
    _ = cs.count c := by rw [← List.count_append, List.takeWhile_append_dropWhile]

theorem toNat_of_isAlpha {c : Char} (h : c.isAlpha = true) :
    65 ≤ c.toNat ∧ c.toNat ≤ 122 := by
  have hletter : (decide (c.val ≥ 65 ∧ c.val ≤ 90) ||
      decide (c.val ≥ 97) && decide (c.val ≤ 122)) = true := h
  have hrange : 65 ≤ c.toNat ∧ c.toNat ≤ 90 ∨ 97 ≤ c.toNat ∧ c.toNat ≤ 122 := by
    simpa [UInt32.le_iff_toNat_le] using hletter
  omega

theorem isBlank_of_isAlpha {c : Char} (h : c.isAlpha = true) : isBlank c = false := by
  obtain ⟨hlo, hhi⟩ := toNat_of_isAlpha h
  rw [← Bool.not_eq_true, isBlank, Interval.contains_iff]
  simp [blankIntervals]
  omega

/-- Where a text behind a run of characters of a class begins with a character outside of it, the
run ends there. -/
theorem takeWhile_append_of_head {p : Char → Bool} {ds : List Char}
    (h : ∀ d ∈ ds.head?, p d = false) (cs : List Char) :
    (cs ++ ds).takeWhile p = cs.takeWhile p := by
  induction cs with
  | nil =>
    cases ds with
    | nil => rfl
    | cons d ds => simp [h d rfl]
  | cons c cs ih => simp only [List.cons_append, List.takeWhile_cons, ih]

theorem dropWhile_append_of_head {p : Char → Bool} {ds : List Char}
    (h : ∀ d ∈ ds.head?, p d = false) (cs : List Char) :
    (cs ++ ds).dropWhile p = cs.dropWhile p ++ ds := by
  induction cs with
  | nil =>
    cases ds with
    | nil => rfl
    | cons d ds => simp [h d rfl]
  | cons c cs ih =>
    simp only [List.cons_append, List.dropWhile_cons, ih]
    split <;> rfl

/-- A run that ends within a list does not go on behind it. -/
theorem takeWhile_append_of_not_forall {α : Type} {p : α → Bool} {as : List α}
    (h : ¬ ∀ a ∈ as, p a = true) (bs : List α) : (as ++ bs).takeWhile p = as.takeWhile p := by
  rw [List.takeWhile_append, if_neg fun hlength => h ?_]
  exact List.takeWhile_eq_self_iff.mp ((List.takeWhile_prefix p).eq_of_length hlength)

theorem trim_cons {c : Char} (hc : isBlank c = false) (cs : List Char) :
    trim (c :: cs) = dropWhileEnd isBlank (c :: cs) := by
  simp [trim, trimBy, hc]

/-- Trimming loses white space only. -/
theorem count_trim {c : Char} (hc : isBlank c = false) (cs : List Char) :
    (trim cs).count c = cs.count c := by
  rw [trim, trimBy, dropWhileEnd, List.count_reverse, count_dropWhile hc, List.count_reverse,
    count_dropWhile hc]

theorem dropWhileEnd_eq_rdropWhile (p : Char → Bool) (cs : List Char) :
    dropWhileEnd p cs = cs.rdropWhile p := rfl

theorem trim_eq_rdropWhile {cs : List Char} (h : ∀ c ∈ cs.head?, isBlank c = false) :
    trim cs = cs.rdropWhile isBlank := by
  cases cs with
  | nil => rfl
  | cons c cs => rw [trim_cons (h c rfl), dropWhileEnd_eq_rdropWhile]

theorem dropWhileEnd_append (p : Char → Bool) (cs ds : List Char) :
    dropWhileEnd p (cs ++ ds) =
      if dropWhileEnd p ds = [] then dropWhileEnd p cs else cs ++ dropWhileEnd p ds := by
  rw [dropWhileEnd, List.reverse_append, List.dropWhile_append]
  by_cases h : ds.reverse.dropWhile p = []
  · simp [dropWhileEnd, h]
  · simp [dropWhileEnd, h]

/-- What stands in front does not matter. -/
theorem dropWhileEnd_append_congr (p : Char → Bool) (cs : List Char) {ds es : List Char}
    (h : dropWhileEnd p ds = dropWhileEnd p es) :
    dropWhileEnd p (cs ++ ds) = dropWhileEnd p (cs ++ es) := by
  rw [dropWhileEnd_append, dropWhileEnd_append, h]

theorem dropWhileEnd_append_of_forall {p : Char → Bool} {ds : List Char} (h : ∀ d ∈ ds, p d = true)
    (cs : List Char) : dropWhileEnd p (cs ++ ds) = dropWhileEnd p cs := by
  rw [dropWhileEnd_append, if_pos]
  exact List.rdropWhile_eq_nil_iff.mpr h

/-- White space at the end of a text does not count when it is trimmed. -/
theorem trim_append_blank {gap : List Char} (hgap : ∀ c ∈ gap, isBlank c = true) (cs : List Char) :
    trim (cs ++ gap) = trim cs := by
  rw [trim, trimBy, List.dropWhile_append]
  split
  next h =>
    have hnone : gap.dropWhile isBlank = [] := List.dropWhile_eq_nil_iff.mpr hgap
    rw [trim, trimBy, hnone, List.isEmpty_iff.mp h]
  next => exact dropWhileEnd_append_of_forall hgap _

theorem dropWhileEnd_append_of_ne_nil {p : Char → Bool} {ds : List Char} (hne : ds ≠ [])
    (h : dropWhileEnd p ds = ds) (cs es : List Char) :
    dropWhileEnd p (cs ++ ds ++ es) = cs ++ ds ++ dropWhileEnd p es := by
  have hfront : dropWhileEnd p (cs ++ ds) = cs ++ ds := by
    rw [dropWhileEnd_append, h, if_neg hne]
  rw [dropWhileEnd_append, hfront]
  split
  next hes => rw [hes, List.append_nil]
  next => rfl

/-- What holds of joined texts holds of a list of them with separators. -/
theorem intercalate_induction {α : Type} {P : List α → Prop} (hnil : P [])
    (happend : ∀ {cs ds}, P cs → P ds → P (cs ++ ds)) {sep : List α} (hsep : P sep)
    {items : List (List α)} (h : ∀ item ∈ items, P item) : P (sep.intercalate items) := by
  induction items with
  | nil => exact hnil
  | cons item items ih =>
    rw [List.forall_mem_cons] at h
    cases items with
    | nil => simpa using h.1
    | cons next items =>
      rw [List.intercalate_cons_cons]
      exact happend (happend h.1 hsep) (ih h.2)

theorem words_append_blank {indent : List Char} (h : ∀ c ∈ indent, isBlank c = true)
    (cs : List Char) : words (indent ++ cs) = words cs := by
  induction indent with
  | nil => rfl
  | cons c indent ih =>
    have hc : isBlank c = true := h c (by simp)
    have hcs := ih fun d hd => h d (by simp [hd])
    simp [words, hc, hcs]

/-- White space parts words. -/
theorem words_append_cons {b : Char} (hb : isBlank b = true) (cs ds : List Char) :
    words (cs ++ b :: ds) = words cs ++ words ds := by
  induction cs with
  | nil => simp [words, hb]
  | cons c cs ih =>
    by_cases hc : isBlank c = true
    · simp only [List.cons_append, words, hc, if_true, ih]
    · cases cs with
      | nil =>
        simp only [List.nil_append] at ih
        cases hws : words ds <;> simp [words, hc, hb, hws]
      | cons d cs =>
        rw [List.cons_append] at ih ⊢
        rw [words.eq_def, words.eq_def (c :: d :: cs)]
        simp only [List.cons_append, hc, ih]
        cases hd : words (d :: cs) with
        | nil =>
          have hblank : isBlank d = true := words_eq_nil_iff.mp hd d (by simp)
          cases hws : words ds <;> simp [hblank]
        | cons w ws => by_cases hblank : isBlank d = true <;> simp [hblank]

theorem words_append_space {w : List Char} (hne : w ≠ []) (h : ∀ c ∈ w, isBlank c = false)
    (cs : List Char) : words (w ++ ' ' :: cs) = w :: words cs := by
  rw [words_append_cons (by decide), words_of_not_blank hne h]
  rfl

theorem isBlank_of_isLineEnd {c : Char} (h : isLineEnd c = true) : isBlank c = true := by
  have hall : ['\n', '\r', '\x0b', '\x0c', '\x1c', '\x1d', '\x1e', '\u0085', '\u2028',
      '\u2029'].all isBlank = true := by decide
  exact List.all_eq_true.mp hall c (by simpa [isLineEnd] using h)

/-- The character ends a line, and the line does not go on behind it. -/
def breaksLine (c : Char) (cs : List Char) : Bool :=
  isLineEnd c && !(c = '\r' && cs.head? = some '\n')

theorem lines_cons_of_breaks {c : Char} {cs : List Char} (h : breaksLine c cs = true) :
    lines (c :: cs) = [c] :: lines cs := by
  rw [lines]
  exact if_pos h

theorem lines_cons_of_not_breaks {c : Char} {cs l : List Char} {ls : List (List Char)}
    (h : breaksLine c cs = false) (heq : lines cs = l :: ls) :
    lines (c :: cs) = (c :: l) :: ls := by
  rw [lines, heq]
  exact if_neg (by simpa [breaksLine] using h)

/-- A text that ends no line begins the first line of what follows it. -/
theorem lines_append_of_noLineEnd {cs : List Char} (hne : cs ≠ [])
    (h : ∀ c ∈ cs, isLineEnd c = false) (ds : List Char) :
    lines (cs ++ ds) = (cs ++ (lines ds).headD []) :: (lines ds).tail := by
  induction cs with
  | nil => exact absurd rfl hne
  | cons c cs ih =>
    obtain ⟨hc, hcs⟩ := List.forall_mem_cons.mp h
    have hbreaks (es : List Char) : breaksLine c es = false := by simp [breaksLine, hc]
    cases cs with
    | nil =>
      cases hds : lines ds with
      | nil =>
        have hnil : ds = [] := by rw [← flatten_lines ds, hds]; rfl
        rw [hnil, List.append_nil, lines, hc]
        rfl
      | cons l ls => exact lines_cons_of_not_breaks (hbreaks _) hds
    | cons d cs => exact lines_cons_of_not_breaks (hbreaks _) (ih (List.cons_ne_nil d cs) hcs)

theorem lines_append {cs : List Char} (h : ∀ c ∈ cs, isLineEnd c = false) (rest : List Char) :
    lines (cs ++ '\n' :: rest) = (cs ++ ['\n']) :: lines rest := by
  induction cs with
  | nil => rfl
  | cons c cs ih =>
    have hc : isLineEnd c = false := h c (by simp)
    have hcs := ih fun d hd => h d (by simp [hd])
    rw [List.cons_append, lines, hcs, hc]
    rfl

theorem words_append_gap {gap : List Char} (h : ∀ c ∈ gap.getLast?, isBlank c = true)
    (cs : List Char) : words (gap ++ cs) = words gap ++ words cs := by
  obtain rfl | ⟨front, b, rfl⟩ := gap.eq_nil_or_concat
  · rfl
  · have hb : isBlank b = true := h b (by simp)
    have hfront := words_append_cons hb front []
    rw [List.concat_eq_append, List.append_assoc, List.singleton_append, words_append_cons hb,
      hfront]
    simp [words]

/-- The first word of a text stands behind white space and in front of white space. -/
theorem exists_of_words_eq_cons {cs w : List Char} {ws : List (List Char)}
    (h : words cs = w :: ws) : ∃ indent rest, cs = indent ++ (w ++ rest) ∧
      (∀ c ∈ indent, isBlank c = true) ∧ w ≠ [] ∧ (∀ c ∈ w, isBlank c = false) ∧
        words rest = ws ∧ ∀ c ∈ rest.head?, isBlank c = true := by
  induction cs with
  | nil => cases h
  | cons c cs ih =>
    by_cases hc : isBlank c = true
    · simp only [words, hc, if_true] at h
      obtain ⟨indent, rest, rfl, hindent, hw⟩ := ih h
      exact ⟨c :: indent, rest, rfl, by simpa [hc] using hindent, hw⟩
    · have hsplit := (List.takeWhile_append_dropWhile (p := (!isBlank ·)) (l := c :: cs))
      have hfirst : ∀ d ∈ (c :: cs).takeWhile (!isBlank ·), isBlank d = false := fun d hd => by
        simpa using List.all_eq_true.mp List.all_takeWhile d hd
      have hne : (c :: cs).takeWhile (!isBlank ·) ≠ [] := by simp [hc]
      have hword := words_of_not_blank hne hfirst
      generalize (c :: cs).takeWhile (!isBlank ·) = first at hsplit hfirst hne hword
      cases hrest : (c :: cs).dropWhile (!isBlank ·) with
      | nil =>
        rw [hrest, List.append_nil] at hsplit
        rw [← hsplit, hword] at h
        cases h
        exact ⟨[], [], by simp [hsplit], by simp, hne, hfirst, rfl, by simp⟩
      | cons b rest =>
        have hb : isBlank b = true := by
          have := List.head?_dropWhile_not (!isBlank ·) (c :: cs)
          simpa [hrest] using this
        rw [← hsplit, hrest, words_append_cons hb, hword] at h
        cases h
        refine ⟨[], b :: rest, (hrest ▸ hsplit).symm, by simp, hne, hfirst, ?_, by simp [hb]⟩
        simp [words, hb]

/-- The lines of a text behind a last line follow it, or the first of them goes on with it. -/
def Continues (last : List Char) (ls behind : List (List Char)) : Prop :=
  behind = last :: ls ∨ ∃ more rest, ls = more :: rest ∧ behind = (last ++ more) :: rest

theorem Continues.cons {last : List Char} {ls behind : List (List Char)}
    (h : Continues last ls behind) (c : Char) :
    ∃ first rest, behind = first :: rest ∧ Continues (c :: last) ls ((c :: first) :: rest) := by
  rcases h with rfl | ⟨more, rest, rfl, rfl⟩
  · exact ⟨last, ls, rfl, .inl rfl⟩
  · exact ⟨last ++ more, rest, rfl, .inr ⟨more, rest, rfl, rfl⟩⟩

theorem Continues.exists_eq {last : List Char} {ls behind : List (List Char)}
    (h : Continues last ls behind) : ∃ more rest, behind = (last ++ more) :: rest := by
  rcases h with rfl | ⟨more, rest, -, rfl⟩
  · exact ⟨[], ls, by rw [List.append_nil]⟩
  · exact ⟨more, rest, rfl⟩

theorem exists_lines_cons (c : Char) (cs : List Char) :
    ∃ first rest, lines (c :: cs) = (c :: first) :: rest := by
  rw [lines]
  split
  next => exact ⟨[], lines cs, rfl⟩
  next =>
    cases lines cs with
    | nil => exact ⟨[], [], rfl⟩
    | cons l ls => exact ⟨l, ls, rfl⟩

/-- The lines of a text in front of another are kept, up to the last one. -/
theorem exists_lines_append {cs : List Char} (hne : cs ≠ []) (ds : List Char) :
    ∃ init last behind, lines cs = init ++ [last] ∧ lines (cs ++ ds) = init ++ behind ∧
      Continues last (lines ds) behind := by
  induction cs with
  | nil => exact absurd rfl hne
  | cons c cs ih =>
    cases cs with
    | nil =>
      refine ⟨[], [c], lines ([c] ++ ds), by simp [lines], rfl, ?_⟩
      rw [List.cons_append, List.nil_append, lines]
      split
      next => exact .inl rfl
      next =>
        cases lines ds with
        | nil => exact .inl rfl
        | cons more rest => exact .inr ⟨more, rest, rfl, rfl⟩
    | cons d cs =>
      obtain ⟨init, last, behind, hlines, hall, hbehind⟩ := ih (by simp)
      rw [List.cons_append] at hall
      rw [List.cons_append, List.cons_append]
      -- What follows `c` begins another line, or its first line goes on with `c`.
      cases hbreaks : breaksLine c (d :: cs) with
      | true =>
        have hbehind' : breaksLine c (d :: (cs ++ ds)) = true := hbreaks
        rw [lines_cons_of_breaks hbreaks, lines_cons_of_breaks hbehind', hlines, hall]
        exact ⟨[c] :: init, last, behind, rfl, rfl, hbehind⟩
      | false =>
        have hbehind' : breaksLine c (d :: (cs ++ ds)) = false := hbreaks
        cases init with
        | cons first init =>
          exact ⟨(c :: first) :: init, last, behind, lines_cons_of_not_breaks hbreaks hlines,
            lines_cons_of_not_breaks hbehind' hall, hbehind⟩
        | nil =>
          obtain ⟨first, rest, rfl, hcons⟩ := hbehind.cons c
          exact ⟨[], c :: last, (c :: first) :: rest, lines_cons_of_not_breaks hbreaks hlines,
            lines_cons_of_not_breaks hbehind' hall, hcons⟩

end DocAnnotations.Text
