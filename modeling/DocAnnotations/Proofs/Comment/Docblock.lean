import DocAnnotations.Proofs.Comment.Appended
import DocAnnotations.Proofs.Mention

/-! Comments with delimiters and a mark in front of each line: their annotations are those of the
lines. -/
namespace DocAnnotations

section Pieces

variable {α : Type} {separates : α → Bool} {a : α} {as bs p : List α}

theorem pieces_cons_of_separates (h : separates a = true) (as : List α) :
    pieces separates (a :: as) = [] :: pieces separates as := by
  rw [pieces]
  split
  next hnil => exact absurd hnil (pieces_ne_nil separates as)
  next heq => rw [if_pos h, heq]

theorem pieces_cons_of_not {first : List α} {rest : List (List α)} (h : separates a = false)
    (heq : pieces separates as = first :: rest) :
    pieces separates (a :: as) = (a :: first) :: rest := by
  rw [pieces, heq]
  exact if_neg (by simp [h])

theorem exists_pieces_eq_cons (separates : α → Bool) (as : List α) :
    ∃ first rest, pieces separates as = first :: rest :=
  List.exists_cons_of_ne_nil (pieces_ne_nil separates as)

/-- The last piece of a list goes on with the first one of what is appended. -/
theorem exists_pieces_append (separates : α → Bool) (as bs : List α) :
    ∃ init last first rest, pieces separates as = init ++ [last] ∧
      pieces separates bs = first :: rest ∧
        pieces separates (as ++ bs) = init ++ (last ++ first) :: rest := by
  induction as with
  | nil =>
    obtain ⟨first, rest, hbs⟩ := exists_pieces_eq_cons separates bs
    exact ⟨[], [], first, rest, rfl, hbs, hbs⟩
  | cons a as ih =>
    obtain ⟨init, last, first, rest, has, hbs, hall⟩ := ih
    cases ha : separates a with
    | true =>
      refine ⟨[] :: init, last, first, rest, ?_, hbs, ?_⟩
      · rw [pieces_cons_of_separates ha, has, List.cons_append]
      · rw [List.cons_append, pieces_cons_of_separates ha, hall, List.cons_append]
    | false =>
      rcases init with _ | ⟨i, init⟩
      · exact ⟨[], a :: last, first, rest, pieces_cons_of_not ha has, hbs,
          pieces_cons_of_not ha hall⟩
      · exact ⟨(a :: i) :: init, last, first, rest, pieces_cons_of_not ha has, hbs,
          pieces_cons_of_not ha hall⟩

/-- Each piece in front of a list is in front of one of its pieces. -/
theorem exists_prefix_of_mem_pieces (h : as <+: bs) (hp : p ∈ pieces separates as) :
    ∃ q ∈ pieces separates bs, p <+: q := by
  obtain ⟨more, rfl⟩ := h
  obtain ⟨init, last, first, rest, has, -, hall⟩ := exists_pieces_append separates as more
  rw [has, List.mem_append, List.mem_singleton] at hp
  rw [hall]
  rcases hp with hp | rfl
  · exact ⟨p, List.mem_append_left _ hp, List.prefix_rfl⟩
  · exact ⟨p ++ first, List.mem_append_right _ List.mem_cons_self, List.prefix_append p first⟩

theorem pieces_append_cons (has : ∀ b ∈ as, separates b = false) (ha : separates a = true)
    (bs : List α) : pieces separates (as ++ a :: bs) = as :: pieces separates bs := by
  induction as with
  | nil => exact pieces_cons_of_separates ha bs
  | cons b as ih =>
    obtain ⟨hb, has⟩ := List.forall_mem_cons.mp has
    exact pieces_cons_of_not hb (ih has)

theorem pieces_intercalate [DecidableEq α] {separator : α} {parts : List (List α)}
    (hne : parts ≠ []) (h : ∀ p ∈ parts, separator ∉ p) :
    pieces (· = separator) ([separator].intercalate parts) = parts := by
  induction parts with
  | nil => exact absurd rfl hne
  | cons p parts ih =>
    obtain ⟨hp, hparts⟩ := List.forall_mem_cons.mp h
    have hpart : ∀ a ∈ p, decide (a = separator) = false :=
      fun a ha => decide_eq_false fun heq => hp (heq ▸ ha)
    rcases parts with _ | ⟨next, parts⟩
    · rw [List.intercalate_singleton]
      exact pieces_of_forall hpart
    · rw [List.intercalate_cons_cons, List.append_assoc, List.singleton_append,
        pieces_append_cons hpart (decide_eq_true rfl), ih (List.cons_ne_nil next parts) hparts]

end Pieces

namespace Comment

open Text

/-- A line on which no decoration stands. -/
structure Bare (line : List Char) : Prop where
  newline : '\n' ∉ line
  closing : ¬ ['*', '/'] <:+: line
  slash : line.head? ≠ some '/'
  mark : (line.dropWhile isIndent).head? ≠ some '*'

instance (line : List Char) : Decidable (Bare line) :=
  decidable_of_iff ('\n' ∉ line ∧ ¬ ['*', '/'] <:+: line ∧ line.head? ≠ some '/' ∧
      (line.dropWhile isIndent).head? ≠ some '*')
    ⟨fun ⟨hnewline, hclosing, hslash, hmark⟩ => ⟨hnewline, hclosing, hslash, hmark⟩,
      fun h => ⟨h.newline, h.closing, h.slash, h.mark⟩⟩

/-- A comment with its delimiters on lines of their own, and a mark in front of each line between
them. -/
def docblock (lines : List (List Char)) : List Char :=
  "/**\n".toList ++ lines.flatMap (fun line => ' ' :: '*' :: (line ++ ['\n'])) ++ " */".toList

section Bare

variable {line cs : List Char}

theorem bare_nil : Bare [] := by decide

theorem dropOpening_of_head (h : cs.head? ≠ some '/') : dropOpening cs = cs := by
  unfold dropOpening
  split
  next => exact absurd rfl h
  next => exact absurd rfl h
  next => rfl

theorem dropClosing_append_closing (cs : List Char) : dropClosing (cs ++ ['*', '/']) = cs := by
  induction cs with
  | nil => rfl
  | cons c cs ih =>
    rw [List.cons_append, dropClosing, ih]
    rintro - h
    have := congrArg List.length h
    simp at this

theorem dropMark_of_head (h : (line.dropWhile isIndent).head? ≠ some '*') :
    dropMark line = line := by
  unfold dropMark
  split
  next => rfl
  next hrest => exact absurd (congrArg List.head? hrest) h
  next => rfl

theorem dropMark_marked (h : line.head? ≠ some '/') : dropMark (' ' :: '*' :: line) = line := by
  have hmark : (' ' :: '*' :: line).dropWhile isIndent = '*' :: line := by
    simp [isIndent]
  unfold dropMark
  rw [hmark]
  split
  next heq =>
    cases heq
    exact absurd rfl h
  next heq =>
    cases heq
    rfl
  next hnot => exact absurd rfl (hnot line)

/-- A mark that stands in front of a part of a line stands in front of the line. -/
theorem head?_dropWhile_of_isPrefix (h : cs <+: line)
    (hc : (cs.dropWhile isIndent).head? = some '*') :
    (line.dropWhile isIndent).head? = some '*' := by
  obtain ⟨rest, rfl⟩ := h
  obtain ⟨more, hmore⟩ := List.head?_eq_some_iff.mp hc
  rw [List.dropWhile_append, hmore]
  rfl

end Bare

section Undecorate

variable {lines : List (List Char)} {line cs : List Char}

theorem flatMap_append_eq_intercalate (d : Char) (parts : List (List Char)) (last : List Char) :
    parts.flatMap (· ++ [d]) ++ last = [d].intercalate (parts ++ [last]) := by
  induction parts with
  | nil => simp
  | cons p parts ih =>
    rw [List.flatMap_cons, List.append_assoc, ih, List.cons_append,
      List.intercalate_cons_of_ne_nil (by simp)]

theorem docblock_eq (lines : List (List Char)) :
    docblock lines = '/' :: '*' :: '*' ::
      (['\n'].intercalate ([] :: (lines.map (' ' :: '*' :: ·) ++ [[' ']])) ++ ['*', '/']) := by
  have hlines : lines.flatMap (fun line => ' ' :: '*' :: (line ++ ['\n'])) =
      (lines.map (' ' :: '*' :: ·)).flatMap (· ++ ['\n']) := by
    rw [List.flatMap_map]
    rfl
  have hparts := flatMap_append_eq_intercalate '\n' (lines.map (' ' :: '*' :: ·)) [' ']
  rw [List.intercalate_cons_of_ne_nil (by simp), ← hparts, docblock, hlines]
  simp

/-- Without its decoration, a comment is the text of its lines with white space around it. -/
theorem undecorate_docblock (hlines : ∀ line ∈ lines, Bare line) :
    undecorate (docblock lines) = ['\n'].intercalate ([] :: (lines ++ [[' ']])) := by
  have hnewline : ∀ p ∈ [] :: (lines.map (' ' :: '*' :: ·) ++ [[' ']]), '\n' ∉ p := by
    intro p hp
    rcases List.mem_cons.mp hp with rfl | hp
    · exact List.not_mem_nil
    · rcases List.mem_append.mp hp with hp | hp
      · obtain ⟨line, hline, rfl⟩ := List.mem_map.mp hp
        simpa using (hlines line hline).newline
      · obtain rfl := List.mem_singleton.mp hp
        decide
  have hmarks : (lines.map (' ' :: '*' :: ·)).map dropMark = lines := by
    rw [List.map_map]
    exact (List.map_congr_left fun line hline => dropMark_marked (hlines line hline).slash).trans
      (List.map_id lines)
  have htrim : trim (docblock lines) = docblock lines := by
    have hslash : isBlank '/' = false := by decide
    rw [docblock_eq]
    simpa using trim_of_not_blank hslash hslash ('*' :: '*' ::
      (['\n'].intercalate ([] :: (lines.map (' ' :: '*' :: ·) ++ [[' ']])) ++ ['*']))
  rw [undecorate, htrim, docblock_eq, dropOpening, dropClosing_append_closing,
    pieces_intercalate (List.cons_ne_nil _ _) hnewline, List.map_cons, List.map_append, hmarks]
  rfl

theorem head?_intercalate_ne (hlines : ∀ line ∈ lines, Bare line) :
    (['\n'].intercalate lines).head? ≠ some '/' := by
  rcases lines with _ | ⟨line, _ | ⟨next, lines⟩⟩
  · nofun
  · simpa using (hlines line List.mem_cons_self).slash
  · rw [List.intercalate_cons_cons]
    have hslash := (hlines line List.mem_cons_self).slash
    cases line with
    | nil => nofun
    | cons c line => exact hslash

theorem bare_of_mem_pieces (hlines : ∀ line ∈ lines, Bare line)
    (h : line ∈ pieces (· = '\n') (['\n'].intercalate lines)) : Bare line := by
  rcases lines with _ | ⟨first, lines⟩
  · obtain rfl := List.mem_singleton.mp h
    exact bare_nil
  · rw [pieces_intercalate (List.cons_ne_nil _ _) fun p hp => (hlines p hp).newline] at h
    exact hlines line h

/-- Text in front of the lines has no decoration, but its white space is trimmed. -/
theorem undecorate_of_prefix (hlines : ∀ line ∈ lines, Bare line)
    (hcs : trim cs <+: ['\n'].intercalate lines) : undecorate cs = trim cs := by
  have hopening : (trim cs).head? ≠ some '/' := by
    intro hc
    refine head?_intercalate_ne hlines ?_
    obtain ⟨rest, hrest⟩ := hcs
    rw [← hrest, List.head?_append, hc]
    rfl
  have hclosing : ¬ ['*', '/'] <:+ trim cs := by
    intro hsuffix
    have hinfix := hsuffix.isInfix.trans hcs.isInfix
    obtain ⟨line, hline, hline'⟩ := (infix_intercalate_iff (by simp) (by decide)).mp hinfix
    exact (hlines line hline).closing hline'
  have hmarks : (pieces (· = '\n') (trim cs)).map dropMark = pieces (· = '\n') (trim cs) := by
    refine (List.map_congr_left fun p hp => dropMark_of_head fun hmark => ?_).trans (List.map_id _)
    obtain ⟨line, hline, hprefix⟩ := exists_prefix_of_mem_pieces hcs hp
    exact (bare_of_mem_pieces hlines hline).mark (head?_dropWhile_of_isPrefix hprefix hmark)
  rw [undecorate, dropOpening_of_head hopening, dropClosing_of_not_suffix hclosing, hmarks,
    intercalate_pieces]

theorem fragmentsOf_newline (reader : ArgumentReader) (cs : List Char) :
    fragmentsOf reader ('\n' :: cs) = fragmentsOf reader cs := by
  have hnot : ¬ ('\n' = '@' ∧ true = true) := by decide
  rw [fragmentsOf, splitAtSigil, if_neg hnot]
  rfl

theorem intercalate_append_singleton (d : Char) {parts : List (List Char)} (hne : parts ≠ [])
    (last : List Char) :
    [d].intercalate (parts ++ [last]) = [d].intercalate parts ++ d :: last := by
  induction parts with
  | nil => exact absurd rfl hne
  | cons p parts ih =>
    rw [List.cons_append, List.intercalate_cons_of_ne_nil (by simp)]
    rcases parts with _ | ⟨next, parts⟩
    · simp
    · rw [ih (List.cons_ne_nil next parts), List.intercalate_cons_cons,
        List.append_assoc _ _ (d :: _)]

/-- Behind the last line, only white space is left of the decoration. -/
theorem exists_intercalate_eq (lines : List (List Char)) :
    ∃ gap, (∀ c ∈ gap, isBlank c = true) ∧
      ['\n'].intercalate ([] :: (lines ++ [[' ']])) =
        '\n' :: (['\n'].intercalate lines ++ gap) := by
  have hspace : isBlank ' ' = true := by decide
  have hnewline : isBlank '\n' = true := isBlank_of_isLineEnd rfl
  rw [List.intercalate_cons_of_ne_nil (by simp)]
  rcases lines with _ | ⟨line, lines⟩
  · exact ⟨[' '], List.forall_mem_singleton.mpr hspace, by simp⟩
  · refine ⟨['\n', ' '],
      List.forall_mem_cons.mpr ⟨hnewline, List.forall_mem_singleton.mpr hspace⟩, ?_⟩
    rw [intercalate_append_singleton '\n' (List.cons_ne_nil line lines)]
    rfl

end Undecorate

/-- The decoration of a comment adds nothing to the annotations of its lines, and takes nothing from
them. -/
theorem fragments_docblock {lines : List (List Char)} (hlines : ∀ line ∈ lines, Bare line)
    (hfirst : ∀ c ∈ (['\n'].intercalate lines).head?, isBlank c = false) :
    fragments (String.ofList (docblock lines)) =
      fragments (String.ofList (['\n'].intercalate lines)) := by
  obtain ⟨gap, hgap, hinner⟩ := exists_intercalate_eq lines
  have htrim := trim_eq_rdropWhile hfirst
  have hsplit := List.rdropWhile_append_rtakeWhile (p := isBlank) (l := ['\n'].intercalate lines)
  have hblank : ∀ c ∈ (['\n'].intercalate lines).rtakeWhile isBlank ++ gap, isBlank c = true := by
    intro c hc
    rcases List.mem_append.mp hc with hc | hc
    · exact List.mem_rtakeWhile_imp hc
    · exact hgap c hc
  have hbare : undecorate (['\n'].intercalate lines) = trim (['\n'].intercalate lines) :=
    undecorate_of_prefix hlines (htrim ▸ List.rdropWhile_prefix _ _)
  calc fragments (String.ofList (docblock lines))
      = fragmentsOf .withChildren ('\n' :: (['\n'].intercalate lines ++ gap)) := by
        rw [fragments, String.toList_ofList, undecorate_docblock hlines, hinner]
    _ = fragmentsOf .withChildren (['\n'].intercalate lines ++ gap) := fragmentsOf_newline _ _
    _ = fragmentsOf .withChildren (trim (['\n'].intercalate lines)) := by
        rw [← hsplit, List.append_assoc, fragmentsOf_append_blank hblank, hsplit, htrim]
    _ = fragments (String.ofList (['\n'].intercalate lines)) := by
        rw [fragments, String.toList_ofList, hbare]

/-- An argument list over two lines, with an asterisk and a parenthesis in it, an empty line, and an
argument list without an end. -/
theorem fragments_docblock_lines :
    let lines := ["@A(\"*(\",".toList, "  x * 2) text".toList, [], "@B(2".toList]
    (∀ line ∈ lines, Bare line) ∧
      (∀ c ∈ (['\n'].intercalate lines).head?, isBlank c = false) ∧
        fragments (String.ofList (docblock lines)) =
          fragments (String.ofList (['\n'].intercalate lines)) := by
  intro lines
  have hlines : ∀ line ∈ lines, Bare line := by decide
  have hfirst : ∀ c ∈ (['\n'].intercalate lines).head?, isBlank c = false := by
    have hhead : (['\n'].intercalate lines).head? = some '@' := by decide
    rintro c hc
    obtain rfl : '@' = c := Option.some.inj (hhead.symm.trans hc)
    decide
  exact ⟨hlines, hfirst, fragments_docblock hlines hfirst⟩

end Comment

end DocAnnotations
