import DocAnnotations.Proofs.Import.Lexing
import Mathlib.Data.List.TakeWhile

/-! Where the declaration of a class begins, and how much of a source is read in front of it. -/
namespace DocAnnotations.Import

open QualifiedName Text

theorem foldCase_of_isBlank {c : Char} (h : isBlank c = true) : foldCase c = c := by
  have hletters : ['ſ', 'İ', 'ı'].all (!isBlank ·) = true := by decide
  have hupper : ∀ blanks ∈ blankIntervals, blanks.2 < 65 ∨ 90 < blanks.1 := by decide
  have hne : ∀ letter ∈ ['ſ', 'İ', 'ı'], c ≠ letter := by
    rintro letter hletter rfl
    simpa [h] using List.all_eq_true.mp hletters c hletter
  obtain ⟨blanks, hmem, hlow, hhigh⟩ := Interval.contains_iff.mp h
  have hupper : ¬ (65 ≤ c.toNat ∧ c.toNat ≤ 90) := by
    have := hupper blanks hmem
    omega
  have hlower : c.toLower = c := dif_neg hupper
  simp [foldCase, hne, hlower]

/-- Nothing but modifiers, and white space at the end. -/
structure Modifies (gap : List Char) : Prop where
  words : ∀ w ∈ words gap, isOneOf modifiers w = true
  ends : ∀ c ∈ gap.getLast?, isBlank c = true

theorem mem_of_isOneOf {options : List String} {w : List Char} {c : Char}
    (h : isOneOf options w = true) (hc : c ∈ w) : ∃ o ∈ options, foldCase c ∈ o.toList := by
  obtain ⟨o, ho, heq⟩ := List.any_eq_true.mp h
  rw [decide_eq_true_iff] at heq
  exact ⟨o, ho, heq ▸ List.mem_map_of_mem hc⟩

section DeclarationWord

variable {word : List Char}

theorem noBlank_of_declarationWord (h : isOneOf declarationWords word = true) :
    ∀ c ∈ word, isBlank c = false := by
  intro c hc
  obtain ⟨o, ho, hletter⟩ := mem_of_isOneOf h hc
  have hletters : declarationWords.all (·.toList.all (!isBlank ·)) = true := by decide
  by_contra hblank
  have hblank : isBlank c = true := by simpa using hblank
  rw [foldCase_of_isBlank hblank] at hletter
  simpa [hblank] using List.all_eq_true.mp (List.all_eq_true.mp hletters o ho) c hletter

theorem ne_nil_of_declarationWord (h : isOneOf declarationWords word = true) : word ≠ [] := by
  rintro rfl
  revert h
  decide

theorem isOneOf_modifiers_of_declarationWord (h : isOneOf declarationWords word = true) :
    isOneOf modifiers word = false := by
  obtain ⟨o, ho, heq⟩ := List.any_eq_true.mp h
  rw [decide_eq_true_iff] at heq
  have hall : ∀ o ∈ declarationWords, modifiers.any (fun m => m.toList = o.toList) = false := by
    decide
  rw [isOneOf, ← heq]
  exact hall o ho

end DeclarationWord

/-- Nothing but modifiers stands in front of a declaration word, and white space behind it. -/
def Declares (line : List Char) : Prop :=
  ∃ gap word b rest, line = gap ++ (word ++ b :: rest) ∧ Modifies gap ∧
    isOneOf declarationWords word = true ∧ isBlank b = true

namespace Declares

variable {indent w line rest : List Char}

theorem append (h : Declares line) (more : List Char) : Declares (line ++ more) := by
  obtain ⟨gap, word, b, rest, rfl, hparts⟩ := h
  exact ⟨gap, word, b, rest ++ more, by simp, hparts⟩

/-- A modifier may stand in front. -/
theorem behind_modifier (hindent : ∀ c ∈ indent, isBlank c = true) (hne : w ≠ [])
    (hw : ∀ c ∈ w, isBlank c = false) (hmodifier : isOneOf modifiers w = true)
    (hhead : ∀ c ∈ rest.head?, isBlank c = true) (h : Declares rest) :
    Declares (indent ++ (w ++ rest)) := by
  obtain ⟨gap, word, b, rest, rfl, ⟨hgap, hends⟩, hword, hb⟩ := h
  -- The white space behind the modifier belongs to the gap.
  cases gap with
  | nil =>
    obtain ⟨c, word, rfl⟩ := List.exists_cons_of_ne_nil (ne_nil_of_declarationWord hword)
    have hblank := hhead c rfl
    simp [noBlank_of_declarationWord hword c (by simp)] at hblank
  | cons c gap =>
    have hc : isBlank c = true := hhead c rfl
    refine ⟨indent ++ (w ++ c :: gap), word, b, rest, by simp, ⟨?_, ?_⟩, hword, hb⟩
    · rw [words_append_blank hindent, words_append_cons hc, words_of_not_blank hne hw]
      simpa [words, hc, hmodifier] using hgap
    · rwa [List.getLast?_append_of_ne_nil _ (by simp),
        List.getLast?_append_of_ne_nil _ (by simp)]

theorem of_beginsDeclaration (h : beginsDeclaration line = true) : Declares line := by
  generalize hws : words line = ws at h
  induction ws generalizing line with
  | nil => simp [beginsDeclaration, hws] at h
  | cons w ws ih =>
    obtain ⟨indent, rest, rfl, hindent, hne, hw, rfl, hhead⟩ := exists_of_words_eq_cons hws
    cases rest with
    | nil =>
      -- Nothing stands behind the only word.
      obtain ⟨front, c, rfl⟩ := (List.eq_nil_or_concat' w).resolve_left hne
      have hc : isBlank c = false := hw c (by simp)
      rw [beginsDeclaration, hws, List.dropWhile_cons] at h
      cases hmodifier : isOneOf modifiers (front ++ [c]) with
      | true => simp [words, hmodifier] at h
      | false => simp [words, hmodifier, hc, List.getLast?_append] at h
    | cons b rest =>
      have hb : isBlank b = true := hhead b rfl
      cases hmodifier : isOneOf modifiers w with
      | false =>
        refine ⟨indent, w, b, rest, rfl, ⟨?_, ?_⟩, ?_, hb⟩
        · simp [words_eq_nil_iff.mpr hindent]
        · exact fun c hc => hindent c (List.mem_of_getLast? hc)
        · rw [beginsDeclaration, hws, List.dropWhile_cons, hmodifier] at h
          simp at h
          exact h.1
      | true =>
        have hlast : (indent ++ (w ++ b :: rest)).getLast? = (b :: rest).getLast? := by
          rw [List.getLast?_append_of_ne_nil _ (by simp), List.getLast?_append_of_ne_nil _ (by simp)]
        rw [beginsDeclaration, hws, List.dropWhile_cons, hmodifier, if_pos rfl, hlast] at h
        exact behind_modifier hindent hne hw hmodifier hhead (ih h rfl)

theorem beginsDeclaration (h : Declares line) : beginsDeclaration line = true := by
  obtain ⟨gap, word, b, rest, rfl, ⟨hgap, hends⟩, hword, hb⟩ := h
  have hwords : words (gap ++ (word ++ b :: rest)) = words gap ++ word :: words rest := by
    rw [words_append_gap hends, words_append_cons hb,
      words_of_not_blank (ne_nil_of_declarationWord hword) (noBlank_of_declarationWord hword)]
    rfl
  rw [Import.beginsDeclaration, hwords, List.dropWhile_append_of_pos hgap, List.dropWhile_cons,
    isOneOf_modifiers_of_declarationWord hword]
  cases hrest : words rest with
  | cons w ws => simp [hword]
  | nil =>
    have hlast : ∀ c ∈ (b :: rest).getLast?, isBlank c = true := fun c hc =>
      words_eq_nil_iff.mp (by simpa [words, hb] using hrest) c (List.mem_of_getLast? hc)
    rw [List.getLast?_append_of_ne_nil _ (by simp), List.getLast?_append_of_ne_nil _ (by simp)]
    rw [List.getLast?_eq_some_getLast (by simp)] at hlast ⊢
    simpa [hword] using hlast _ rfl

end Declares

theorem beginsDeclaration_iff {line : List Char} :
    beginsDeclaration line = true ↔ Declares line :=
  ⟨Declares.of_beginsDeclaration, Declares.beginsDeclaration⟩

instance (line : List Char) : Decidable (Declares line) :=
  decidable_of_iff _ beginsDeclaration_iff

/-- A character that stands in no modifier and no declaration word, and is no white space. -/
structure Parts (c : Char) : Prop where
  noBlank : isBlank c = false
  notMem : ∀ o ∈ modifiers ++ declarationWords, foldCase c ∉ o.toList

instance (c : Char) : Decidable (Parts c) :=
  decidable_of_iff (_ ∧ _) ⟨fun ⟨hblank, hmem⟩ => ⟨hblank, hmem⟩, fun h => ⟨h.noBlank, h.notMem⟩⟩

namespace Parts

variable {c : Char}

theorem not_mem_of_isOneOf {options : List String} {w : List Char} (hc : Parts c)
    (hoptions : options ⊆ modifiers ++ declarationWords) (h : isOneOf options w = true) :
    c ∉ w := by
  intro hmem
  obtain ⟨o, ho, hletter⟩ := mem_of_isOneOf h hmem
  exact hc.notMem o (hoptions ho) hletter

theorem not_mem_of_modifies {gap : List Char} (hc : Parts c) (h : Modifies gap) : c ∉ gap := by
  intro hgap
  have hmem : c ∈ (Text.words gap).flatten := by
    rw [flatten_words, List.mem_filter]
    exact ⟨hgap, by simp [hc.noBlank]⟩
  obtain ⟨w, hw, hcw⟩ := List.mem_flatten.mp hmem
  exact hc.not_mem_of_isOneOf (List.subset_append_left _ _) (h.words w hw) hcw

end Parts

/-- What begins with such a character makes no declaration of a line. -/
theorem Declares.of_append_cons {c : Char} (hc : Parts c) {line body : List Char}
    (h : Declares (line ++ c :: body)) : Declares line := by
  obtain ⟨gap, word, b, rest, heq, hgap, hword, hb⟩ := h
  have hnot : c ∉ gap ++ (word ++ [b]) := by
    have hne : b ≠ c := by
      rintro rfl
      simp [hc.noBlank] at hb
    simp [hc.not_mem_of_modifies hgap,
      hc.not_mem_of_isOneOf (List.subset_append_right _ _) hword, Ne.symm hne]
  have heq : line ++ c :: body = (gap ++ (word ++ [b])) ++ rest := by simp [heq]
  obtain ⟨more, hfront, hbody⟩ | ⟨more, rfl, -⟩ := List.append_eq_append_iff.mp heq
  · cases more with
    | nil => exact ⟨gap, word, b, [], by simpa using hfront.symm, hgap, hword, hb⟩
    | cons d more =>
      obtain ⟨rfl, -⟩ := List.cons_eq_cons.mp hbody
      exact absurd (by rw [hfront]; simp) hnot
  · exact Declares.append ⟨gap, word, b, [], by simp, hgap, hword, hb⟩ more

/-- Nothing behind the line of a declaration is read. -/
theorem preambleOf_append_of_declares {front : List Char}
    (h : ∃ line ∈ lines front, Declares line) (rest : List Char) :
    preambleOf (front ++ rest) = preambleOf front := by
  obtain ⟨line, hline, hdeclares⟩ := h
  have hne : front ≠ [] := by
    rintro rfl
    cases hline
  obtain ⟨init, last, behind, hlines, hall, hbehind⟩ := exists_lines_append hne rest
  rw [preambleOf, preambleOf, hlines, hall, List.takeWhile_append, List.takeWhile_append]
  split
  next hlength =>
    -- The last line declares, also with what follows on it.
    have hinit := List.takeWhile_eq_self_iff.mp ((List.takeWhile_prefix _).eq_of_length hlength)
    rw [hlines, List.mem_append, List.mem_singleton] at hline
    obtain hline | rfl := hline
    · exact absurd hdeclares.beginsDeclaration (by simpa using hinit line hline)
    · obtain ⟨more, ls, rfl⟩ := hbehind.exists_eq
      simp [hdeclares.beginsDeclaration, (hdeclares.append more).beginsDeclaration]
  next => rfl

/-- A text of which no line declares is read as a whole. -/
theorem preambleOf_eq_self {cs : List Char} (h : ∀ line ∈ lines cs, ¬ Declares line) :
    preambleOf cs = cs := by
  rw [preambleOf, List.takeWhile_eq_self_iff.mpr fun line hline => ?_, flatten_lines]
  simpa [← beginsDeclaration_iff] using h line hline

/-- A body on the last line of a text makes no declaration of that line. -/
theorem not_declares_of_append_brace {front body : List Char}
    (hfront : ∀ line ∈ lines front, ¬ Declares line)
    (hbody : ∀ line ∈ lines ('{' :: body), ¬ Declares line) :
    ∀ line ∈ lines (front ++ '{' :: body), ¬ Declares line := by
  by_cases hne : front = []
  · rwa [hne, List.nil_append]
  obtain ⟨init, last, behind, hlines, hall, hbehind⟩ := exists_lines_append hne ('{' :: body)
  rw [hlines] at hfront
  rw [hall]
  intro line hline
  rcases List.mem_append.mp hline with hline | hline
  · exact hfront line (List.mem_append_left _ hline)
  have hlast := hfront last (by simp)
  rcases hbehind with rfl | ⟨more, rest, hmore, rfl⟩
  · rcases List.mem_cons.mp hline with rfl | hline
    · exact hlast
    · exact hbody line hline
  · obtain ⟨first, ls, hfirst⟩ := exists_lines_cons '{' body
    rw [hmore] at hfirst hbody
    obtain ⟨rfl, rfl⟩ := List.cons_eq_cons.mp hfirst
    rcases List.mem_cons.mp hline with rfl | hline
    · exact fun h => hlast (h.of_append_cons (by decide))
    · exact hbody line (List.mem_cons_of_mem _ hline)

end DocAnnotations.Import
