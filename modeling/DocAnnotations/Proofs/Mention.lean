import DocAnnotations.Proofs.Comment.Written
import Mathlib.Data.List.Infix

/-! Texts that mention placeholders, and texts of comments that do not. -/
namespace DocAnnotations

/-- The text that every placeholder begins with. -/
def Fragment.stem : List Char := "_child_".toList

/-- The text of a placeholder without its number stands in a text. -/
def Mentions (cs : List Char) : Prop :=
  Fragment.stem <:+: cs

instance (cs : List Char) : Decidable (Mentions cs) :=
  inferInstanceAs (Decidable (Fragment.stem <:+: cs))

theorem Mentions.mono {cs ds : List Char} (h : ds <:+: cs) (hd : Mentions ds) : Mentions cs :=
  hd.trans h

theorem mentions_placeholder (n : Nat) : Mentions (Fragment.placeholder n).toList := by
  rw [Fragment.toList_placeholder]
  exact ⟨[], Nat.toDigits 10 n, rfl⟩

theorem isBlank_of_mem_stem {c : Char} (hc : c ∈ Fragment.stem) : Text.isBlank c = false := by
  have hall : Fragment.stem.all (!Text.isBlank ·) = true := by decide
  simpa using List.all_eq_true.mp hall c hc

/-- An infix without a character stands before or behind each place of it. -/
theorem infix_append_cons_iff {α : Type} {as bs cs : List α} {a : α} (ha : a ∉ as) :
    as <:+: bs ++ a :: cs ↔ as <:+: bs ∨ as <:+: cs := by
  constructor
  · rintro ⟨front, behind, h⟩
    obtain ⟨more, rfl, -⟩ | ⟨more, hbefore, hmore⟩ := List.append_eq_append_iff.mp h
    · exact .inl ⟨front, more, rfl⟩
    · rcases more with _ | ⟨b, more⟩
      · rw [List.append_nil] at hbefore
        exact .inl (hbefore ▸ (List.suffix_append front as).isInfix)
      · obtain ⟨rfl, rfl⟩ := List.cons_eq_cons.mp hmore
        obtain ⟨rest, -, rfl⟩ | ⟨rest, rfl, hrest⟩ := List.append_eq_append_iff.mp hbefore
        · simp at ha
        · rcases rest with _ | ⟨d, rest⟩
          · obtain rfl : a :: more = as := hrest
            exact absurd List.mem_cons_self ha
          · obtain ⟨-, rfl⟩ := List.cons_eq_cons.mp hrest
            exact .inr ⟨rest, behind, rfl⟩
  · rintro (h | h)
    · exact h.trans (List.prefix_append _ _).isInfix
    · exact h.trans ((List.suffix_cons a cs).trans (List.suffix_append bs _)).isInfix

/-- An infix without the separator stands in one of the texts that are joined. -/
theorem infix_intercalate_iff {α : Type} {as : List α} {a : α} (hne : as ≠ []) (ha : a ∉ as)
    {parts : List (List α)} : as <:+: [a].intercalate parts ↔ ∃ p ∈ parts, as <:+: p := by
  induction parts with
  | nil => simpa using hne
  | cons p parts ih =>
    rcases parts with _ | ⟨next, parts⟩
    · simp
    · rw [List.intercalate_cons_cons, List.append_assoc, List.singleton_append,
        infix_append_cons_iff ha, ih, List.exists_mem_cons_iff _ p]

theorem mentions_append_cons_iff {cs ds : List Char} {c : Char} (hc : c ∉ Fragment.stem) :
    Mentions (cs ++ c :: ds) ↔ Mentions cs ∨ Mentions ds :=
  infix_append_cons_iff hc

/-- Characters that the infix does not hold may be dropped. -/
theorem infix_dropWhile {α : Type} {p : α → Bool} {as bs : List α} (ha : ∀ a ∈ as, p a = false)
    (h : as <:+: bs) : as <:+: bs.dropWhile p := by
  induction bs with
  | nil => exact h
  | cons b bs ih =>
    by_cases hb : p b = true
    · rw [List.dropWhile_cons_of_pos hb]
      have hnot : b ∉ as := fun hm => by simp [ha b hm] at hb
      have hsplit : as <:+: [] ∨ as <:+: bs := (infix_append_cons_iff hnot).mp h
      refine ih (hsplit.elim (fun hnil => ?_) id)
      rw [List.infix_nil.mp hnil]
      exact List.nil_infix
    · rwa [List.dropWhile_cons_of_neg hb]

theorem trim_isInfix (cs : List Char) : Text.trim cs <:+: cs := by
  rw [Text.trim, Text.trimBy, Text.dropWhileEnd]
  have hend (ds : List Char) : (ds.reverse.dropWhile Text.isBlank).reverse <+: ds := by
    rw [← List.reverse_suffix, List.reverse_reverse]
    exact List.dropWhile_suffix _
  exact (hend _).isInfix.trans (List.dropWhile_suffix _).isInfix

/-- White space around a text says nothing about placeholders. -/
theorem mentions_trim_iff {cs : List Char} : Mentions (Text.trim cs) ↔ Mentions cs := by
  refine ⟨.mono (trim_isInfix cs), fun h => ?_⟩
  have hfront := infix_dropWhile (fun _ => isBlank_of_mem_stem) h
  have hreverse : ∀ c ∈ Fragment.stem.reverse, Text.isBlank c = false :=
    fun c hc => isBlank_of_mem_stem (List.mem_reverse.mp hc)
  have hback := infix_dropWhile hreverse (List.reverse_infix.mpr hfront)
  rw [← List.reverse_infix, List.reverse_reverse] at hback
  exact hback

theorem isInfix_of_mem_words {cs w : List Char} (h : w ∈ Text.words cs) : w <:+: cs := by
  induction hws : Text.words cs generalizing cs with
  | nil => simp [hws] at h
  | cons first ws ih =>
    obtain ⟨indent, rest, rfl, -, -, -, hrest, -⟩ := Text.exists_of_words_eq_cons hws
    rw [hws] at h
    rcases List.mem_cons.mp h with rfl | h
    · exact ⟨indent, rest, by simp⟩
    · exact (ih (hrest ▸ h) hrest).trans ⟨indent ++ first, [], by simp⟩

/-- Joined texts mention a placeholder exactly if one of them does. -/
theorem mentions_intercalate_iff {d : Char} (hd : d ∉ Fragment.stem) {ws : List (List Char)} :
    Mentions ([d].intercalate ws) ↔ ∃ w ∈ ws, Mentions w :=
  infix_intercalate_iff (by decide) hd

theorem mentions_of_words {cs : List Char} (h : Mentions ([' '].intercalate (Text.words cs))) :
    Mentions cs := by
  obtain ⟨w, hw, h⟩ := (mentions_intercalate_iff (by decide)).mp h
  exact h.mono (isInfix_of_mem_words hw)

/-- A text as it is read between quotes: line breaks and tabs are left out. -/
def unbroken (cs : List Char) : List Char :=
  cs.filter fun c => !(c = '\r' || c = '\n' || c = '\t')

/-- No placeholder is mentioned, also when line breaks and tabs are left out. -/
def Clear (cs : List Char) : Prop :=
  ¬ Mentions (unbroken cs)

instance (cs : List Char) : Decidable (Clear cs) :=
  inferInstanceAs (Decidable (¬ _))

namespace Clear

variable {cs ds : List Char}

theorem mono (hd : ds <:+: cs) (h : Clear cs) : Clear ds :=
  fun hm => h (hm.trans (hd.filter _))

theorem not_mentions (h : Clear cs) : ¬ Mentions cs := by
  intro hm
  have hstem : unbroken Fragment.stem = Fragment.stem := by decide
  exact h (show Fragment.stem <:+: _ from hstem ▸ hm.filter _)

end Clear

theorem clear_append_cons_iff {cs ds : List Char} {c : Char} (hc : c ∉ Fragment.stem)
    (hkept : unbroken [c] = [c]) : Clear (cs ++ c :: ds) ↔ Clear cs ∧ Clear ds := by
  have hsplit : unbroken (cs ++ c :: ds) = unbroken cs ++ c :: unbroken ds := by
    have hcons : unbroken (c :: ds) = c :: unbroken ds :=
      (List.filter_append [c] ds).trans (congrArg (· ++ unbroken ds) hkept)
    rw [unbroken, List.filter_append, ← unbroken, ← unbroken, hcons]
  rw [Clear, hsplit, mentions_append_cons_iff hc, not_or]
  rfl

end DocAnnotations
