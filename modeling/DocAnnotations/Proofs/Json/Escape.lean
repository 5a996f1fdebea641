import DocAnnotations.Json.Text
import Mathlib.Tactic.Common

/-! What is written for the characters of a text in its JSON text. -/
namespace DocAnnotations.Json

open Text

/-- A character that is written as it is. -/
structure IsPlain (c : Char) : Prop where
  space_le : 0x20 ≤ c.toNat
  lt_delete : c.toNat < 0x7f
  ne_quote : c ≠ '"'
  ne_backslash : c ≠ '\\'

instance (c : Char) : Decidable (IsPlain c) :=
  decidable_of_iff (_ ∧ _ ∧ _ ∧ _)
    ⟨fun ⟨hlow, hhigh, hquote, hbackslash⟩ => ⟨hlow, hhigh, hquote, hbackslash⟩,
      fun h => ⟨h.space_le, h.lt_delete, h.ne_quote, h.ne_backslash⟩⟩

variable {c d : Char} {cs : List Char}

theorem escape_of_isPlain (h : IsPlain c) : escape c = [c] := by
  obtain ⟨hlow, hhigh, hquote, hbackslash⟩ := h
  have hcontrol : ∀ mark : Char, mark.toNat < 0x20 → c ≠ mark := by
    rintro mark hmark rfl
    omega
  rw [escape, if_neg (by simp [hquote, hbackslash]), if_neg (hcontrol _ (by decide)),
    if_neg (hcontrol _ (by decide)), if_neg (hcontrol _ (by decide)),
    if_neg (hcontrol _ (by decide)), if_neg (hcontrol _ (by decide)), if_pos ⟨hlow, hhigh⟩]

/-- Every other character is written behind a backslash, or as the escapes of its units. -/
theorem escape_cases (h : ¬ IsPlain c) :
    (c = '"' ∨ c = '\\') ∧ escape c = ['\\', c] ∨
      (∃ mark, IsPlain mark ∧ escape c = ['\\', mark]) ∨
        escape c = (unitsOf c).flatMap fun u => '\\' :: 'u' :: hexDigits 4 u := by
  unfold escape
  split
  next hmark => exact .inl ⟨hmark, rfl⟩
  next hmark =>
    refine .inr ?_
    split
    next => exact .inl ⟨'n', by decide, rfl⟩
    split
    next => exact .inl ⟨'r', by decide, rfl⟩
    split
    next => exact .inl ⟨'t', by decide, rfl⟩
    split
    next => exact .inl ⟨'b', by decide, rfl⟩
    split
    next => exact .inl ⟨'f', by decide, rfl⟩
    split
    next hprintable =>
      exact absurd ⟨hprintable.1, hprintable.2, fun hc => hmark (.inl hc),
        fun hc => hmark (.inr hc)⟩ h
    next => exact .inr rfl

theorem unitsOf_ne_nil (c : Char) : unitsOf c ≠ [] := by
  unfold unitsOf
  split <;> simp

theorem two_le_length_escape (h : ¬ IsPlain c) : 2 ≤ (escape c).length := by
  obtain ⟨-, hc⟩ | ⟨mark, -, hc⟩ | hc := escape_cases h
  · simp [hc]
  · simp [hc]
  · obtain ⟨u, us, hunits⟩ := List.exists_cons_of_ne_nil (unitsOf_ne_nil c)
    simp [hc, hunits]

theorem length_le_flatMap_escape (cs : List Char) : cs.length ≤ (cs.flatMap escape).length := by
  induction cs with
  | nil => exact Nat.le_refl 0
  | cons c cs ih =>
    have hone : 1 ≤ (escape c).length := by
      by_cases hc : IsPlain c
      · simp [escape_of_isPlain hc]
      · exact Nat.le_of_succ_le (two_le_length_escape hc)
    simp only [List.flatMap_cons, List.length_append, List.length_cons]
    omega

/-- A text is written as it is exactly if all its characters are. -/
theorem flatMap_escape_eq_self_iff : cs.flatMap escape = cs ↔ ∀ c ∈ cs, IsPlain c := by
  induction cs with
  | nil => simp
  | cons c cs ih =>
    rw [List.flatMap_cons, List.forall_mem_cons]
    by_cases hc : IsPlain c
    · simp [escape_of_isPlain hc, hc, ih]
    · simp only [hc, false_and, iff_false]
      intro heq
      have hlength := congrArg List.length heq
      have htwo := two_le_length_escape hc
      have hrest := length_le_flatMap_escape cs
      simp only [List.length_append, List.length_cons] at hlength
      omega

theorem isPlain_of_mem_hexDigits {count n : Nat} (h : d ∈ hexDigits count n) : IsPlain d := by
  have hdigit : ∀ m < 16, IsPlain (hexDigit m) := by decide
  induction count generalizing n with
  | zero => cases h
  | succ count ih =>
    rw [hexDigits, List.mem_append, List.mem_singleton] at h
    obtain h | rfl := h
    · exact ih h
    · exact hdigit _ (Nat.mod_lt _ (by decide))

/-- Only backslashes and plain characters are written, and a quote for a quote. -/
theorem of_mem_escape (h : d ∈ escape c) : d = '\\' ∨ IsPlain d ∨ d = '"' ∧ c = '"' := by
  by_cases hc : IsPlain c
  · rw [escape_of_isPlain hc, List.mem_singleton] at h
    exact .inr (.inl (h ▸ hc))
  obtain ⟨hmark, hc⟩ | ⟨mark, hmark, hc⟩ | hc := escape_cases hc
  · simp only [hc, List.mem_cons, List.not_mem_nil, or_false] at h
    obtain rfl | rfl := h
    · exact .inl rfl
    · obtain rfl | rfl := hmark
      · exact .inr (.inr ⟨rfl, rfl⟩)
      · exact .inl rfl
  · simp only [hc, List.mem_cons, List.not_mem_nil, or_false] at h
    obtain rfl | rfl := h
    · exact .inl rfl
    · exact .inr (.inl hmark)
  · simp only [hc, List.mem_flatMap, List.mem_cons] at h
    obtain ⟨u, -, rfl | rfl | h⟩ := h
    · exact .inl rfl
    · exact .inr (.inl (by decide))
    · exact .inr (.inl (isPlain_of_mem_hexDigits h))

end DocAnnotations.Json
