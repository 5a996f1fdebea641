import DocAnnotations.Numeral
import DocAnnotations.Proofs.Text
import Mathlib.Data.List.TakeWhile
import Mathlib.Tactic.SplitIfs

/-! Cutting off a number does not look beyond it. -/
namespace DocAnnotations.Numeral

variable {isDigit : Char → Bool} {cs rest : List Char}

/-- A text that cannot go on a number in front of it. -/
def Stops (isDigit : Char → Bool) (rest : List Char) : Prop :=
  ∀ c ∈ rest.head?, isDigit c = false ∧ c ∉ ['.', 'e', 'E', '+', '-']

theorem Stops.cons {c : Char} (h : Stops isDigit (c :: cs)) :
    isDigit c = false ∧ c ≠ '.' ∧ c ≠ 'e' ∧ c ≠ 'E' ∧ c ≠ '+' ∧ c ≠ '-' := by
  simpa using h c rfl

theorem takeWhile_append (h : Stops isDigit rest) :
    (cs ++ rest).takeWhile isDigit = cs.takeWhile isDigit :=
  Text.takeWhile_append_of_head (fun c hc => (h c hc).1) cs

theorem dropWhile_append (h : Stops isDigit rest) :
    (cs ++ rest).dropWhile isDigit = cs.dropWhile isDigit ++ rest :=
  Text.dropWhile_append_of_head (fun c hc => (h c hc).1) cs

theorem cutMinus_of_ne {c : Char} (h : c ≠ '-') (cs : List Char) :
    cutMinus (c :: cs) = (false, c :: cs) := by
  rw [cutMinus]
  simpa using h

theorem cutMinus_append (h : Stops isDigit rest) :
    cutMinus (cs ++ rest) = ((cutMinus cs).1, (cutMinus cs).2 ++ rest) := by
  cases cs with
  | nil =>
    cases rest with
    | nil => rfl
    | cons c rest => simpa [cutMinus] using cutMinus_of_ne h.cons.2.2.2.2.2 rest
  | cons c cs =>
    by_cases hc : c = '-'
    · subst hc; rfl
    · simp [cutMinus_of_ne hc]

theorem cutWhole_append (h : Stops isDigit rest) (hr : ∀ c ∈ rest.head?, c.isDigit = false) :
    cutWhole isDigit (cs ++ rest) = (cutWhole isDigit cs).map fun p => (p.1, p.2 ++ rest) := by
  cases cs with
  | nil =>
    cases rest with
    | nil => rfl
    | cons c rest =>
      have hc := hr c rfl
      have h0 : c ≠ '0' := by rintro rfl; exact absurd hc (by decide)
      simp [cutWhole, hc, h0]
  | cons c cs =>
    by_cases h0 : c = '0'
    · simp [cutWhole, h0]
    · by_cases hc : c.isDigit = true
      · simp [cutWhole, h0, hc, takeWhile_append h, dropWhile_append h]
      · simp [cutWhole, h0, hc]

theorem cutFraction_of_ne {c : Char} (h : c ≠ '.') (cs : List Char) :
    cutFraction isDigit (c :: cs) = ([], c :: cs) := by
  rw [cutFraction]
  simpa using h

theorem cutFraction_append (h : Stops isDigit rest) :
    cutFraction isDigit (cs ++ rest) =
      ((cutFraction isDigit cs).1, (cutFraction isDigit cs).2 ++ rest) := by
  cases cs with
  | nil =>
    cases rest with
    | nil => rfl
    | cons c rest => simpa [cutFraction] using cutFraction_of_ne h.cons.2.1 rest
  | cons c cs =>
    by_cases hc : c = '.'
    · subst hc
      simp only [List.cons_append, cutFraction, takeWhile_append h, dropWhile_append h]
      split <;> rfl
    · simp [cutFraction_of_ne hc]

theorem cutSign_of_ne {c : Char} (hp : c ≠ '+') (hm : c ≠ '-') (cs : List Char) :
    cutSign (c :: cs) = (false, c :: cs) := by
  rw [cutSign, cutMinus_of_ne hm]
  simpa using hp

theorem cutSign_append (h : Stops isDigit rest) :
    cutSign (cs ++ rest) = ((cutSign cs).1, (cutSign cs).2 ++ rest) := by
  cases cs with
  | nil =>
    cases rest with
    | nil => rfl
    | cons c rest =>
      simpa [cutSign, cutMinus] using cutSign_of_ne h.cons.2.2.2.2.1 h.cons.2.2.2.2.2 rest
  | cons c cs =>
    by_cases hp : c = '+'
    · subst hp; rfl
    · by_cases hm : c = '-'
      · subst hm; rfl
      · simp [cutSign_of_ne hp hm]

theorem cutExponent_append (h : Stops isDigit rest) :
    cutExponent isDigit (cs ++ rest) =
      ((cutExponent isDigit cs).1, (cutExponent isDigit cs).2 ++ rest) := by
  cases cs with
  | nil =>
    cases rest with
    | nil => rfl
    | cons c rest =>
      have hc := h.cons
      simp [cutExponent, hc.2.2.1, hc.2.2.2.1]
  | cons c cs =>
    simp only [List.cons_append, cutExponent, cutSign_append h, takeWhile_append h,
      dropWhile_append h]
    split <;> rfl

/-- The number in front of a text is the same with a text behind that cannot go on it. -/
theorem cut_append (h : Stops isDigit rest) (hr : ∀ c ∈ rest.head?, c.isDigit = false) :
    cut isDigit (cs ++ rest) = (cut isDigit cs).map fun p => (p.1, p.2 ++ rest) := by
  simp only [cut, cutMinus_append h, cutWhole_append h hr]
  cases cutWhole isDigit (cutMinus cs).2 with
  | none => rfl
  | some whole =>
    simp only [Option.map_some, cutFraction_append h, cutExponent_append h]

/-- Whether a number stands in front does not depend on which other digits may follow its
first one. -/
theorem isSome_cut (p q : Char → Bool) (cs : List Char) :
    (cut p cs).isSome = (cut q cs).isSome := by
  have hw : ∀ cs, (cutWhole p cs).isSome = (cutWhole q cs).isSome := by
    intro cs
    cases cs with
    | nil => rfl
    | cons c cs => simp only [cutWhole]; split_ifs <;> rfl
  have h := hw (cutMinus cs).2
  simp only [cut]
  cases hp : cutWhole p (cutMinus cs).2 <;> cases hq : cutWhole q (cutMinus cs).2 <;>
    simp [hp, hq] at h ⊢

theorem isSome_cut_of_isNumeral (q : Char → Bool) (h : isNumeral isDigit cs = true) :
    (cut q cs).isSome = true := by
  rw [isSome_cut q isDigit]
  unfold isNumeral at h
  split at h
  next hc => simp [hc]
  next => exact absurd h (by simp)

theorem takeWhile_congr {p q : Char → Bool} {cs : List Char} (h : ∀ c ∈ cs, p c = q c) :
    cs.takeWhile p = cs.takeWhile q := by
  induction cs with
  | nil => rfl
  | cons c cs ih =>
    rw [List.takeWhile_cons, List.takeWhile_cons, h c (by simp),
      ih (fun d hd => h d (by simp [hd]))]

theorem dropWhile_congr {p q : Char → Bool} {cs : List Char} (h : ∀ c ∈ cs, p c = q c) :
    cs.dropWhile p = cs.dropWhile q := by
  induction cs with
  | nil => rfl
  | cons c cs ih =>
    rw [List.dropWhile_cons, List.dropWhile_cons, h c (by simp),
      ih (fun d hd => h d (by simp [hd]))]

theorem cutMinus_suffix (cs : List Char) : (cutMinus cs).2 <:+ cs := by
  unfold cutMinus
  split
  · exact List.suffix_cons _ _
  · exact List.suffix_refl _

theorem cutSign_suffix (cs : List Char) : (cutSign cs).2 <:+ cs := by
  unfold cutSign
  split
  · exact List.suffix_cons _ _
  · exact cutMinus_suffix _

theorem cutFraction_suffix (p : Char → Bool) (cs : List Char) : (cutFraction p cs).2 <:+ cs := by
  unfold cutFraction
  split
  · split
    · exact List.suffix_refl _
    · exact (List.dropWhile_suffix p).trans (List.suffix_cons _ _)
  · exact List.suffix_refl _

theorem cutWhole_suffix {p : Char → Bool} {cs whole rest : List Char}
    (h : cutWhole p cs = some (whole, rest)) : rest <:+ cs := by
  cases cs with
  | nil => simp [cutWhole] at h
  | cons c cs =>
    simp only [cutWhole] at h
    split_ifs at h
    · obtain ⟨-, rfl⟩ := Prod.mk.inj (Option.some.inj h)
      exact List.suffix_cons _ _
    · obtain ⟨-, rfl⟩ := Prod.mk.inj (Option.some.inj h)
      exact (List.dropWhile_suffix p).trans (List.suffix_cons _ _)

/-- Which number stands in front depends on the digits of the text only. -/
theorem cut_congr {p q : Char → Bool} {cs : List Char} (h : ∀ c ∈ cs, p c = q c) :
    cut p cs = cut q cs := by
  have hwhole : ∀ {ds}, ds <:+ cs → cutWhole p ds = cutWhole q ds := by
    intro ds hd
    cases ds with
    | nil => rfl
    | cons d ds =>
      have hds : ∀ c ∈ ds, p c = q c := fun c hc => h c (hd.subset (List.mem_cons_of_mem _ hc))
      simp [cutWhole, takeWhile_congr hds, dropWhile_congr hds]
  have hfraction : ∀ {ds}, ds <:+ cs → cutFraction p ds = cutFraction q ds := by
    intro ds hd
    unfold cutFraction
    split
    next ds =>
      have hds : ∀ c ∈ ds, p c = q c := fun c hc => h c (hd.subset (List.mem_cons_of_mem _ hc))
      rw [takeWhile_congr hds, dropWhile_congr hds]
    next => rfl
  have hexponent : ∀ {ds}, ds <:+ cs → cutExponent p ds = cutExponent q ds := by
    intro ds hd
    cases ds with
    | nil => rfl
    | cons d ds =>
      have hds : ∀ c ∈ (cutSign ds).2, p c = q c := fun c hc =>
        h c (hd.subset (List.mem_cons_of_mem _ ((cutSign_suffix ds).subset hc)))
      simp only [cutExponent, takeWhile_congr hds, dropWhile_congr hds]
  have hm := cutMinus_suffix cs
  simp only [cut, hwhole hm]
  cases hw : cutWhole q (cutMinus cs).2 with
  | none => rfl
  | some r =>
    have hr := (cutWhole_suffix hw).trans hm
    simp only [hfraction hr, hexponent ((cutFraction_suffix q r.2).trans hr)]

/-- The whole part of a number in front of a text is among the digits of the text. -/
theorem whole_sublist {cs rest : List Char} {n : Numeral}
    (h : cut Char.isDigit cs = some (n, rest)) : n.whole.Sublist (cs.filter Char.isDigit) := by
  cases hw : cutWhole Char.isDigit (cutMinus cs).2 with
  | none => simp [cut, hw] at h
  | some r =>
    have hn : n.whole = r.1 := by
      simp only [cut, hw, Option.some.injEq, Prod.mk.injEq] at h
      rw [← h.1]
    rw [hn]
    refine List.Sublist.trans ?_ ((cutMinus_suffix cs).sublist.filter _)
    cases hd : (cutMinus cs).2 with
    | nil => simp [hd, cutWhole] at hw
    | cons d ds =>
      simp only [hd, cutWhole] at hw
      split_ifs at hw with h0 hdigit
      · subst h0
        cases hw
        simp
      · cases hw
        simp only [List.filter_cons, hdigit, ↓reduceIte]
        have hall : (ds.takeWhile Char.isDigit).filter Char.isDigit = ds.takeWhile Char.isDigit :=
          List.filter_eq_self.mpr fun c hc => List.mem_takeWhile_imp hc
        refine List.Sublist.cons_cons d ?_
        rw [← hall]
        exact (List.takeWhile_sublist _).filter _

theorem head_toDigits (n : Nat) : ∃ c cs, Nat.toDigits 10 n = c :: cs ∧ (c = '0' → cs = []) := by
  induction n using Nat.strongRecOn with
  | ind n ih =>
    by_cases hn : n < 10
    · exact ⟨_, [], Nat.toDigits_of_lt_base hn, fun _ => rfl⟩
    · obtain ⟨c, cs, hd, hc⟩ := ih (n / 10) (by omega)
      refine ⟨c, cs ++ [Nat.digitChar (n % 10)], ?_, ?_⟩
      · rw [Nat.toDigits_of_base_le (by omega) (by omega), hd, List.cons_append]
      · rintro rfl
        -- A number that begins with a zero is zero.
        have hv : n / 10 = 0 := by
          rw [← Nat.ofDigitChars_ten_toDigits (n := n / 10), hd, hc rfl]
          rfl
        omega

/-- The digits of a whole number are cut off as one. -/
theorem cutWhole_toDigits (hd : ∀ c, c.isDigit = true → isDigit c = true) (n : Nat) :
    cutWhole isDigit (Nat.toDigits 10 n) = some (Nat.toDigits 10 n, []) := by
  obtain ⟨c, cs, hcs, hzero⟩ := head_toDigits n
  have hdigits : ∀ d ∈ c :: cs, d.isDigit = true := fun d h =>
    Nat.isDigit_of_mem_toDigits (by decide) (by decide) (hcs ▸ h)
  have hall : ∀ d ∈ cs, isDigit d = true := fun d h => hd d (hdigits d (by simp [h]))
  rw [hcs, cutWhole]
  split
  next h => rw [hzero h]
  next =>
    rw [if_pos (hdigits c (by simp)), List.takeWhile_eq_self_iff.mpr hall,
      List.dropWhile_eq_nil_iff.mpr hall]

theorem toList_toString (n : Int) :
    (toString n).toList = (if n < 0 then ['-'] else []) ++ Nat.toDigits 10 n.natAbs := by
  cases n with
  | ofNat m => simp [toString, Int.repr]
  | negSucc m => simp [toString, Int.repr]

/-- A whole number is written as one numeral. -/
theorem cut_toString (hd : ∀ c, c.isDigit = true → isDigit c = true) (n : Int) :
    cut isDigit (toString n).toList =
      some (⟨decide (n < 0), Nat.toDigits 10 n.natAbs, [], none⟩, []) := by
  have hm : cutMinus (toString n).toList = (decide (n < 0), Nat.toDigits 10 n.natAbs) := by
    rw [toList_toString]
    by_cases hn : n < 0
    · simp [hn, cutMinus]
    · obtain ⟨c, cs, hcs, -⟩ := head_toDigits n.natAbs
      have hc : c ≠ '-' := by
        rintro rfl
        have hmem : '-' ∈ Nat.toDigits 10 n.natAbs := by simp [hcs]
        have := Nat.isDigit_of_mem_toDigits (by decide) (by decide) hmem
        simp at this
      simp [hn, hcs, cutMinus_of_ne hc]
  unfold cut
  simp only [hm, cutWhole_toDigits hd]
  rfl

theorem value_toString (n : Int) :
    (⟨decide (n < 0), Nat.toDigits 10 n.natAbs, [], none⟩ : Numeral).value = .int n := by
  have hv : Text.decimalValue (Nat.toDigits 10 n.natAbs) = n.natAbs :=
    Nat.ofDigitChars_ten_toDigits
  simp only [value, isWhole, List.isEmpty_nil, Option.isNone_none, Bool.and_self, if_true, hv,
    decide_eq_true_eq]
  congr 1
  split <;> omega

end DocAnnotations.Numeral
