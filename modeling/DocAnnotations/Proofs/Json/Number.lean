import DocAnnotations.Proofs.Numeral

/-! The grammar of numbers, and what is taken for a number. -/
namespace DocAnnotations.Numeral

/-- A zero, or an ASCII digit that is none with more digits behind it. -/
def SpellsWhole (isDigit : Char → Bool) (cs : List Char) : Prop :=
  cs = ['0'] ∨ ∃ c ds, cs = c :: ds ∧ c ≠ '0' ∧ c.isDigit = true ∧ ∀ d ∈ ds, isDigit d = true

def SpellsDigits (isDigit : Char → Bool) (cs : List Char) : Prop :=
  cs ≠ [] ∧ ∀ d ∈ cs, isDigit d = true

def SpellsFraction (isDigit : Char → Bool) (cs : List Char) : Prop :=
  cs = [] ∨ ∃ ds, cs = '.' :: ds ∧ SpellsDigits isDigit ds

def SpellsExponent (isDigit : Char → Bool) (cs : List Char) : Prop :=
  cs = [] ∨ ∃ e sign ds, cs = e :: (sign ++ ds) ∧ (e = 'e' ∨ e = 'E') ∧
    (sign = [] ∨ sign = ['+'] ∨ sign = ['-']) ∧ SpellsDigits isDigit ds

/-- The grammar of numbers, with digits of the given class. -/
def Spelled (isDigit : Char → Bool) (cs : List Char) : Prop :=
  ∃ minus whole fraction exponent, cs = minus ++ (whole ++ (fraction ++ exponent)) ∧
    (minus = [] ∨ minus = ['-']) ∧ SpellsWhole isDigit whole ∧
    SpellsFraction isDigit fraction ∧ SpellsExponent isDigit exponent

variable {isDigit : Char → Bool} {cs : List Char}

theorem exists_minus (cs : List Char) :
    ∃ minus, cs = minus ++ (cutMinus cs).2 ∧ (minus = [] ∨ minus = ['-']) := by
  unfold cutMinus
  split
  next cs => exact ⟨['-'], rfl, .inr rfl⟩
  next cs _ => exact ⟨[], rfl, .inl rfl⟩

theorem exists_sign (cs : List Char) :
    ∃ sign, cs = sign ++ (cutSign cs).2 ∧ (sign = [] ∨ sign = ['+'] ∨ sign = ['-']) := by
  unfold cutSign
  split
  next cs => exact ⟨['+'], rfl, .inr (.inl rfl)⟩
  next => exact (exists_minus _).imp fun _ h => ⟨h.1, h.2.imp_right .inr⟩

theorem spells_cutWhole {p : List Char × List Char} (h : cutWhole isDigit cs = some p) :
    cs = p.1 ++ p.2 ∧ SpellsWhole isDigit p.1 := by
  cases cs with
  | nil => cases h
  | cons c cs =>
    rw [cutWhole] at h
    split at h
    next hzero =>
      cases h
      exact ⟨rfl, .inl (by rw [hzero])⟩
    next hzero =>
      split at h
      next hdigit =>
        cases h
        exact ⟨by simp, .inr ⟨c, _, rfl, hzero, hdigit, fun d hd => List.mem_takeWhile_imp hd⟩⟩
      next => cases h

theorem exists_fraction (isDigit : Char → Bool) (cs : List Char) :
    ∃ fraction, cs = fraction ++ (cutFraction isDigit cs).2 ∧ SpellsFraction isDigit fraction := by
  unfold cutFraction
  split
  next cs =>
    split
    next => exact ⟨[], rfl, .inl rfl⟩
    next hne =>
      exact ⟨'.' :: cs.takeWhile isDigit, by simp, .inr ⟨_, rfl, by simpa using hne,
        fun d hd => List.mem_takeWhile_imp hd⟩⟩
  next => exact ⟨[], rfl, .inl rfl⟩

theorem exists_exponent (isDigit : Char → Bool) (cs : List Char) :
    ∃ exponent, cs = exponent ++ (cutExponent isDigit cs).2 ∧
      SpellsExponent isDigit exponent := by
  cases cs with
  | nil => exact ⟨[], rfl, .inl rfl⟩
  | cons c cs =>
    simp only [cutExponent]
    split
    next h =>
      obtain ⟨sign, hcs, hsign⟩ := exists_sign cs
      refine ⟨c :: (sign ++ (cutSign cs).2.takeWhile isDigit), ?_,
        .inr ⟨c, sign, _, rfl, h.1, hsign, h.2, fun d hd => List.mem_takeWhile_imp hd⟩⟩
      rw [List.cons_append, List.append_assoc, List.takeWhile_append_dropWhile, ← hcs]
    next => exact ⟨[], rfl, .inl rfl⟩

/-- What is taken for a number is spelled as one. -/
theorem spelled_of_isNumeral (h : isNumeral isDigit cs = true) : Spelled isDigit cs := by
  unfold isNumeral at h
  split at h
  next n hcut =>
    obtain ⟨minus, hcs, hminus⟩ := exists_minus cs
    simp only [cut] at hcut
    cases hwhole : cutWhole isDigit (cutMinus cs).2 with
    | none => rw [hwhole] at hcut; cases hcut
    | some p =>
      obtain ⟨hp, hspells⟩ := spells_cutWhole hwhole
      obtain ⟨fraction, hfraction, hspells'⟩ := exists_fraction isDigit p.2
      obtain ⟨exponent, hexponent, hspells''⟩ :=
        exists_exponent isDigit (cutFraction isDigit p.2).2
      simp only [hwhole, Option.some.injEq, Prod.mk.injEq] at hcut
      refine ⟨minus, p.1, fraction, exponent, ?_, hminus, hspells, hspells', hspells''⟩
      rw [hcut.2, List.append_nil] at hexponent
      rw [← hexponent, ← hfraction, ← hp, ← hcs]
  next => cases h

/-- A number consists of digits, signs, points and the mark of an exponent. -/
theorem Spelled.cases_of_mem {c : Char} (h : Spelled isDigit cs) (hc : c ∈ cs) :
    c.isDigit = true ∨ isDigit c = true ∨ c ∈ ['-', '+', '.', 'e', 'E'] := by
  obtain ⟨minus, whole, fraction, exponent, rfl, hminus, hwhole, hfraction, hexponent⟩ := h
  simp only [List.mem_append] at hc
  obtain hc | hc | hc | hc := hc
  · obtain rfl | rfl := hminus
    · cases hc
    · exact .inr (.inr (by simp_all))
  · obtain rfl | ⟨d, ds, rfl, -, hdigit, hds⟩ := hwhole
    · exact .inl (by simp_all)
    · obtain rfl | hc := List.mem_cons.mp hc
      · exact .inl hdigit
      · exact .inr (.inl (hds c hc))
  · obtain rfl | ⟨ds, rfl, -, hds⟩ := hfraction
    · cases hc
    · obtain rfl | hc := List.mem_cons.mp hc
      · exact .inr (.inr (by simp))
      · exact .inr (.inl (hds c hc))
  · obtain rfl | ⟨e, sign, ds, rfl, he, hsign, -, hds⟩ := hexponent
    · cases hc
    · rw [List.mem_cons, List.mem_append] at hc
      obtain rfl | hc | hc := hc
      · exact .inr (.inr (by simp_all))
      · exact .inr (.inr (by obtain rfl | rfl | rfl := hsign <;> simp_all))
      · exact .inr (.inl (hds c hc))

/-- Digits that are neither signs nor points nor marks of an exponent. -/
def Proper (isDigit : Char → Bool) : Prop :=
  ∀ c ∈ ['-', '+', '.', 'e', 'E'], isDigit c = false

theorem takeWhile_digits {ds rest : List Char} (hds : ∀ d ∈ ds, isDigit d = true)
    (hrest : ∀ c ∈ rest.head?, isDigit c = false) :
    (ds ++ rest).takeWhile isDigit = ds ∧ (ds ++ rest).dropWhile isDigit = rest := by
  have hnil : rest.takeWhile isDigit = [] ∧ rest.dropWhile isDigit = rest := by
    cases rest with
    | nil => exact ⟨rfl, rfl⟩
    | cons c rest => simp [hrest c rfl]
  rw [List.takeWhile_append_of_pos hds, List.dropWhile_append_of_pos hds, hnil.1, hnil.2]
  simp

theorem cutMinus_of_spells {minus whole : List Char} (hminus : minus = [] ∨ minus = ['-'])
    (hwhole : SpellsWhole isDigit whole) (rest : List Char) :
    (cutMinus (minus ++ (whole ++ rest))).2 = whole ++ rest := by
  obtain ⟨c, ds, rfl, hc⟩ : ∃ c ds, whole = c :: ds ∧ c ≠ '-' := by
    obtain rfl | ⟨c, ds, rfl, -, hdigit, -⟩ := hwhole
    · exact ⟨'0', [], rfl, by decide⟩
    · refine ⟨c, ds, rfl, ?_⟩
      rintro rfl
      cases hdigit
  obtain rfl | rfl := hminus
  · rw [List.nil_append, List.cons_append, cutMinus_of_ne hc]
  · rfl

theorem cutWhole_of_spells {whole rest : List Char} (hwhole : SpellsWhole isDigit whole)
    (hrest : ∀ c ∈ rest.head?, isDigit c = false) :
    cutWhole isDigit (whole ++ rest) = some (whole, rest) := by
  obtain rfl | ⟨c, ds, rfl, hzero, hdigit, hds⟩ := hwhole
  · rfl
  · obtain ⟨htake, hdrop⟩ := takeWhile_digits hds hrest
    rw [List.cons_append, cutWhole, if_neg hzero, if_pos hdigit, htake, hdrop]

theorem cutFraction_of_spells {fraction rest : List Char}
    (hfraction : SpellsFraction isDigit fraction)
    (hrest : ∀ c ∈ rest.head?, c ≠ '.' ∧ isDigit c = false) :
    (cutFraction isDigit (fraction ++ rest)).2 = rest := by
  obtain rfl | ⟨ds, rfl, hne, hds⟩ := hfraction
  · cases rest with
    | nil => rfl
    | cons c rest => rw [List.nil_append, cutFraction_of_ne (hrest c rfl).1]
  · obtain ⟨htake, hdrop⟩ := takeWhile_digits hds fun c hc => (hrest c hc).2
    rw [List.cons_append, cutFraction, htake, hdrop, if_neg (by simpa using hne)]

theorem cutSign_of_spells {sign ds : List Char} (hproper : Proper isDigit)
    (hsign : sign = [] ∨ sign = ['+'] ∨ sign = ['-']) (hds : SpellsDigits isDigit ds) :
    (cutSign (sign ++ ds)).2 = ds := by
  obtain rfl | rfl | rfl := hsign
  · obtain ⟨hne, hds⟩ := hds
    obtain ⟨d, ds, rfl⟩ := List.exists_cons_of_ne_nil hne
    have hd : ∀ c ∈ ['-', '+', '.', 'e', 'E'], d ≠ c := by
      rintro c hc rfl
      exact absurd (hds d (by simp)) (by simp [hproper d hc])
    rw [List.nil_append, cutSign_of_ne (hd '+' (by simp)) (hd '-' (by simp))]
  · rfl
  · rfl

theorem cutExponent_of_spells {exponent : List Char} (hproper : Proper isDigit)
    (h : SpellsExponent isDigit exponent) : (cutExponent isDigit exponent).2 = [] := by
  obtain rfl | ⟨e, sign, ds, rfl, he, hsign, hds⟩ := h
  · rfl
  · have hend : ∀ c ∈ ([] : List Char).head?, isDigit c = false := nofun
    obtain ⟨htake, hdrop⟩ : ds.takeWhile isDigit = ds ∧ ds.dropWhile isDigit = [] := by
      simpa using takeWhile_digits hds.2 hend
    simp only [cutExponent, cutSign_of_spells hproper hsign hds, htake, hdrop]
    rw [if_pos ⟨he, hds.1⟩]

/-- The texts that are taken for numbers are those that the grammar has. -/
theorem isNumeral_iff (hproper : Proper isDigit) : isNumeral isDigit cs = true ↔
    Spelled isDigit cs := by
  refine ⟨spelled_of_isNumeral, ?_⟩
  rintro ⟨minus, whole, fraction, exponent, rfl, hminus, hwhole, hfraction, hexponent⟩
  have hend : ∀ c ∈ exponent.head?, c = 'e' ∨ c = 'E' := by
    obtain rfl | ⟨e, sign, ds, rfl, he, -⟩ := hexponent
    · simp
    · simpa using he
  have hmark {c : Char} (hc : c = '.' ∨ c = 'e' ∨ c = 'E') : isDigit c = false :=
    hproper c (by obtain rfl | rfl | rfl := hc <;> simp)
  have hfollow : ∀ c ∈ (fraction ++ exponent).head?, isDigit c = false := by
    obtain rfl | ⟨ds, rfl, -⟩ := hfraction
    · exact fun c hc => hmark (.inr (hend c hc))
    · simpa using hmark (.inl rfl)
  have hrest : ∀ c ∈ exponent.head?, c ≠ '.' ∧ isDigit c = false := fun c hc =>
    ⟨by obtain rfl | rfl := hend c hc <;> decide, hmark (.inr (hend c hc))⟩
  have hcut : ∃ n, cut isDigit (minus ++ (whole ++ (fraction ++ exponent))) = some (n, []) := by
    simp only [cut, cutMinus_of_spells hminus hwhole, cutWhole_of_spells hwhole hfollow,
      cutFraction_of_spells hfraction hrest, cutExponent_of_spells hproper hexponent]
    exact ⟨_, rfl⟩
  obtain ⟨n, hn⟩ := hcut
  rw [isNumeral, hn]

end DocAnnotations.Numeral
