import DocAnnotations.Json.Text

/-! Every text is read back from its JSON text, escapes and surrogate pairs included. -/
namespace DocAnnotations.Json

open Text

theorem hexValue?_hexDigit : ∀ n < 16, hexValue? (hexDigit n) = some n := by decide

theorem hexDigits_four (n : Nat) :
    hexDigits 4 n = [hexDigit (n / 16 / 16 / 16 % 16), hexDigit (n / 16 / 16 % 16),
      hexDigit (n / 16 % 16), hexDigit (n % 16)] := rfl

theorem hexUnit?_hexDigits {n : Nat} (h : n < 0x10000) :
    hexUnit? (hexDigit (n / 16 / 16 / 16 % 16)) (hexDigit (n / 16 / 16 % 16))
      (hexDigit (n / 16 % 16)) (hexDigit (n % 16)) = some n := by
  simp only [hexUnit?, List.foldlM_cons, List.foldlM_nil,
    hexValue?_hexDigit _ (Nat.mod_lt _ (by decide : 0 < 16)), Option.map_some,
    Option.bind_eq_bind, Option.bind_some, Option.pure_def, Option.some.injEq]
  omega

theorem readUnits_unit {u : Nat} (hu : u < 0x10000) (cs : List Char) :
    readUnits ('\\' :: 'u' :: hexDigits 4 u ++ cs) =
      (readUnits cs).map fun p => (u :: p.1, p.2) := by
  simp only [hexDigits_four, List.cons_append, List.nil_append, readUnits, hexUnit?_hexDigits hu]
  cases readUnits cs <;> rfl

theorem readUnits_short {c : Char} {u : Nat} (hc : c ≠ 'u') (hu : escapeValue? c = some u)
    (cs : List Char) :
    readUnits ('\\' :: c :: cs) = (readUnits cs).map fun p => (u :: p.1, p.2) := by
  rw [readUnits]
  · cases readUnits cs <;> simp [hu]
  · simp [hc]

theorem readUnits_plain {c : Char} (h : 0x20 ≤ c.toNat) (hq : c ≠ '"') (hb : c ≠ '\\')
    (cs : List Char) :
    readUnits (c :: cs) = (readUnits cs).map fun p => (c.toNat :: p.1, p.2) := by
  rw [readUnits]
  · have : ¬ c.toNat < 0x20 := by omega
    cases readUnits cs <;> simp [hb, this]
  all_goals simp [hq, hb]

theorem toNat_lt (c : Char) : c.toNat < 0x110000 := by
  rcases c.valid with h | ⟨-, h⟩
  · exact Nat.lt_trans h (by decide)
  · exact h

/-- Characters are no surrogates. -/
theorem toNat_lt_or_le (c : Char) : c.toNat < 0xd800 ∨ 0xe000 ≤ c.toNat := by
  rcases c.valid with h | ⟨h, -⟩
  · exact Or.inl h
  · exact Or.inr h

theorem unitsOf_of_lt {c : Char} (h : c.toNat < 0x10000) : unitsOf c = [c.toNat] := by
  simp [unitsOf, h]

theorem lt_of_mem_unitsOf {c : Char} {u : Nat} (hu : u ∈ unitsOf c) : u < 0x10000 := by
  have hc := toNat_lt c
  unfold unitsOf at hu
  split at hu
  next h =>
    obtain rfl := List.mem_singleton.mp hu
    exact h
  next h =>
    simp only [List.mem_cons, List.not_mem_nil, or_false] at hu
    omega

/-- Escaped units are read one after another. -/
theorem readUnits_flatMap {us : List Nat} (h : ∀ u ∈ us, u < 0x10000) (cs : List Char) :
    readUnits (us.flatMap (fun u => '\\' :: 'u' :: hexDigits 4 u) ++ cs) =
      (readUnits cs).map fun p => (us ++ p.1, p.2) := by
  induction us with
  | nil => simp
  | cons u us ih =>
    have ih := ih fun v hv => h v (List.mem_cons_of_mem u hv)
    rw [List.flatMap_cons, List.append_assoc, readUnits_unit (h u List.mem_cons_self), ih]
    cases readUnits cs <;> rfl

/-- An escaped character is read as its UTF-16 units. -/
theorem readUnits_escape (c : Char) (cs : List Char) :
    readUnits (escape c ++ cs) = (readUnits cs).map fun p => (unitsOf c ++ p.1, p.2) := by
  unfold escape
  split
  next h => rcases h with rfl | rfl <;> exact readUnits_short (by decide) rfl cs
  split
  next h => subst h; exact readUnits_short (by decide) rfl cs
  split
  next h => subst h; exact readUnits_short (by decide) rfl cs
  split
  next h => subst h; exact readUnits_short (by decide) rfl cs
  split
  next h => subst h; exact readUnits_short (by decide) rfl cs
  split
  next h => subst h; exact readUnits_short (by decide) rfl cs
  split
  next hq _ _ _ _ _ h =>
    rw [unitsOf_of_lt (by omega)]
    exact readUnits_plain h.1 (fun e => hq (Or.inl e)) (fun e => hq (Or.inr e)) cs
  next => exact readUnits_flatMap (fun u hu => lt_of_mem_unitsOf hu) cs

theorem readUnits_escapes (cs rest : List Char) :
    readUnits (cs.flatMap escape ++ '"' :: rest) = some (cs.flatMap unitsOf, rest) := by
  induction cs with
  | nil => rfl
  | cons c cs ih =>
    simp only [List.flatMap_cons, List.append_assoc, readUnits_escape, ih, Option.map_some]

/-- The units of a character are joined to it again. -/
theorem joinUnits_unitsOf (c : Char) (us : List Nat) :
    joinUnits (unitsOf c ++ us) = (joinUnits us).map (c :: ·) := by
  by_cases h : c.toNat < 0x10000
  · have hs := toNat_lt_or_le c
    have h₁ : ¬ (0xd800 ≤ c.toNat ∧ c.toNat < 0xdc00) := by omega
    have h₂ : ¬ (0xdc00 ≤ c.toNat ∧ c.toNat < 0xe000) := by omega
    rw [unitsOf_of_lt h, List.cons_append, List.nil_append, joinUnits.eq_def]
    simp only [h₁, h₂, ↓reduceIte, Char.ofNat_toNat]
  · have hc := toNat_lt c
    have h₁ : 0xd800 ≤ 0xd800 + (c.toNat - 0x10000) / 0x400 ∧
        0xd800 + (c.toNat - 0x10000) / 0x400 < 0xdc00 := by omega
    have h₂ : 0xdc00 ≤ 0xdc00 + (c.toNat - 0x10000) % 0x400 ∧
        0xdc00 + (c.toNat - 0x10000) % 0x400 < 0xe000 := by omega
    have he : 0x10000 + (0xd800 + (c.toNat - 0x10000) / 0x400 - 0xd800) * 0x400 +
        (0xdc00 + (c.toNat - 0x10000) % 0x400 - 0xdc00) = c.toNat := by omega
    simp only [unitsOf, h, ↓reduceIte, List.cons_append, List.nil_append, joinUnits, h₁, h₂,
      and_self, he, Char.ofNat_toNat]

theorem joinUnits_flatMap (cs : List Char) : joinUnits (cs.flatMap unitsOf) = some cs := by
  induction cs with
  | nil => rfl
  | cons c cs ih => rw [List.flatMap_cons, joinUnits_unitsOf, ih, Option.map_some]

/-- What is written as a text is read back, whatever follows. -/
theorem readText_escapes (cs rest : List Char) :
    readText (cs.flatMap escape ++ '"' :: rest) = some (cs, rest) := by
  simp [readText, readUnits_escapes, joinUnits_flatMap]

theorem writeText_append (cs rest : List Char) :
    writeText cs ++ rest = '"' :: (cs.flatMap escape ++ '"' :: rest) := by
  simp [writeText]

end DocAnnotations.Json
