import DocAnnotations.Proofs.Argument.Normalize

/-! What reading the arguments of an annotation may stop with. -/
namespace DocAnnotations.Argument

open Text

/-- If the word is spelled like a number and begins with a whole number, then that has no more
digits than are read. -/
def ShortInteger (word : String) : Prop :=
  Scalar.ofWord word = .number → ∀ n rest,
    Numeral.cut Char.isDigit word.toList = some (n, rest) → n.isWhole = true →
      n.whole.length ≤ Numeral.maxDigits

/-- All whole numbers among the bare words of an argument text are short enough to be read. -/
def WithinDigits (raw : String) : Prop :=
  ∀ tokens, Token.lex (trim raw.toList) = .ok tokens → ∀ w, .word w ∈ tokens → ShortInteger w

theorem shortInteger_of_length {word : String} (h : word.toList.length ≤ Numeral.maxDigits) :
    ShortInteger word := fun _ _ _ hc _ =>
  ((Numeral.whole_sublist hc).trans List.filter_sublist).length_le.trans h

/-- Text of short tokens has no long number. -/
theorem withinDigits_of_lex {raw : String} {tokens : List Token}
    (hlex : Token.lex (trim raw.toList) = .ok tokens)
    (hshort : ∀ token ∈ tokens, token.content.toList.length ≤ Numeral.maxDigits) :
    WithinDigits raw := by
  intro found hfound w hw
  obtain rfl := Except.ok.inj (hlex.symm.trans hfound)
  exact shortInteger_of_length (hshort _ hw)

theorem fault?_ne_oversized {word : String} (h : ShortInteger word) :
    Scalar.fault? word ≠ some .oversized := by
  intro hf
  unfold Scalar.fault? at hf
  split at hf
  next hw hc =>
    split at hf
    next hsize =>
      simp only [Numeral.isOversized, Bool.and_eq_true, decide_eq_true_eq] at hsize
      have := h hw _ _ hc hsize.1
      omega
    next => split at hf <;> cases hf
  next => cases hf

/-- Errors of arguments are not privileged, and short numbers cause nothing but errors. -/
theorem error_of_evaluateList {raw : String} {stop : Abort} (hd : WithinDigits raw)
    (h : evaluateList raw = .error stop) : ∃ e, stop = .error e ∧ e.privileged = false := by
  unfold evaluateList at h
  split at h
  next cs htrim =>
    unfold evaluate at h
    rw [String.toList_ofList] at h
    split at h
    next => cases h; exact ⟨_, rfl, rfl⟩
    next term ht =>
      split at h
      next => cases h
      next hf =>
        obtain ⟨tokens, hl, hs⟩ := ofText_eq_ok ht
        obtain ⟨w, hw, hf⟩ := exists_word_of_fault? hs hf
        exact absurd hf (fault?_ne_oversized (hd tokens (htrim ▸ hl) w hw))
      next => cases h; exact ⟨_, rfl, rfl⟩
  next => cases h

theorem error_of_map {α : Type} {f : Option Value → α} {raw : String} {stop : Abort}
    (hd : WithinDigits raw) (h : (evaluateList raw).map f = .error stop) :
    ∃ e, stop = .error e ∧ e.privileged = false := by
  cases he : evaluateList raw with
  | error other =>
    rw [he] at h
    cases h
    exact error_of_evaluateList hd he
  | ok v =>
    rw [he] at h
    cases h

theorem error_of_attributes {raw : String} {stop : Abort} (hd : WithinDigits raw)
    (h : attributes raw = .error stop) : ∃ e, stop = .error e ∧ e.privileged = false :=
  error_of_map hd h

theorem error_of_positional {raw : String} {stop : Abort} (hd : WithinDigits raw)
    (h : positional raw = .error stop) : ∃ e, stop = .error e ∧ e.privileged = false :=
  error_of_map hd h

end DocAnnotations.Argument
