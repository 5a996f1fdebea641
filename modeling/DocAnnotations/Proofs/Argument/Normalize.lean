import DocAnnotations.Argument
import DocAnnotations.Proofs.Argument.Json
import DocAnnotations.Proofs.Argument.Structure

/-! The JSON text of an argument says what its tokens say. -/
namespace DocAnnotations.Argument

open Text

/-- If the word is spelled like a number, it is one that JSON has, of no more digits than are
read. -/
def PlainNumber (word : String) : Prop :=
  Numeral.isNumeral isDecimalDigit word.toList = true →
    (∀ c ∈ word.toList, isDecimalDigit c = true → c.isDigit = true) ∧
      (word.toList.filter Char.isDigit).length ≤ Numeral.maxDigits

theorem plainNumber_of_all {word : String}
    (ha : (word.toList.all fun c => !isDecimalDigit c || c.isDigit) = true)
    (hl : word.toList.length ≤ Numeral.maxDigits) : PlainNumber word := by
  refine fun _ => ⟨fun c hc hd => ?_, (List.length_filter_le _ _).trans hl⟩
  simpa [hd] using List.all_eq_true.mp ha c hc

theorem isDecimalDigit_of_isDigit {c : Char} (h : c.isDigit = true) : isDecimalDigit c = true := by
  have : c.toNat < 128 := by
    simp only [Char.isDigit, Bool.and_eq_true, decide_eq_true_eq] at h
    have h₂ := UInt32.le_iff_toNat_le.mp h.2
    change c.val.toNat < 128
    exact Nat.lt_of_le_of_lt h₂ (by decide)
  simp [isDecimalDigit, this, h]

theorem fault?_of_plainNumber {word : String} (h : PlainNumber word) :
    Scalar.fault? word = none := by
  unfold Scalar.fault?
  cases hw : Scalar.ofWord word with
  | null | bool | text => rfl
  | number =>
    have hn := Scalar.isNumeral_of_ofWord hw
    obtain ⟨hascii, hlen⟩ := h hn
    have hcut : Numeral.cut Char.isDigit word.toList = Numeral.cut isDecimalDigit word.toList := by
      refine Numeral.cut_congr fun c hc => ?_
      rw [Bool.eq_iff_iff]
      exact ⟨isDecimalDigit_of_isDigit, hascii c hc⟩
    unfold Numeral.isNumeral at hn
    split at hn
    next n he =>
      rw [← hcut] at he
      have hsize : n.isOversized = false := by
        have := (Numeral.whole_sublist he).length_le
        simp [Numeral.isOversized]
        omega
      simp [he, hsize]
    next => cases hn

mutual

/-- A number at fault in a term is a word among its tokens. -/
theorem exists_word_of_fault? : ∀ {term : Term} {tokens : List Token}, term.Spelled tokens →
    ∀ {fault}, term.fault? = some fault → ∃ w, .word w ∈ tokens ∧ Scalar.fault? w = some fault
  | _, _, .text _ => fun h => by cases h
  | _, _, .word w => fun h => ⟨w, by simp, h⟩
  | _, _, .group he => fun h => by
    obtain ⟨e, hm, hf⟩ := Term.exists_of_fault?_group h
    obtain ⟨w, hw, hf⟩ := exists_word_of_element he e hm hf
    exact ⟨w, by simp [hw], hf⟩

theorem exists_word_of_element : ∀ {bracket : Bracket} {separated : Bool}
    {elements : List (Option String × Term)} {tokens : List Token},
    ElementsSpelled bracket separated elements tokens → ∀ e ∈ elements, ∀ {fault},
      e.2.fault? = some fault → ∃ w, .word w ∈ tokens ∧ Scalar.fault? w = some fault
  | _, _, _, _, .nil => by simp
  | _, _, _, _, .comma he => fun e hm _ hf => by
    obtain ⟨w, hw, hf⟩ := exists_word_of_element he e hm hf
    exact ⟨w, by simp [hw], hf⟩
  | _, _, _, _, .unkeyed _ ht he => fun e hm _ hf => by
    rw [← List.cons_append]
    obtain rfl | hm := List.mem_cons.mp hm
    · obtain ⟨w, hw, hf⟩ := exists_word_of_fault? ht hf
      exact ⟨w, List.mem_append_left _ hw, hf⟩
    · obtain ⟨w, hw, hf⟩ := exists_word_of_element he e hm hf
      exact ⟨w, List.mem_append_right _ hw, hf⟩
  | _, _, _, _, .keyed _ _ ht he => fun e hm _ hf => by
    obtain rfl | hm := List.mem_cons.mp hm
    · obtain ⟨w, hw, hf⟩ := exists_word_of_fault? ht hf
      exact ⟨w, by simp [hw], hf⟩
    · obtain ⟨w, hw, hf⟩ := exists_word_of_element he e hm hf
      exact ⟨w, by simp [hw], hf⟩

end

/-- A term whose numbers are plain has no fault. -/
theorem fault?_of_plainNumbers {term : Term} {tokens : List Token} (hs : term.Spelled tokens)
    (hn : ∀ w, .word w ∈ tokens → PlainNumber w) : term.fault? = none := by
  by_contra hf
  obtain ⟨fault, hf⟩ := Option.ne_none_iff_exists'.mp hf
  obtain ⟨w, hw, hf⟩ := exists_word_of_fault? hs hf
  rw [fault?_of_plainNumber (hn w hw)] at hf
  cases hf

/-- The value that tokens stand for: that of the term they spell. -/
def Token.Denote (tokens : List Token) (v : Value) : Prop :=
  ∃ term : Term, term.Spelled tokens ∧ term.value = v

theorem Token.denote_iff_of_spelled {tokens : List Token} {term : Term}
    (h : term.Spelled tokens) (v : Value) : Token.Denote tokens v ↔ v = term.value := by
  constructor
  · rintro ⟨other, ho, rfl⟩
    have ht : Except.ok term = Except.ok other :=
      (State.read_start h 0).symm.trans (State.read_start ho 0)
    rw [Except.ok.inj ht]
  · rintro rfl
    exact ⟨term, h, rfl⟩

theorem ofText_eq_ok {cs : List Char} {term : Term} (h : Term.ofText cs = .ok term) :
    ∃ tokens, Token.lex cs = .ok tokens ∧ term.Spelled tokens := by
  unfold Term.ofText at h
  split at h
  next tokens hl => exact ⟨tokens, hl, (ofTokens_eq_ok_iff.mp h).1⟩
  next => cases h

/-- The JSON text of an argument text is read as the value that the tokens stand for, and they
stand for no other. -/
theorem read_normalize {raw text : String} (h : normalize raw = .ok text)
    (hn : ∀ tokens, Token.lex raw.toList = .ok tokens → ∀ w, .word w ∈ tokens → PlainNumber w) :
    ∃ tokens v, Token.lex raw.toList = .ok tokens ∧ (∀ w, Token.Denote tokens w ↔ w = v) ∧
      Json.read? text = some v ∧ evaluate raw = .ok v := by
  unfold normalize at h
  split at h
  next term ht =>
    cases h
    obtain ⟨tokens, hl, hs⟩ := ofText_eq_ok ht
    have hf : term.fault? = none := fault?_of_plainNumbers hs (hn tokens hl)
    refine ⟨tokens, term.value, hl, Token.denote_iff_of_spelled hs, (Term.denotes_json hf).read?, ?_⟩
    simp [evaluate, ht, hf]
  next => cases h

/-- Elements with and without keys, a nested group, a repeated key and a surrogate pair. -/
theorem read_normalize_mixed :
    let raw := "(a b, \"k\"=1, \x7bTRUE, 'x\x7d😀', -2.5\x7d, k =\x7b\x7d, \" k \"=null)"
    let text := "\x7b\"value\": [\"a b\", [true, \"x\x7d\\ud83d\\ude00\", -2.5]], " ++
      "\"k\": 1, \"k\": [], \"k\": null\x7d"
    normalize raw = .ok text ∧
      (∀ tokens, Token.lex raw.toList = .ok tokens → ∀ w, .word w ∈ tokens → PlainNumber w) ∧
      ∃ tokens v, Token.lex raw.toList = .ok tokens ∧ (∀ w, Token.Denote tokens w ↔ w = v) ∧
        Json.read? text = some v ∧ evaluate raw = .ok v := by
  intro raw text
  have h : normalize raw = .ok text := by decide +kernel
  have hl : Token.lex raw.toList = .ok [.punct '(', .word "a b", .punct ',', .text "k", .punct '=',
      .word "1", .punct ',', .punct '{', .word "TRUE", .punct ',', .text "x\x7d😀", .punct ',',
      .word "-2.5", .punct '}', .punct ',', .word "k", .punct '=', .punct '{', .punct '}',
      .punct ',', .text " k ", .punct '=', .word "null", .punct ')'] := by decide
  have hn : ∀ tokens, Token.lex raw.toList = .ok tokens →
      ∀ w, .word w ∈ tokens → PlainNumber w := by
    intro tokens ht w hw
    obtain rfl := Except.ok.inj (hl.symm.trans ht)
    simp only [List.mem_cons, reduceCtorEq, Token.word.injEq, List.not_mem_nil, or_false,
      false_or] at hw
    rcases hw with rfl | rfl | rfl | rfl | rfl | rfl <;>
      exact plainNumber_of_all (by decide) (by decide)
  exact ⟨h, hn, read_normalize h hn⟩

end DocAnnotations.Argument
