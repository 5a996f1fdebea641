import DocAnnotations.Proofs.Argument.Part

/-! White space next to punctuation does not change what an argument text means. -/
namespace DocAnnotations.Argument

open Text

namespace Token

/-- The quote that is open behind a text. A doubled quote closes it and opens it again. -/
def quoteBehind (quote : Option Char) (cs : List Char) : Option Char :=
  cs.foldl Comment.quoteAfter quote

/-- Two texts that are read alike where no quote is open. Neither begins with the second half of a
doubled quote. -/
structure Interchangeable (xs ys : List Char) : Prop where
  read : ∀ mode : Mode, mode.quote? = none → lexFrom mode xs = lexFrom mode ys
  left : xs.head? ≠ some '"'
  right : ys.head? ≠ some '"'

variable {xs ys gap : List Char} {p c quote : Char}

theorem quoteBehind_cons (opened : Option Char) (c : Char) (cs : List Char) :
    quoteBehind opened (c :: cs) = quoteBehind (Comment.quoteAfter opened c) cs := rfl

theorem quoteBehind_of_isQuote (hq : isQuote c = true) (cs : List Char) :
    quoteBehind none (c :: cs) = quoteBehind (some c) cs := by
  have hstep : Comment.quoteAfter none c = some c := if_pos hq
  rw [quoteBehind_cons, hstep]

theorem quoteBehind_of_not_isQuote (hq : ¬ isQuote c = true) (cs : List Char) :
    quoteBehind none (c :: cs) = quoteBehind none cs := by
  have hstep : Comment.quoteAfter none c = none := if_neg hq
  rw [quoteBehind_cons, hstep]

theorem quoteBehind_close (quote : Char) (cs : List Char) :
    quoteBehind (some quote) (quote :: cs) = quoteBehind none cs := by
  have hstep : Comment.quoteAfter (some quote) quote = none := if_pos rfl
  rw [quoteBehind_cons, hstep]

theorem quoteBehind_of_ne (hc : c ≠ quote) (cs : List Char) :
    quoteBehind (some quote) (c :: cs) = quoteBehind (some quote) cs := by
  have hstep : Comment.quoteAfter (some quote) c = some quote := if_neg hc
  rw [quoteBehind_cons, hstep]

theorem quoteBehind_append (opened : Option Char) (cs ds : List Char) :
    quoteBehind opened (cs ++ ds) = quoteBehind (quoteBehind opened cs) ds := by
  rw [quoteBehind, List.foldl_append, quoteBehind, quoteBehind]

/-- Only a quote is open behind a text. -/
theorem isQuote_of_quoteBehind (cs : List Char) {opened : Option Char}
    (hopened : ∀ q ∈ opened, isQuote q = true) : ∀ q ∈ quoteBehind opened cs, isQuote q = true := by
  induction cs generalizing opened with
  | nil => exact hopened
  | cons c cs ih =>
    cases opened with
    | none =>
      by_cases hq : isQuote c = true
      · rw [quoteBehind_of_isQuote hq]
        apply ih
        rintro _ ⟨⟩
        exact hq
      · rw [quoteBehind_of_not_isQuote hq]
        exact ih nofun
    | some quote =>
      by_cases hc : c = quote
      · subst hc
        rw [quoteBehind_close]
        exact ih nofun
      · rw [quoteBehind_of_ne hc]
        exact ih hopened

/-- If no quote is open behind punctuation, none is open in front of it. -/
theorem quoteBehind_of_append_punct (hp : isPunct p = true) {front : List Char}
    (h : quoteBehind none (front ++ [p]) = none) : quoteBehind none front = none := by
  have hquote : ∀ q ∈ quoteBehind none front, isQuote q = true := isQuote_of_quoteBehind front nofun
  rw [quoteBehind_append] at h
  cases hopened : quoteBehind none front with
  | none => rfl
  | some q =>
    have hne : p ≠ q := by
      rintro rfl
      exact not_isQuote_of_isPunct hp (hquote p hopened)
    rw [hopened, quoteBehind_of_ne hne] at h
    cases h

/-- The text in front of interchangeable texts is read alike if it leaves no quote open. -/
theorem Interchangeable.lexFrom_append (h : Interchangeable xs ys) (mode : Mode) (cs : List Char)
    (hopen : quoteBehind mode.quote? cs = none) :
    lexFrom mode (cs ++ xs) = lexFrom mode (cs ++ ys) := by
  fun_induction lexFrom mode cs with
  | case1 => exact h.read .between rfl
  | case2 sofar => exact h.read (.bare sofar) rfl
  | case3 quote sofar => cases hopen
  | case4 sofar cs ih =>
    rw [Mode.quote?, quoteBehind_close, quoteBehind_of_isQuote rfl] at hopen
    exact ih hopen
  | case5 sofar quote cs hp ih =>
    rw [Mode.quote?, quoteBehind_close] at hopen
    have hleft := fun hq => head?_append_ne (head?_ne_of_single hp hq) h.left
    have hright := fun hq => head?_append_ne (head?_ne_of_single hp hq) h.right
    rw [List.cons_append, List.cons_append, lexFrom_closing hleft, lexFrom_closing hright, ih hopen]
  | case6 quote sofar c cs hp hne ih =>
    rw [Mode.quote?, quoteBehind_of_ne hne] at hopen
    rw [List.cons_append, List.cons_append, lexFrom_inside hne, lexFrom_inside hne, ih hopen]
  | case7 c cs hb ih =>
    rw [Mode.quote?, quoteBehind_of_not_isQuote (not_isQuote_of_isBlank hb)] at hopen
    rw [List.cons_append, List.cons_append, lexFrom, lexFrom, if_pos hb, if_pos hb, ih hopen]
  | case8 c cs hb hp ih =>
    rw [Mode.quote?, quoteBehind_of_not_isQuote (not_isQuote_of_isPunct hp)] at hopen
    rw [List.cons_append, List.cons_append, lexFrom_punct hp, lexFrom_punct hp, ih hopen]
  | case9 c cs hb hp hq ih =>
    rw [Mode.quote?, quoteBehind_of_isQuote hq] at hopen
    rw [List.cons_append, List.cons_append, lexFrom, lexFrom]
    simp only [hb, hp, hq, Bool.false_eq_true, if_false, if_true]
    exact ih hopen
  | case10 c cs hb hp hq ih =>
    rw [Mode.quote?, quoteBehind_of_not_isQuote hq] at hopen
    rw [List.cons_append, List.cons_append, lexFrom, lexFrom]
    simp only [hb, hp, hq, Bool.false_eq_true, if_false]
    exact ih hopen
  | case11 sofar c cs hp ih =>
    rw [Mode.quote?, quoteBehind_of_not_isQuote (not_isQuote_of_isPunct hp)] at hopen
    rw [List.cons_append, List.cons_append, lexFrom, lexFrom, if_pos hp, if_pos hp, ih hopen]
  | case12 sofar c cs hp hq ih =>
    rw [Mode.quote?, quoteBehind_of_isQuote hq] at hopen
    rw [List.cons_append, List.cons_append, lexFrom, lexFrom]
    simp only [hp, hq, Bool.false_eq_true, if_false, if_true]
    rw [ih hopen]
  | case13 sofar c cs hp hq ih =>
    rw [Mode.quote?, quoteBehind_of_not_isQuote hq] at hopen
    rw [List.cons_append, List.cons_append, lexFrom, lexFrom]
    simp only [hp, hq, Bool.false_eq_true, if_false]
    exact ih hopen

section Gap

variable (hgap : ∀ c ∈ gap, isBlank c = true)
include hgap

/-- Between tokens white space is passed over. -/
theorem lexFrom_blank_append (cs : List Char) :
    lexFrom .between (gap ++ cs) = lexFrom .between cs := by
  have hdrop : (gap ++ cs).dropWhile isBlank = cs.dropWhile isBlank :=
    List.dropWhile_append_of_pos hgap
  rw [← lexFrom_dropWhile_isBlank, hdrop, lexFrom_dropWhile_isBlank]

/-- In a bare word white space is read on, and dropped where the word ends. -/
theorem lexFrom_bare_blank_append (sofar cs : List Char) :
    lexFrom (.bare sofar) (gap ++ cs) = lexFrom (.bare (gap.reverse ++ sofar)) cs := by
  induction gap generalizing sofar with
  | nil => rfl
  | cons c gap ih =>
    have hb := hgap c List.mem_cons_self
    have hp : ¬ isPunct c = true := by
      intro hp
      rw [isBlank_of_isPunct hp] at hb
      cases hb
    rw [List.cons_append, lexFrom, if_neg hp, if_neg (not_isQuote_of_isBlank hb),
      ih fun d hd => hgap d (List.mem_cons_of_mem c hd)]
    simp

/-- White space in front of punctuation makes no difference. -/
theorem interchangeable_before_punct (hp : isPunct p = true) (cs : List Char) :
    Interchangeable (p :: cs) (gap ++ p :: cs) := by
  have hhead : (p :: cs).head? ≠ some '"' := by
    intro hc
    obtain rfl : p = '"' := by simpa using hc
    exact not_isQuote_of_isPunct hp rfl
  refine ⟨fun mode hmode => ?_, hhead, head?_append_ne (head?_ne_of_blank hgap) hhead⟩
  cases mode with
  | between => exact (lexFrom_blank_append hgap (p :: cs)).symm
  | bare sofar =>
    have hword : ofBare (gap.reverse ++ sofar).reverse = ofBare sofar.reverse := by
      rw [List.reverse_append, List.reverse_reverse, ofBare_append_blank hgap]
    rw [lexFrom_bare_blank_append hgap, lexFrom, lexFrom, if_pos hp, if_pos hp, hword]
  | quoted quote sofar => cases hmode

/-- White space behind punctuation makes no difference. -/
theorem interchangeable_after_punct (hp : isPunct p = true) (cs : List Char) :
    Interchangeable (p :: cs) (p :: (gap ++ cs)) := by
  have hhead (ds : List Char) : (p :: ds).head? ≠ some '"' := by
    intro hc
    obtain rfl : p = '"' := by simpa using hc
    exact not_isQuote_of_isPunct hp rfl
  refine ⟨fun mode hmode => ?_, hhead cs, hhead (gap ++ cs)⟩
  cases mode with
  | between => rw [lexFrom_punct hp, lexFrom_punct hp, lexFrom_blank_append hgap]
  | bare sofar => rw [lexFrom, lexFrom, if_pos hp, if_pos hp, lexFrom_blank_append hgap]
  | quoted quote sofar => cases hmode

end Gap

end Token

variable {before after gap : List Char}

/-- White space beside punctuation outside quotes changes no token. -/
theorem Token.lex_insert_blank (houtside : quoteBehind none before = none)
    (hbeside : (∃ p ∈ before.getLast?, isPunct p = true) ∨ (∃ p ∈ after.head?, isPunct p = true))
    (hgap : ∀ c ∈ gap, isBlank c = true) :
    lex (before ++ gap ++ after) = lex (before ++ after) := by
  rcases hbeside with ⟨p, hlast, hp⟩ | ⟨p, hhead, hp⟩
  · obtain ⟨front, rfl⟩ := List.getLast?_eq_some_iff.mp hlast
    have hopen : quoteBehind none front = none := quoteBehind_of_append_punct hp houtside
    have hlex := (interchangeable_after_punct hgap hp after).lexFrom_append .between front hopen
    simpa [lex] using hlex.symm
  · obtain ⟨rest, rfl⟩ : ∃ rest, after = p :: rest := List.head?_eq_some_iff.mp hhead
    have hlex := (interchangeable_before_punct hgap hp rest).lexFrom_append .between before houtside
    simpa [lex] using hlex.symm

/-- White space beside punctuation outside quotes changes nothing about what an argument text is
normalized to: the JSON text is the same, or the same is wrong at the same position. -/
theorem normalize_insert_blank (houtside : Token.quoteBehind none before = none)
    (hbeside : (∃ p ∈ before.getLast?, Token.isPunct p = true) ∨
      (∃ p ∈ after.head?, Token.isPunct p = true))
    (hgap : ∀ c ∈ gap, isBlank c = true) :
    let plain := String.ofList (before ++ after)
    let spaced := String.ofList (before ++ gap ++ after)
    (∃ text, normalize plain = .ok text ∧ normalize spaced = .ok text) ∨
      ∃ fault, normalize plain = .error (malformed plain fault) ∧
        normalize spaced = .error (malformed spaced fault) ∧
        (malformed spaced fault).cause.context.get? "position" =
          (malformed plain fault).cause.context.get? "position" := by
  intro plain spaced
  have hterm : Term.ofText spaced.toList = Term.ofText plain.toList := by
    rw [String.toList_ofList, String.toList_ofList, Term.ofText, Term.ofText,
      Token.lex_insert_blank houtside hbeside hgap]
  cases hplain : Term.ofText plain.toList with
  | ok term =>
    refine .inl ⟨String.ofList term.json, ?_, ?_⟩
    · rw [normalize, hplain]
    · rw [normalize, hterm, hplain]
  | error fault =>
    refine .inr ⟨fault, ?_, ?_, ?_⟩
    · rw [normalize, hplain]
    · rw [normalize, hterm, hplain]
    · cases fault <;> rfl

/-- A tab and a space of another script between a quoted key, with a parenthesis in it, and its
equals sign. -/
theorem normalize_insert_blank_behind_key :
    let before := "(a b, \"x\"\"(y\"".toList
    let after := "=\x7b1,,2\x7d, k='\"')".toList
    let gap := "\t\u00a0".toList
    let plain := String.ofList (before ++ after)
    let spaced := String.ofList (before ++ gap ++ after)
    normalize plain =
        .ok "\x7b\"value\": \"a b\", \"x\\\"(y\": [1, 2], \"k\": \"\\\"\"\x7d" ∧
      ((∃ text, normalize plain = .ok text ∧ normalize spaced = .ok text) ∨
        ∃ fault, normalize plain = .error (malformed plain fault) ∧
          normalize spaced = .error (malformed spaced fault) ∧
          (malformed spaced fault).cause.context.get? "position" =
            (malformed plain fault).cause.context.get? "position") := by
  intro before after gap
  have houtside : Token.quoteBehind none before = none := by decide +kernel
  have hhead : ∃ p ∈ after.head?, Token.isPunct p = true := ⟨'=', by decide, rfl⟩
  have hgap : ∀ c ∈ gap, isBlank c = true :=
    List.all_eq_true.mp (by decide : gap.all isBlank = true)
  have hplain : normalize (String.ofList (before ++ after)) =
      .ok "\x7b\"value\": \"a b\", \"x\\\"(y\": [1, 2], \"k\": \"\\\"\"\x7d" := by
    decide +kernel
  have hsame := normalize_insert_blank houtside (.inr hhead) hgap
  exact ⟨hplain, hsame⟩

/-- Elsewhere white space counts: next to each other two quotes stand for one. -/
example : (normalize "(\"a\"\"b\")").isOk = true ∧ (normalize "(\"a\" \"b\")").isOk = false := by
  decide

end DocAnnotations.Argument
