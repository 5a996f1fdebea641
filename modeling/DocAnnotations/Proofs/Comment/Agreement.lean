import DocAnnotations.Proofs.Argument.Parentheses
import DocAnnotations.Proofs.Comment.Occurrence

/-! Quotes and parentheses are found alike where an argument list is cut off and where its tokens
are read. -/
namespace DocAnnotations.Comment

open Argument

variable {level : Nat} {quote c : Char} {cs : List Char}

namespace Enclosed

/-- Between quotes, only the quote counts. -/
theorem of_quoted (h : Enclosed level (some quote) (c :: cs)) :
    Enclosed level (if c = quote then none else some quote) cs := by
  cases h with
  | last hc => cases hc
  | cons _ h => exact h

theorem of_other (hparen : c ≠ '(' ∧ c ≠ ')') (h : Enclosed level none (c :: cs)) :
    Enclosed level (if isQuote c then some c else none) cs := by
  cases h with
  | last hc => simp [closesList, hparen] at hc
  | cons _ h => simpa [levelAfter, quoteAfter, hparen] using h

theorem of_quote (hq : Token.isQuote c = true) (h : Enclosed level none (c :: cs)) :
    Enclosed level (some c) cs := by
  have hparen : c ≠ '(' ∧ c ≠ ')' := by
    constructor <;> rintro rfl <;> cases hq
  have hrest := h.of_other hparen
  rwa [if_pos (show isQuote c = true from hq)] at hrest

theorem of_plain (hp : ¬ Token.isPunct c = true) (hq : ¬ Token.isQuote c = true)
    (h : Enclosed level none (c :: cs)) : Enclosed level none cs := by
  have hparen : c ≠ '(' ∧ c ≠ ')' := by
    constructor <;> rintro rfl <;> exact hp rfl
  have hrest := h.of_other hparen
  rwa [if_neg (show ¬ isQuote c = true from hq)] at hrest

end Enclosed

/-- The text is read, and its tokens close one parenthesis more than `level` says. -/
def Reads (mode : Token.Mode) (level : Nat) (cs : List Char) : Prop :=
  ∃ tokens, Token.lexFrom mode cs = .ok tokens ∧ ClosedByLast (level + 1) tokens

/-- A token of punctuation in front of what is read. -/
theorem closedByLast_punct (hp : Token.isPunct c = true) (h : Enclosed (level + 1) none (c :: cs))
    (hread : ∀ level, Enclosed (level + 1) none cs → Reads .between level cs) :
    ∃ tokens, Token.lexFrom .between cs = .ok tokens ∧
      ClosedByLast (level + 1) (.punct c :: tokens) := by
  by_cases ho : c = '('
  · subst ho
    cases h with
    | last hc => cases hc
    | cons _ h =>
      obtain ⟨tokens, hlex, hclosed⟩ := hread (level + 1) h
      exact ⟨tokens, hlex, .opening hclosed⟩
  · by_cases hc : c = ')'
    · subst hc
      cases h with
      | last hc =>
        obtain rfl : level = 0 := by simpa [closesList] using hc
        exact ⟨[], rfl, .last⟩
      | cons hc h =>
        cases level with
        | zero => cases hc
        | succ level =>
          obtain ⟨tokens, hlex, hclosed⟩ := hread level h
          exact ⟨tokens, hlex, .closing hclosed⟩
    · have hq : isQuote c = false := by
        rw [Bool.eq_false_iff]
        intro hq
        have hq : c = '"' ∨ c = '\'' := by simpa [isQuote] using hq
        rcases hq with rfl | rfl <;> cases hp
      have hrest := h.of_other ⟨ho, hc⟩
      rw [if_neg (by simp [hq])] at hrest
      obtain ⟨tokens, hlex, hclosed⟩ := hread level hrest
      exact ⟨tokens, hlex, .other (by simpa using ho) (by simpa using hc) hclosed⟩

/-- What is enclosed by the scan is read as tokens that close their parentheses with the last one.
The induction is on the reader; a doubled quote is two steps of the scan. -/
theorem reads_of_enclosed (mode : Token.Mode) (cs : List Char) (level : Nat)
    (h : Enclosed (level + 1) mode.quote? cs) : Reads mode level cs := by
  unfold Reads
  fun_induction Token.lexFrom mode cs generalizing level with
  | case1 => cases h
  | case2 => cases h
  | case3 => cases h
  | case4 sofar cs ih =>
    have hbetween : Enclosed (level + 1) none ('"' :: cs) := h.of_quoted
    exact ih level (hbetween.of_quote rfl)
  | case5 sofar c cs hd ih =>
    have hrest := h.of_quoted
    rw [if_pos rfl] at hrest
    obtain ⟨tokens, hlex, hclosed⟩ := ih level hrest
    exact ⟨_, by rw [hlex]; rfl, hclosed.behind_label rfl⟩
  | case6 quote sofar c cs hd hc ih =>
    have hrest := h.of_quoted
    rw [if_neg hc] at hrest
    exact ih level hrest
  | case7 c cs hblank ih =>
    have hp : ¬ Token.isPunct c = true := fun hp => by simp [Token.isBlank_of_isPunct hp] at hblank
    have hq : ¬ Token.isQuote c = true := by
      intro hq
      have hq : c = '"' ∨ c = '\'' := by simpa [Token.isQuote] using hq
      rcases hq with rfl | rfl <;> cases hblank
    exact ih level (h.of_plain hp hq)
  | case8 c cs _ hp ih =>
    obtain ⟨tokens, hlex, hclosed⟩ := closedByLast_punct hp h ih
    exact ⟨_, by rw [hlex]; rfl, hclosed⟩
  | case9 c cs _ hp hq ih => exact ih level (h.of_quote hq)
  | case10 c cs _ hp hq ih => exact ih level (h.of_plain hp hq)
  | case11 sofar c cs hp ih =>
    obtain ⟨tokens, hlex, hclosed⟩ := closedByLast_punct hp h ih
    exact ⟨_, by rw [hlex]; rfl, hclosed.behind_label rfl⟩
  | case12 sofar c cs hp hq ih =>
    obtain ⟨tokens, hlex, hclosed⟩ := ih level (h.of_quote hq)
    exact ⟨_, by rw [hlex]; rfl, hclosed.behind_label rfl⟩
  | case13 sofar c cs hp hq ih => exact ih level (h.of_plain hp hq)

/-- The reader of arguments finds the quotes and parentheses of the text where its scan found them:
every quote is closed, and the first parenthesis by the last token. So only what stands inside may
be at fault: its braces, its depth, missing values and commas, or a number that has no value. -/
structure Agrees (raw : String) (inner : List Token) : Prop where
  lexed : Token.lex raw.toList = .ok (.punct '(' :: (inner ++ [.punct ')']))
  balanced : RoundBalanced inner
  rejected : ∀ error, Argument.normalize raw = .error error →
    ∃ fault, error = malformed raw fault ∧ InnerFault inner fault
  evaluated : ∀ text, Argument.normalize raw = .ok text → (∀ w, .word w ∈ inner → PlainNumber w) →
    ∃ v, evaluate raw = .ok v

theorem Enclosed.exists_append {quote : Option Char} (h : Enclosed level quote cs) :
    ∃ inner, cs = inner ++ [')'] := by
  induction h with
  | last hc =>
    obtain ⟨⟨_, rfl⟩, _⟩ : (_ ∧ _ = ')') ∧ _ := by simpa [closesList] using hc
    exact ⟨[], rfl⟩
  | cons _ _ ih =>
    obtain ⟨inner, rfl⟩ := ih
    exact ⟨_ :: inner, rfl⟩

/-- The text of an argument list that is enclosed is read alike. -/
theorem agrees_of_enclosed {list : List Char} (h : Enclosed 1 none list) :
    ∃ inner, Agrees (String.ofList (Text.trim ('(' :: list))) inner := by
  obtain ⟨tokens, hlex, hclosed⟩ := reads_of_enclosed .between list 0 h
  obtain ⟨inner, rfl, hbalanced⟩ := hclosed.exists_balanced
  have htrim : Text.trim ('(' :: list) = '(' :: list := by
    obtain ⟨between, rfl⟩ := h.exists_append
    exact trim_round between
  have hwhole : Token.lex ('(' :: list) = .ok (.punct '(' :: (inner ++ [.punct ')'])) := by
    rw [Token.lex, Token.lexFrom_punct rfl, hlex]
    rfl
  have htokens : Term.ofText ('(' :: list) =
      Term.ofTokens (.punct '(' :: (inner ++ [.punct ')'])) := by
    simp only [Term.ofText, hwhole]
  rw [htrim]
  refine ⟨inner, by rw [String.toList_ofList, hwhole], hbalanced, ?_, ?_⟩
  · intro error herror
    cases hterm : Term.ofTokens (.punct '(' :: (inner ++ [.punct ')'])) with
    | ok term => simp [Argument.normalize, htokens, hterm] at herror
    | error fault =>
      refine ⟨fault, ?_, (innerFault_of_ofTokens hclosed hterm).of_append⟩
      simpa [Argument.normalize, htokens, hterm] using herror.symm
  · intro text htext hplain
    cases hterm : Term.ofTokens (.punct '(' :: (inner ++ [.punct ')'])) with
    | error fault => simp [Argument.normalize, htokens, hterm] at htext
    | ok term =>
      have hfault : term.fault? = none :=
        fault?_of_plainNumbers (ofTokens_eq_ok_iff.mp hterm).1 fun w hw =>
          hplain w (by simpa using hw)
      exact ⟨term.value, by simp [evaluate, htokens, hterm, hfault]⟩

/-- The scan of an argument list that takes its children out of it. -/
def scanWithChildren : List Char → ListScan :=
  scanChildren 0 none false 0

/-- The scan of the argument list of a child. -/
def scanWhole : List Char → ListScan :=
  scanList 0 none

theorem scanWithChildren_open (cs : List Char) :
    scanWithChildren ('(' :: cs) = (scanChildren 1 none true 0 cs).withChar '(' := by
  rw [scanWithChildren, scanChildren]
  split
  next hc => cases hc
  next => rfl

theorem withChildren_read (cs : List Char) :
    ArgumentReader.withChildren.read cs = (scanWithChildren cs).argumentText :=
  cutChildren_eq 0 none false 0 cs

theorem whole_read_text (cs : List Char) :
    (ArgumentReader.whole.read cs).text = (scanWhole cs).text :=
  congrArg Prod.fst (cutList_eq 0 none cs)

namespace Occurrence

/-- The annotations inside the argument list of an annotation. -/
def children (o : Occurrence) : List Occurrence :=
  if o.HasList then (scanWithChildren o.behind).children else []

/-- An argument list stands directly behind the name, and the scan has found the parenthesis that
closes it. -/
def Closed (scan : List Char → ListScan) (o : Occurrence) : Prop :=
  o.HasList ∧ (scan o.behind).closed = true

instance (scan : List Char → ListScan) (o : Occurrence) : Decidable (o.Closed scan) :=
  inferInstanceAs (Decidable (_ ∧ _))

theorem raw_of_hasList {o : Occurrence} (h : o.HasList) (reader : ArgumentReader) :
    (o.fragment reader).raw = String.ofList (Text.trim (reader.read o.behind).text) := by
  rw [fragment, if_pos h]
  rfl

theorem exists_behind_eq {o : Occurrence} (h : o.HasList) : ∃ list, o.behind = '(' :: list :=
  List.head?_eq_some_iff.mp h

theorem children_fragment (o : Occurrence) : (o.fragment .withChildren).children =
    o.children.map (·.fragment .whole) := by
  rw [fragment, children]
  split
  next => rw [withChildren_read]; rfl
  next => rfl

theorem agrees_of_closed {o : Occurrence} (h : o.Closed scanWithChildren) :
    ∃ inner, Agrees (o.fragment .withChildren).raw inner := by
  obtain ⟨hlist, hclosed⟩ := h
  obtain ⟨list, hbehind⟩ := exists_behind_eq hlist
  rw [hbehind, scanWithChildren_open] at hclosed
  rw [raw_of_hasList hlist, withChildren_read, hbehind, scanWithChildren_open]
  exact agrees_of_enclosed (enclosed_scanChildren 1 none true 0 list hclosed)

theorem agrees_of_childClosed {o : Occurrence} (h : o.Closed scanWhole) :
    ∃ inner, Agrees (o.fragment .whole).raw inner := by
  obtain ⟨hlist, hclosed⟩ := h
  obtain ⟨list, hbehind⟩ := exists_behind_eq hlist
  rw [hbehind] at hclosed
  rw [raw_of_hasList hlist, whole_read_text, hbehind]
  exact agrees_of_enclosed (enclosed_scanList 1 none list hclosed)

end Occurrence

/-- For every annotation of a comment and every child of one, if the scan has found the parenthesis
that closes its argument list, the reader of arguments finds the same quotes and parentheses. -/
theorem occurrences_agree (comment : String) :
    fragments comment = (occurrences comment).map (·.fragment .withChildren) ∧
    ∀ o ∈ occurrences comment,
      (o.fragment .withChildren).children = o.children.map (·.fragment .whole) ∧
      (o.Closed scanWithChildren → ∃ inner, Agrees (o.fragment .withChildren).raw inner) ∧
      ∀ child ∈ o.children, child.Closed scanWhole →
        ∃ inner, Agrees (child.fragment .whole).raw inner := by
  refine ⟨fragments_eq_map comment, fun o _ => ⟨o.children_fragment, ?_, ?_⟩⟩
  · exact Occurrence.agrees_of_closed
  · intro child _ hclosed
    exact Occurrence.agrees_of_childClosed hclosed

/-- A doubled quote, parentheses between quotes, and a child. -/
theorem occurrences_agree_nested :
    let comment := "/** @T(\"a\"\"(b\", 'it(', c=@C(\")\")) */"
    ∃ o ∈ occurrences comment, ∃ child ∈ o.children,
      o.Closed scanWithChildren ∧ child.Closed scanWhole ∧
        (∃ inner, Agrees "(\"a\"\"(b\", 'it(', c=_child_0)" inner) ∧
          ∃ inner, Agrees "(\")\")" inner := by
  intro comment
  let o : Occurrence := ⟨['T'], "(\"a\"\"(b\", 'it(', c=@C(\")\")) ".toList⟩
  let child : Occurrence := ⟨['C'], "(\")\")) ".toList⟩
  have hmem : o ∈ occurrences comment := by decide +kernel
  have hchild : child ∈ o.children := by decide +kernel
  have hclosed : o.Closed scanWithChildren := by decide +kernel
  have hchildClosed : child.Closed scanWhole := by decide
  have hraw : (o.fragment .withChildren).raw = "(\"a\"\"(b\", 'it(', c=_child_0)" := by
    decide +kernel
  have hchildRaw : (child.fragment .whole).raw = "(\")\")" := by decide
  obtain ⟨-, hagree, hagreeChild⟩ := (occurrences_agree comment).2 o hmem
  exact ⟨o, hmem, child, hchild, hclosed, hchildClosed, hraw ▸ hagree hclosed,
    hchildRaw ▸ hagreeChild child hchild hchildClosed⟩

end DocAnnotations.Comment
