import DocAnnotations.Argument
import DocAnnotations.Proofs.Argument.Json
import DocAnnotations.Proofs.Argument.Structure
import DocAnnotations.Proofs.Text

/-! Terms as they may be written, and read again. -/
namespace DocAnnotations.Argument

open Text

/-- A text with every quote in it doubled. -/
def doubled (cs : List Char) : List Char :=
  cs.flatMap fun c => if c = '"' then ['"', '"'] else [c]

theorem doubled_quote (cs : List Char) : doubled ('"' :: cs) = '"' :: '"' :: doubled cs := rfl

theorem doubled_of_ne {c : Char} (hc : c ≠ '"') (cs : List Char) :
    doubled (c :: cs) = c :: doubled cs := by
  rw [doubled, List.flatMap_cons, if_neg hc]
  rfl

/-- A text between quotes. -/
def quoted (cs : List Char) : List Char :=
  '"' :: doubled cs ++ ['"']

/-- An element behind its key, if it has one. -/
def labelled (key : Option String) (text : List Char) : List Char :=
  match key with
  | none => text
  | some key => quoted key.toList ++ '=' :: text

def labelledTokens (key : Option String) (tokens : List Token) : List Token :=
  match key with
  | none => tokens
  | some key => .text key :: .punct '=' :: tokens

namespace Term

mutual

/-- The text of a term, with commas between the elements of a group. -/
def print : Term → List Char
  | text s => quoted s.toList
  | word s => s.toList
  | group bracket elements =>
    bracket.opener :: (", ".toList).intercalate (elementPrints elements) ++ [bracket.closer]

def elementPrints : List (Option String × Term) → List (List Char)
  | [] => []
  | (key, term) :: rest => labelled key term.print :: elementPrints rest

end

mutual

/-- The tokens of the text of a term. -/
def tokens : Term → List Token
  | text s => [.text s]
  | word s => [.word s]
  | group bracket elements =>
    .punct bracket.opener :: ([.punct ','].intercalate (elementTokens elements) ++
      [.punct bracket.closer])

def elementTokens : List (Option String × Term) → List (List Token)
  | [] => []
  | (key, term) :: rest => labelledTokens key term.tokens :: elementTokens rest

end

end Term

/-- No character of the text is left out between quotes. -/
def Clean (s : String) : Prop :=
  ∀ c ∈ s.toList, c ≠ '\r' ∧ c ≠ '\n' ∧ c ≠ '\t'

instance (s : String) : Decidable (Clean s) :=
  List.decidableBAll (fun c => c ≠ '\r' ∧ c ≠ '\n' ∧ c ≠ '\t') s.toList

/-- The text is a single bare word. -/
def Bare (s : String) : Prop :=
  s.toList ≠ [] ∧
    ∀ c ∈ s.toList, isBlank c = false ∧ Token.isPunct c = false ∧ Token.isQuote c = false

instance (s : String) : Decidable (Bare s) :=
  @instDecidableAnd _ _ inferInstance (List.decidableBAll _ s.toList)

/-- The texts and words of a term keep their characters when they are written, and so do keys. -/
inductive Term.Printable : Term → Prop
  | text {s : String} : Clean s → Term.Printable (.text s)
  | word {s : String} : Bare s → Term.Printable (.word s)
  | group {bracket : Bracket} {elements : List (Option String × Term)} :
      (∀ e ∈ elements, ∀ key ∈ e.1, Clean key ∧ strip key = key) →
      (∀ e ∈ elements, e.2.Printable) → Term.Printable (.group bracket elements)

/-- Punctuation follows, or nothing. -/
def Follows (rest : List Char) : Prop :=
  ∀ c ∈ rest.head?, Token.isPunct c = true

/-- A text is read as these tokens where punctuation follows. -/
def Lexes (cs : List Char) (tokens : List Token) : Prop :=
  ∀ rest, Follows rest →
    Token.lexFrom .between (cs ++ rest) = (Token.lexFrom .between rest).map (tokens ++ ·)

theorem exists_of_map_eq_ok {ε α β : Type} {f : α → β} {x : Except ε α} {b : β}
    (h : x.map f = .ok b) : ∃ a, x = .ok a ∧ f a = b := by
  cases x with
  | error e => cases h
  | ok a => exact ⟨a, rfl, Except.ok.inj h⟩

namespace Token

theorem head?_ne_of_follows {rest : List Char} (h : Follows rest) : rest.head? ≠ some '"' := by
  intro hquote
  have hpunct := h '"' hquote
  cases hpunct

theorem head?_append_ne {c : Char} {cs ds : List Char} (hc : cs.head? ≠ some c)
    (hd : ds.head? ≠ some c) : (cs ++ ds).head? ≠ some c := by
  cases cs with
  | nil => exact hd
  | cons e cs => exact hc

/-- Behind a quote that is not the first half of a doubled one comes no other. -/
theorem head?_ne_of_single {quote : Char} {cs : List Char}
    (h : ∀ es, quote = '"' → quote = '"' → cs = '"' :: es → False) (hq : quote = '"') :
    cs.head? ≠ some '"' := by
  intro hhead
  obtain ⟨es, rfl⟩ := List.head?_eq_some_iff.mp hhead
  exact h es hq hq rfl

/-- Inside quotes, what is written for a character gives that character. -/
theorem lexFrom_quoted (cs sofar rest : List Char) (hr : Follows rest) :
    lexFrom (.quoted '"' sofar) (doubled cs ++ '"' :: rest) =
      (lexFrom .between rest).map (ofQuoted (sofar.reverse ++ cs) :: ·) := by
  induction cs generalizing sofar with
  | nil =>
    rw [List.append_nil]
    exact lexFrom_closing (fun _ => head?_ne_of_follows hr) sofar
  | cons c cs ih =>
    by_cases hc : c = '"'
    · subst hc
      rw [doubled_quote, List.cons_append, List.cons_append, lexFrom, ih]
      simp
    · rw [doubled_of_ne hc, List.cons_append, lexFrom_inside hc, ih]
      simp

theorem lexFrom_bare (cs sofar rest : List Char) (hr : Follows rest)
    (hc : ∀ c ∈ cs, isPunct c = false ∧ isQuote c = false) :
    lexFrom (.bare sofar) (cs ++ rest) =
      (lexFrom .between rest).map (ofBare (sofar.reverse ++ cs) :: ·) := by
  induction cs generalizing sofar with
  | nil =>
    cases rest with
    | nil => simp [lexFrom, Except.map]
    | cons c rest =>
      have hp : isPunct c = true := hr c rfl
      rw [List.nil_append, lexFrom_punct hp, lexFrom, if_pos hp, List.append_nil]
      cases lexFrom .between rest <;> rfl
  | cons c cs ih =>
    obtain ⟨hp, hq⟩ := hc c (by simp)
    rw [List.cons_append, lexFrom]
    simp only [hp, hq, Bool.false_eq_true, if_false]
    rw [ih _ fun d hd => hc d (by simp [hd])]
    simp

/-- The tokens of a text are there whatever punctuation follows. -/
theorem lexFrom_append_of_ok {mode : Mode} {cs : List Char} {tokens : List Token}
    (h : lexFrom mode cs = .ok tokens) {rest : List Char} (hr : Follows rest) :
    lexFrom mode (cs ++ rest) = (lexFrom .between rest).map (tokens ++ ·) := by
  fun_induction lexFrom mode cs generalizing tokens with
  | case1 =>
    cases h
    cases hrest : lexFrom .between rest <;> simp [hrest, Except.map]
  | case2 sofar =>
    cases h
    rw [lexFrom_bare [] sofar rest hr nofun, List.append_nil]
    rfl
  | case3 quote sofar => cases h
  | case4 sofar cs ih =>
    rw [List.cons_append, List.cons_append, lexFrom]
    exact ih h
  | case5 sofar c cs hp ih =>
    obtain ⟨more, hmore, rfl⟩ := exists_of_map_eq_ok h
    have hsingle := fun hq => head?_append_ne (head?_ne_of_single hp hq) (head?_ne_of_follows hr)
    rw [List.cons_append, lexFrom_closing hsingle, ih hmore]
    cases lexFrom .between rest <;> rfl
  | case6 quote sofar c cs hp hne ih =>
    rw [List.cons_append, lexFrom_inside hne, ih h]
  | case7 c cs hb ih => rw [List.cons_append, lexFrom, if_pos hb, ih h]
  | case8 c cs hb hp ih =>
    obtain ⟨more, hmore, rfl⟩ := exists_of_map_eq_ok h
    rw [List.cons_append, lexFrom, if_neg hb, if_pos hp, ih hmore]
    cases lexFrom .between rest <;> rfl
  | case9 c cs hb hp hq ih =>
    rw [List.cons_append, lexFrom, if_neg hb, if_neg hp, if_pos hq, ih h]
  | case10 c cs hb hp hq ih =>
    rw [List.cons_append, lexFrom, if_neg hb, if_neg hp, if_neg hq, ih h]
  | case11 sofar c cs hp ih =>
    obtain ⟨more, hmore, rfl⟩ := exists_of_map_eq_ok h
    rw [List.cons_append, lexFrom, if_pos hp, ih hmore]
    cases lexFrom .between rest <;> rfl
  | case12 sofar c cs hp hq ih =>
    obtain ⟨more, hmore, rfl⟩ := exists_of_map_eq_ok h
    rw [List.cons_append, lexFrom, if_neg hp, if_pos hq, ih hmore]
    cases lexFrom .between rest <;> rfl
  | case13 sofar c cs hp hq ih => rw [List.cons_append, lexFrom, if_neg hp, if_neg hq, ih h]

end Token

theorem lexes_iff_lex {cs : List Char} {tokens : List Token} :
    Lexes cs tokens ↔ Token.lex cs = .ok tokens := by
  refine ⟨fun h => ?_, fun h rest hr => Token.lexFrom_append_of_ok h hr⟩
  have := h [] nofun
  simpa [Token.lex, Token.lexFrom, Except.map] using this

theorem lexes_bare {s : String} (h : Bare s) : Lexes s.toList [.word s] := by
  intro rest hr
  obtain ⟨hne, hc⟩ := h
  have hw := words_of_not_blank hne fun c h => (hc c h).1
  have hword : Token.ofBare s.toList = .word s := by
    simp [Token.ofBare, hw, String.ofList_toList]
  rw [← hword]
  cases hs : s.toList with
  | nil => exact absurd hs hne
  | cons c cs =>
    rw [hs] at hc
    obtain ⟨hb, hp, hq⟩ := hc c (by simp)
    rw [List.cons_append, Token.lexFrom]
    simp only [hb, hp, hq, Bool.false_eq_true, if_false]
    exact Token.lexFrom_bare cs [c] rest hr fun d hd => (hc d (by simp [hd])).2

theorem Clean.ofQuoted {s : String} (h : Clean s) : Token.ofQuoted s.toList = .text s := by
  have hf : s.toList.filter (fun c => !(c = '\r' || c = '\n' || c = '\t')) = s.toList :=
    List.filter_eq_self.mpr fun c hc => by simpa [and_assoc] using h c hc
  rw [Token.ofQuoted, hf, String.ofList_toList]

theorem lexes_quoted {s : String} (h : Clean s) : Lexes (quoted s.toList) [.text s] := by
  intro rest hr
  rw [← h.ofQuoted, quoted, List.cons_append, List.cons_append, Token.lexFrom, if_neg (by decide),
    if_neg (by decide), if_pos (by decide), List.append_assoc]
  exact Token.lexFrom_quoted s.toList [] rest hr

theorem Lexes.append {cs ds : List Char} {ts us : List Token} (hc : Lexes cs ts)
    (hd : Lexes ds us) (hf : ∀ rest, Follows rest → Follows (ds ++ rest)) :
    Lexes (cs ++ ds) (ts ++ us) := by
  intro rest hr
  rw [List.append_assoc, hc _ (hf rest hr), hd rest hr]
  cases Token.lexFrom .between rest <;> simp [Except.map]

/-- A text behind a text that is read as a key. -/
theorem Lexes.behind_key {key cs : List Char} {ks ts : List Token} (hkey : Lexes key ks)
    (h : Lexes cs ts) : Lexes (key ++ '=' :: cs) (ks ++ .punct '=' :: ts) := by
  have hequals : Lexes ('=' :: cs) (.punct '=' :: ts) := by
    intro rest hr
    rw [List.cons_append, Token.lexFrom_punct rfl, h rest hr]
    cases Token.lexFrom .between rest <;> rfl
  exact hkey.append hequals fun rest _ c hc => by cases hc; rfl

theorem lexes_labelled {key : Option String} {cs : List Char} {ts : List Token}
    (hk : ∀ k ∈ key, Clean k) (h : Lexes cs ts) :
    Lexes (labelled key cs) (labelledTokens key ts) := by
  cases key with
  | none => exact h
  | some k => exact (lexes_quoted (hk k rfl)).behind_key h

/-- A text between brackets, whatever follows. -/
theorem Lexes.lexFrom_brackets {cs : List Char} {ts : List Token} (h : Lexes cs ts)
    (bracket : Bracket) (rest : List Char) :
    Token.lexFrom .between (bracket.opener :: cs ++ [bracket.closer] ++ rest) =
      (Token.lexFrom .between rest).map
        (.punct bracket.opener :: (ts ++ [.punct bracket.closer]) ++ ·) := by
  have ho : Token.isPunct bracket.opener = true := by cases bracket <;> rfl
  have hc : Token.isPunct bracket.closer = true := by cases bracket <;> rfl
  rw [List.cons_append, List.cons_append, List.append_assoc, Token.lexFrom_punct ho,
    h _ fun c h => by cases h; exact hc, List.cons_append, List.nil_append, Token.lexFrom_punct hc]
  cases Token.lexFrom .between rest <;> simp [Except.map]

theorem lexes_nil : Lexes [] [] := by
  intro rest _
  cases h : Token.lexFrom .between rest <;> simp [h, Except.map]

theorem lexes_comma {cs : List Char} {ts : List Token} (h : Lexes cs ts) :
    Lexes (", ".toList ++ cs) ([.punct ','] ++ ts) := by
  intro rest hr
  change Token.lexFrom .between (',' :: ' ' :: (cs ++ rest)) = _
  rw [Token.lexFrom_punct rfl, Token.lexFrom_space, h rest hr]
  cases Token.lexFrom .between rest <;> rfl

theorem lexes_intercalate {α : Type} {text : α → List Char} {tokens : α → List Token}
    {items : List α} (h : ∀ a ∈ items, Lexes (text a) (tokens a)) :
    Lexes ((", ".toList).intercalate (items.map text))
      ([Token.punct ','].intercalate (items.map tokens)) := by
  induction items with
  | nil => exact lexes_nil
  | cons a items ih =>
    have ih := ih fun b hb => h b (by simp [hb])
    cases items with
    | nil => simpa using h a (by simp)
    | cons b items =>
      simp only [List.map_cons, List.intercalate_cons_cons, List.append_assoc] at ih ⊢
      refine (h a (by simp)).append (lexes_comma ih) fun rest _ c hc => ?_
      cases hc
      rfl

namespace Term

theorem elementPrints_eq_map (es : List (Option String × Term)) :
    elementPrints es = es.map fun e => labelled e.1 e.2.print := by
  induction es with
  | nil => rfl
  | cons e es ih => simp [elementPrints, ih]

theorem elementTokens_eq_map (es : List (Option String × Term)) :
    elementTokens es = es.map fun e => labelledTokens e.1 e.2.tokens := by
  induction es with
  | nil => rfl
  | cons e es ih => simp [elementTokens, ih]

theorem lexFrom_group {bracket : Bracket} {elements : List (Option String × Term)}
    (h : ∀ e ∈ elements, Lexes (labelled e.1 e.2.print) (labelledTokens e.1 e.2.tokens))
    (rest : List Char) :
    Token.lexFrom .between ((group bracket elements).print ++ rest) =
      (Token.lexFrom .between rest).map ((group bracket elements).tokens ++ ·) := by
  have hinner : Lexes ((", ".toList).intercalate (elementPrints elements))
      ([Token.punct ','].intercalate (elementTokens elements)) := by
    rw [elementPrints_eq_map, elementTokens_eq_map]
    exact lexes_intercalate h
  rw [print, tokens]
  exact hinner.lexFrom_brackets bracket rest

theorem lexes_print {t : Term} (h : t.Printable) : Lexes t.print t.tokens := by
  induction t with
  | text s => cases h with | text h => exact lexes_quoted h
  | word s => cases h with | word h => exact lexes_bare h
  | group bracket elements ih =>
    cases h with
    | group hk ht =>
      exact fun rest _ => lexFrom_group (fun e he =>
        lexes_labelled (fun k hkey => (hk e he k hkey).1) (ih e he (ht e he))) rest

theorem lex_print {t : Term} (h : t.Printable) : Token.lex t.print = .ok t.tokens := by
  have := lexes_print h [] nofun
  simpa [Token.lex, Token.lexFrom, Except.map] using this

theorem spelled_element {bracket : Bracket} {key : Option String} {term : Term}
    {elements : List (Option String × Term)} {tail : List Token} (hk : ∀ k ∈ key, strip k = k)
    (h : term.Spelled term.tokens) (he : ElementsSpelled bracket false elements tail) :
    ElementsSpelled bracket true ((key, term) :: elements)
      (labelledTokens key term.tokens ++ tail) := by
  cases key with
  | none =>
    obtain ⟨first, more, hf⟩ : ∃ first more, term.tokens = first :: more := by
      cases term <;> exact ⟨_, _, rfl⟩
    rw [labelledTokens, hf, List.cons_append]
    exact .unkeyed (.inl rfl) (hf ▸ h) he
  | some k =>
    have hkey : ElementsSpelled bracket true ((some (strip k), term) :: elements)
        (.text k :: .punct '=' :: (term.tokens ++ tail)) := .keyed (.inl rfl) rfl h he
    rw [hk k rfl] at hkey
    exact hkey

theorem spelled_elements {bracket : Bracket} {elements : List (Option String × Term)}
    (hk : ∀ e ∈ elements, ∀ key ∈ e.1, strip key = key)
    (h : ∀ e ∈ elements, e.2.Spelled e.2.tokens) :
    ElementsSpelled bracket true elements ([Token.punct ','].intercalate (elementTokens elements))
    := by
  rw [elementTokens_eq_map]
  induction elements with
  | nil => exact .nil
  | cons e elements ih =>
    have ih := ih (fun f hf => hk f (by simp [hf])) fun f hf => h f (by simp [hf])
    cases elements with
    | nil =>
      have he : ElementsSpelled bracket true [e] (labelledTokens e.1 e.2.tokens ++ []) :=
        spelled_element (hk e (by simp)) (h e (by simp)) .nil
      simpa using he
    | cons f elements =>
      rw [List.map_cons, List.map_cons, List.intercalate_cons_cons, List.append_assoc]
      exact spelled_element (hk e (by simp)) (h e (by simp)) (.comma ih)

theorem spelled_tokens {t : Term} (h : t.Printable) : t.Spelled t.tokens := by
  induction t with
  | text s => exact .text s
  | word s => exact .word s
  | group bracket elements ih =>
    cases h with
    | group hk ht =>
      exact .group (spelled_elements (fun e he k hkey => (hk e he k hkey).2)
        fun e he => ih e he (ht e he))

/-- A term that does not nest too deep is read back from its text. -/
theorem ofText_print {t : Term} (h : t.Printable) (hd : t.depth ≤ checkBalance.maxNesting) :
    ofText t.print = .ok t := by
  simp [ofText, lex_print h, ofTokens_eq_ok_iff.mpr ⟨spelled_tokens h, hd⟩]

end Term

/-- An argument list has the value of its term. -/
theorem evaluateList_of_ofText {cs : List Char} {t : Term}
    (h : Term.ofText ('(' :: (cs ++ [')'])) = .ok t) (hfault : t.fault? = none) :
    evaluateList (String.ofList ('(' :: (cs ++ [')']))) = .ok (some t.value) := by
  have heval : evaluate (String.ofList ('(' :: (cs ++ [')']))) = .ok t.value := by
    simp only [evaluate, String.toList_ofList, h, hfault]
  rw [evaluateList, String.toList_ofList, trim_of_not_blank rfl rfl cs]
  simp only [heval]
  rfl

end DocAnnotations.Argument
