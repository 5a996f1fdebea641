import DocAnnotations.Proofs.Argument.Print

/-! Texts that are read as a term, however they came about. -/
namespace DocAnnotations.Argument

open Text

theorem Token.lexFrom_enclosed {q : Char} (cs sofar rest : List Char) (hcs : q ∉ cs)
    (hr : Follows rest) :
    lexFrom (.quoted q sofar) (cs ++ q :: rest) =
      (lexFrom .between rest).map (ofQuoted (sofar.reverse ++ cs) :: ·) := by
  induction cs generalizing sofar with
  | nil =>
    rw [List.append_nil]
    exact lexFrom_closing (fun _ => head?_ne_of_follows hr) sofar
  | cons c cs ih =>
    obtain ⟨hc, hcs⟩ := not_or.mp (mt List.mem_cons.mpr hcs)
    rw [List.cons_append, lexFrom_inside (Ne.symm hc), ih _ hcs]
    simp

/-- A text between two quotes of either kind, without this quote in it. -/
theorem lexes_enclosed {q : Char} {s : String} (hq : Token.isQuote q = true)
    (hs : q ∉ s.toList) (hclean : Clean s) : Lexes (q :: s.toList ++ [q]) [.text s] := by
  intro rest hr
  have hpart : isBlank q = false ∧ Token.isPunct q = false := by
    simp only [Token.isQuote, Bool.or_eq_true, decide_eq_true_eq] at hq
    obtain rfl | rfl := hq <;> decide
  rw [← hclean.ofQuoted, List.cons_append, List.cons_append, Token.lexFrom, hpart.1, hpart.2, hq,
    if_neg Bool.false_ne_true, if_neg Bool.false_ne_true, if_pos rfl, List.append_assoc]
  exact Token.lexFrom_enclosed s.toList [] rest hs hr

/-- A text is read as this term where punctuation follows. -/
def Spells (cs : List Char) (term : Term) : Prop :=
  ∃ tokens, Lexes cs tokens ∧ term.Spelled tokens

/-- A text is read as this element of a group. -/
def SpellsElement (cs : List Char) (e : Option String × Term) : Prop :=
  ∃ tokens, Lexes cs tokens ∧ ∀ {bracket elements tail},
    ElementsSpelled bracket false elements tail →
      ElementsSpelled bracket true (e :: elements) (tokens ++ tail)

variable {cs key : List Char} {term : Term} {s : String}

theorem Spells.text (h : Lexes cs [.text s]) : Spells cs (.text s) := ⟨_, h, .text s⟩

theorem Spells.word (h : Lexes cs [.word s]) : Spells cs (.word s) := ⟨_, h, .word s⟩

theorem SpellsElement.unkeyed (h : Spells cs term) : SpellsElement cs (none, term) := by
  obtain ⟨tokens, hlexes, hspelled⟩ := h
  refine ⟨tokens, hlexes, fun htail => ?_⟩
  obtain ⟨first, more, rfl⟩ := hspelled.exists_cons
  exact .unkeyed (.inl rfl) hspelled htail

theorem SpellsElement.keyed {token : Token} (hkey : Lexes key [token])
    (hlabel : token.label? = some s) (h : Spells cs term) :
    SpellsElement (key ++ '=' :: cs) (some (strip s), term) := by
  obtain ⟨tokens, hlexes, hspelled⟩ := h
  exact ⟨[token] ++ .punct '=' :: tokens, hkey.behind_key hlexes,
    fun htail => .keyed (.inl rfl) hlabel hspelled htail⟩

theorem spells_elements {α : Type} {text : α → List Char} {element : α → Option String × Term}
    {items : List α} (h : ∀ a ∈ items, SpellsElement (text a) (element a)) (bracket : Bracket) :
    ∃ tokens, Lexes ((", ".toList).intercalate (items.map text)) tokens ∧
      ElementsSpelled bracket true (items.map element) tokens := by
  induction items with
  | nil => exact ⟨[], lexes_nil, .nil⟩
  | cons a items ih =>
    obtain ⟨first, hfirst, hspelled⟩ := h a (by simp)
    obtain ⟨rest, hrest, helements⟩ := ih fun b hb => h b (by simp [hb])
    cases items with
    | nil => exact ⟨first ++ [], by simpa using hfirst, hspelled .nil⟩
    | cons b items =>
      refine ⟨first ++ ([.punct ','] ++ rest), ?_, hspelled (.comma helements)⟩
      rw [List.map_cons, List.map_cons, List.intercalate_cons_cons, List.append_assoc]
      refine hfirst.append (lexes_comma hrest) fun rest _ c hc => ?_
      cases hc
      rfl

/-- Texts of elements in brackets, with commas between them, are read as a group. -/
theorem spells_group {α : Type} {text : α → List Char} {element : α → Option String × Term}
    {items : List α} (h : ∀ a ∈ items, SpellsElement (text a) (element a)) (bracket : Bracket) :
    Spells (bracket.opener :: (", ".toList).intercalate (items.map text) ++ [bracket.closer])
      (.group bracket (items.map element)) := by
  obtain ⟨tokens, hlexes, helements⟩ := spells_elements h bracket
  exact ⟨_, fun rest _ => hlexes.lexFrom_brackets bracket rest, .group helements⟩

/-- Exactly the texts that spell a term of no more than the allowed depth are read as it. -/
theorem ofText_eq_ok_iff :
    Term.ofText cs = .ok term ↔ Spells cs term ∧ term.depth ≤ checkBalance.maxNesting := by
  unfold Term.ofText
  constructor
  · intro h
    split at h
    next tokens hlex =>
      obtain ⟨hspelled, hd⟩ := ofTokens_eq_ok_iff.mp h
      exact ⟨⟨tokens, lexes_iff_lex.mpr hlex, hspelled⟩, hd⟩
    next => cases h
  · rintro ⟨⟨tokens, hlexes, hspelled⟩, hd⟩
    rw [lexes_iff_lex.mp hlexes]
    exact ofTokens_eq_ok_iff.mpr ⟨hspelled, hd⟩

theorem Spells.ofText (h : Spells cs term) (hd : term.depth ≤ checkBalance.maxNesting) :
    Term.ofText cs = .ok term :=
  ofText_eq_ok_iff.mpr ⟨h, hd⟩

end DocAnnotations.Argument
