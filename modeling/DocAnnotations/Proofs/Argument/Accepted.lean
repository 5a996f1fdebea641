import DocAnnotations.Proofs.Argument.Normalize

/-! The argument texts that are accepted, by a grammar of tokens. -/
namespace DocAnnotations.Argument

mutual

/-- The tokens are a value: a text, a word, or a group, and groups nest no deeper than `depth`.
Before the tokens that `free` allows, the comma between two elements may be left out. -/
inductive IsValue (free : Bracket → Token → Prop) : Nat → List Token → Prop
  | label {depth : Nat} {token : Token} {label : String} :
      token.label? = some label → IsValue free depth [token]
  | group {depth : Nat} {bracket : Bracket} {tokens : List Token} :
      IsItems free bracket depth tokens →
      IsValue free (depth + 1) (.punct bracket.opener :: (tokens ++ [.punct bracket.closer]))

/-- The tokens are an element of a group: a value, which may have a key. -/
inductive IsElement (free : Bracket → Token → Prop) : Nat → List Token → Prop
  | unkeyed {depth : Nat} {tokens : List Token} :
      IsValue free depth tokens → IsElement free depth tokens
  | keyed {depth : Nat} {key : Token} {label : String} {tokens : List Token} :
      key.label? = some label → IsValue free depth tokens →
      IsElement free depth (key :: .punct '=' :: tokens)

/-- The tokens between the brackets of a group: elements with commas between them. More commas may
stand before, between and behind them. -/
inductive IsItems (free : Bracket → Token → Prop) : Bracket → Nat → List Token → Prop
  | nil {bracket : Bracket} {depth : Nat} : IsItems free bracket depth []
  | comma {bracket : Bracket} {depth : Nat} {tokens : List Token} :
      IsItems free bracket depth tokens → IsItems free bracket depth (.punct ',' :: tokens)
  | element {bracket : Bracket} {depth : Nat} {tokens rest : List Token} :
      IsElement free depth tokens →
      (∀ next ∈ rest.head?, next = .punct ',' ∨ free bracket next) →
      IsItems free bracket depth rest → IsItems free bracket depth (tokens ++ rest)

end

/-- A text or word that reads like the bracket that closes the group. -/
def SpellsCloser (bracket : Bracket) (token : Token) : Prop :=
  token.label? = some (String.singleton bracket.closer)

instance (bracket : Bracket) (token : Token) : Decidable (SpellsCloser bracket token) :=
  inferInstanceAs (Decidable (_ = _))

theorem content_of_label {token : Token} {label : String} (h : token.label? = some label) :
    token.content = label := by
  cases token with
  | punct c => cases h
  | text s | word s => exact Option.some.inj h

/-- What begins an element right behind another one spells the closing bracket. -/
theorem spellsCloser_of_mayBegin {bracket : Bracket} {first : Token}
    (h : MayBegin bracket false first) (hc : first ≠ .punct bracket.closer) :
    SpellsCloser bracket first := by
  have hcontent : first.content = String.singleton bracket.closer := by
    obtain h | h := h
    · cases h
    · exact h
  cases first with
  | punct c =>
    have hchar : c = bracket.closer := by
      have := congrArg String.toList hcontent
      simpa [Token.content] using this
    exact absurd (congrArg Token.punct hchar) hc
  | text s | word s => exact congrArg some hcontent

/-- An element begins where it is separated, or where the comma may be left out. -/
theorem mayBegin_of_head {bracket : Bracket} {separated : Bool} {first : Token}
    {tokens : List Token} (h : separated = true ∨ ∀ next ∈ (first :: tokens).head?,
      next = .punct ',' ∨ SpellsCloser bracket next) (hc : first ≠ .punct ',') :
    MayBegin bracket separated first := by
  refine h.imp_right fun hnext => ?_
  obtain hcomma | hcloser := hnext first rfl
  · exact absurd hcomma hc
  · exact content_of_label hcloser

mutual

/-- The tokens of a term are a value. -/
theorem isValue_of_spelled : ∀ {term : Term} {tokens : List Token}, term.Spelled tokens →
    ∀ depth, term.depth ≤ depth → IsValue SpellsCloser depth tokens
  | _, _, .text _ => fun _ _ => .label rfl
  | _, _, .word _ => fun _ _ => .label rfl
  | _, _, .group he => by
    rintro (_ | depth) hd
    · simp [Term.depth] at hd
    · exact .group (isItems_of_spelled he depth (Nat.le_of_succ_le_succ hd)).1

/-- The tokens of elements are items, where the first element needs a comma in front if the elements
are not separated from what stands before. -/
theorem isItems_of_spelled : ∀ {bracket : Bracket} {separated : Bool}
    {elements : List (Option String × Term)} {tokens : List Token},
    ElementsSpelled bracket separated elements tokens → ∀ depth,
      elementsDepth elements ≤ depth → IsItems SpellsCloser bracket depth tokens ∧
        (separated = false → ∀ next ∈ tokens.head?, next = .punct ',' ∨ SpellsCloser bracket next)
  | _, _, _, _, .nil => fun _ _ => ⟨.nil, fun _ _ h => by cases h⟩
  | _, _, _, _, .comma he => fun depth hd =>
    ⟨.comma (isItems_of_spelled he depth hd).1, fun _ _ h => .inl (Option.some.inj h).symm⟩
  | _, _, _, _, .unkeyed hm ht he => fun depth hd => by
    obtain ⟨hterm, helements⟩ := Nat.max_le.mp hd
    obtain ⟨hitems, hnext⟩ := isItems_of_spelled he depth helements
    have helement := IsElement.unkeyed (isValue_of_spelled ht depth hterm)
    refine ⟨.element helement (hnext rfl) hitems, ?_⟩
    rintro rfl _ ⟨⟩
    exact .inr (spellsCloser_of_mayBegin hm ((State.first_ne_punct ht).2.2 _))
  | _, _, _, _, .keyed hm hk ht he => fun depth hd => by
    obtain ⟨hterm, helements⟩ := Nat.max_le.mp hd
    obtain ⟨hitems, hnext⟩ := isItems_of_spelled he depth helements
    have helement := IsElement.keyed hk (isValue_of_spelled ht depth hterm)
    refine ⟨.element helement (hnext rfl) hitems, ?_⟩
    rintro rfl _ ⟨⟩
    exact .inr (spellsCloser_of_mayBegin hm (by rintro rfl; cases hk))

end

mutual

/-- A value is the tokens of a term. -/
theorem exists_spelled : ∀ {depth : Nat} {tokens : List Token},
    IsValue SpellsCloser depth tokens → ∃ term : Term, term.Spelled tokens ∧ term.depth ≤ depth
  | _, _, @IsValue.label _ _ (.text s) _ _ => ⟨.text s, .text s, Nat.zero_le _⟩
  | _, _, @IsValue.label _ _ (.word s) _ _ => ⟨.word s, .word s, Nat.zero_le _⟩
  | _, _, @IsValue.group _ _ bracket _ hi => by
    obtain ⟨elements, hd, he⟩ := exists_elementsSpelled hi
    exact ⟨.group bracket elements, .group (he true (.inl rfl)), Nat.succ_le_succ hd⟩

theorem exists_elementsSpelled : ∀ {bracket : Bracket} {depth : Nat} {tokens : List Token},
    IsItems SpellsCloser bracket depth tokens → ∃ elements, elementsDepth elements ≤ depth ∧
      ∀ separated, (separated = true ∨
        ∀ next ∈ tokens.head?, next = .punct ',' ∨ SpellsCloser bracket next) →
          ElementsSpelled bracket separated elements tokens
  | _, _, _, .nil => ⟨[], Nat.zero_le _, fun _ _ => .nil⟩
  | _, _, _, .comma hi => by
    obtain ⟨elements, hd, he⟩ := exists_elementsSpelled hi
    exact ⟨elements, hd, fun _ _ => .comma (he true (.inl rfl))⟩
  | bracket, _, _, .element (.unkeyed hv) hnext hi => by
    obtain ⟨term, ht, hterm⟩ := exists_spelled hv
    obtain ⟨elements, hd, he⟩ := exists_elementsSpelled hi
    refine ⟨(none, term) :: elements, Nat.max_le.mpr ⟨hterm, hd⟩, fun separated hs => ?_⟩
    obtain ⟨first, more, rfl⟩ := ht.exists_cons
    refine .unkeyed (mayBegin_of_head hs (State.first_ne_punct ht).1) ht (he false (.inr hnext))
  | bracket, _, _, .element (@IsElement.keyed _ _ key label _ hk hv) hnext hi => by
    obtain ⟨term, ht, hterm⟩ := exists_spelled hv
    obtain ⟨elements, hd, he⟩ := exists_elementsSpelled hi
    refine ⟨(some (Text.strip label), term) :: elements, Nat.max_le.mpr ⟨hterm, hd⟩,
      fun separated hs => ?_⟩
    exact .keyed (mayBegin_of_head hs (by rintro rfl; cases hk)) hk ht (he false (.inr hnext))

end

section Mono

variable {free more : Bracket → Token → Prop}

mutual

/-- Only the tokens that a value holds matter for where a comma may be left out. -/
theorem IsValue.mono : ∀ {depth : Nat} {tokens : List Token}, IsValue free depth tokens →
    (∀ token ∈ tokens, ∀ bracket, free bracket token → more bracket token) →
      IsValue more depth tokens
  | _, _, .label hl => fun _ => .label hl
  | _, _, .group hi => fun h => .group (hi.mono fun token ht => h token (by simp [ht]))

theorem IsElement.mono : ∀ {depth : Nat} {tokens : List Token}, IsElement free depth tokens →
    (∀ token ∈ tokens, ∀ bracket, free bracket token → more bracket token) →
      IsElement more depth tokens
  | _, _, .unkeyed hv => fun h => .unkeyed (hv.mono h)
  | _, _, .keyed hk hv => fun h => .keyed hk (hv.mono fun token ht => h token (by simp [ht]))

theorem IsItems.mono : ∀ {bracket : Bracket} {depth : Nat} {tokens : List Token},
    IsItems free bracket depth tokens →
    (∀ token ∈ tokens, ∀ bracket, free bracket token → more bracket token) →
      IsItems more bracket depth tokens
  | _, _, _, .nil => fun _ => .nil
  | _, _, _, .comma hi => fun h => .comma (hi.mono fun token ht => h token (by simp [ht]))
  | bracket, _, _, .element he hnext hi => fun h => by
    refine .element (he.mono fun token ht => h token (by simp [ht])) (fun next hm => ?_)
      (hi.mono fun token ht => h token (by simp [ht]))
    have hrest := List.mem_of_mem_head? hm
    exact (hnext next hm).imp_right (h next (by simp [hrest]) bracket)

end

end Mono

/-- The grammar in which every two elements have a comma between them. -/
def Separated (_ : Bracket) (_ : Token) : Prop :=
  False

theorem isValue_iff_exists_spelled {depth : Nat} {tokens : List Token} :
    IsValue SpellsCloser depth tokens ↔ ∃ term : Term, term.Spelled tokens ∧ term.depth ≤ depth :=
  ⟨exists_spelled, fun ⟨_, hs, hd⟩ => isValue_of_spelled hs _ hd⟩

theorem exists_normalize_iff {raw : String} : (∃ text, normalize raw = .ok text) ↔
    ∃ tokens, Token.lex raw.toList = .ok tokens ∧ ∃ term, Term.ofTokens tokens = .ok term := by
  unfold normalize Term.ofText
  cases Token.lex raw.toList with
  | error fault => simp
  | ok tokens => cases h : Term.ofTokens tokens <;> simp [h]

/-- The argument texts with a JSON text are those whose tokens are a value, where a comma may be
missing in front of what spells the closing bracket. Without such a token, no comma is missing. -/
theorem exists_normalize_iff_isValue (raw : String) :
    ((∃ text, normalize raw = .ok text) ↔ ∃ tokens, Token.lex raw.toList = .ok tokens ∧
      IsValue SpellsCloser checkBalance.maxNesting tokens) ∧
    ∀ tokens, Token.lex raw.toList = .ok tokens →
      (∀ token ∈ tokens, ∀ bracket, ¬ SpellsCloser bracket token) →
        ((∃ text, normalize raw = .ok text) ↔
          IsValue Separated checkBalance.maxNesting tokens) := by
  have haccepted : (∃ text, normalize raw = .ok text) ↔
      ∃ tokens, Token.lex raw.toList = .ok tokens ∧
        IsValue SpellsCloser checkBalance.maxNesting tokens := by
    simp only [exists_normalize_iff, ofTokens_eq_ok_iff, isValue_iff_exists_spelled]
  refine ⟨haccepted, fun tokens hlex hplain => haccepted.trans ⟨?_, ?_⟩⟩
  · intro h
    obtain ⟨others, hothers, hvalue⟩ := h
    obtain rfl : others = tokens := Except.ok.inj (hothers.symm.trans hlex)
    exact hvalue.mono fun token ht bracket hs => (hplain token ht bracket hs).elim
  · intro h
    exact ⟨tokens, hlex, h.mono fun _ _ _ hs => hs.elim⟩

/-- Keys, groups in groups, and commas in front, between and behind. -/
theorem exists_normalize_iff_isValue_nested :
    let raw := "(, a = \x7b1,, \"x\"\"y\"\x7d, ('('),)"
    let tokens : List Token := [.punct '(', .punct ',', .word "a", .punct '=', .punct '\x7b',
      .word "1", .punct ',', .punct ',', .text "x\"y", .punct '\x7d', .punct ',', .punct '(',
      .text "(", .punct ')', .punct ',', .punct ')']
    Token.lex raw.toList = .ok tokens ∧
      (∀ token ∈ tokens, ∀ bracket, ¬ SpellsCloser bracket token) ∧
        IsValue Separated checkBalance.maxNesting tokens := by
  intro raw tokens
  have hlex : Token.lex raw.toList = .ok tokens := by decide +kernel
  have hplain : ∀ token ∈ tokens, ∀ bracket, ¬ SpellsCloser bracket token := by
    intro token ht bracket
    revert token
    cases bracket <;> decide
  have hok : ∃ text, normalize raw = .ok text :=
    ⟨"\x7b\"value\": [\"(\"], \"a\": [1, \"x\\\"y\"]\x7d", by decide +kernel⟩
  exact ⟨hlex, hplain, ((exists_normalize_iff_isValue raw).2 tokens hlex hplain).mp hok⟩

theorem not_isItems_of_labels {bracket : Bracket} {depth : Nat} {first second : Token}
    {rest : List Token} (hfirst : first.label?.isSome) (hsecond : second.label?.isSome) :
    ¬ IsItems Separated bracket depth (first :: second :: rest) := by
  intro h
  generalize heq : first :: second :: rest = tokens at h
  cases h with
  | nil => cases heq
  | comma => cases heq; cases hfirst
  | element helement hnext =>
    cases helement with
    | keyed => cases heq; cases hsecond
    | unkeyed hvalue =>
      cases hvalue with
      | group => cases (List.cons.inj heq).1; cases hfirst
      | label =>
        cases heq
        rcases hnext second rfl with rfl | hnone
        · cases hsecond
        · exact hnone

/-- A quoted text that spells the closing bracket stands behind another element without a comma. -/
theorem normalize_missing_comma :
    normalize "(\"a\" \")\")" = .ok "[\"a\", \")\"]" ∧
      ¬ ∃ tokens, Token.lex "(\"a\" \")\")".toList = .ok tokens ∧
        IsValue Separated checkBalance.maxNesting tokens := by
  have hlex : Token.lex "(\"a\" \")\")".toList =
      .ok [.punct '(', .text "a", .text ")", .punct ')'] := by decide
  refine ⟨by decide +kernel, ?_⟩
  intro h
  obtain ⟨tokens, ht, hvalue⟩ := h
  obtain rfl := Except.ok.inj (hlex.symm.trans ht)
  generalize heq : [Token.punct '(', .text "a", .text ")", .punct ')'] = tokens at hvalue
  cases hvalue with
  | label hl => cases heq
  | @group _ bracket inner hitems =>
    have hinner : inner ++ [.punct bracket.closer] = [.text "a", .text ")"] ++ [.punct ')'] :=
      (List.cons.inj heq).2.symm
    obtain ⟨rfl, -⟩ := List.append_inj' hinner rfl
    exact not_isItems_of_labels rfl rfl hitems

end DocAnnotations.Argument
