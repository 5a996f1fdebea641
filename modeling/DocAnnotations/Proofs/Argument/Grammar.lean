import DocAnnotations.Argument.Term
import Mathlib.Tactic.Common

/-! The token lists that have a structure, as a grammar, and the reader that finds it. -/
namespace DocAnnotations.Argument

/-- The character that opens a group. -/
def Bracket.opener : Bracket → Char
  | round => '('
  | curly => '{'

/-- The text of a token that may be a key. -/
def Token.label? : Token → Option String
  | .punct _ => none
  | .text s | .word s => some s

/-- Whether an element may begin with this token. Behind another element it needs a comma in
front, unless it spells the closing bracket. -/
def MayBegin (bracket : Bracket) (separated : Bool) (first : Token) : Prop :=
  separated = true ∨ first.content = String.singleton bracket.closer

mutual

/-- The tokens that spell a term. -/
inductive Term.Spelled : Term → List Token → Prop
  | text (s : String) : Term.Spelled (.text s) [.text s]
  | word (s : String) : Term.Spelled (.word s) [.word s]
  | group {bracket : Bracket} {elements : List (Option String × Term)} {tokens : List Token} :
      ElementsSpelled bracket true elements tokens →
      Term.Spelled (.group bracket elements)
        (.punct bracket.opener :: (tokens ++ [.punct bracket.closer]))

/-- The tokens that spell the elements of a group, where `separated` says whether the first one
needs no comma. -/
inductive ElementsSpelled : Bracket → Bool → List (Option String × Term) → List Token → Prop
  | nil {bracket : Bracket} {separated : Bool} : ElementsSpelled bracket separated [] []
  | comma {bracket : Bracket} {separated : Bool} {elements : List (Option String × Term)}
      {tokens : List Token} : ElementsSpelled bracket true elements tokens →
      ElementsSpelled bracket separated elements (.punct ',' :: tokens)
  | unkeyed {bracket : Bracket} {separated : Bool} {term : Term} {first : Token}
      {elements : List (Option String × Term)} {tokens rest : List Token} :
      MayBegin bracket separated first → term.Spelled (first :: tokens) →
      ElementsSpelled bracket false elements rest →
      ElementsSpelled bracket separated ((none, term) :: elements) (first :: (tokens ++ rest))
  | keyed {bracket : Bracket} {separated : Bool} {term : Term} {key : Token} {label : String}
      {elements : List (Option String × Term)} {tokens rest : List Token} :
      MayBegin bracket separated key → key.label? = some label → term.Spelled tokens →
      ElementsSpelled bracket false elements rest →
      ElementsSpelled bracket separated ((some (Text.strip label), term) :: elements)
        (key :: .punct '=' :: (tokens ++ rest))

end

theorem Term.Spelled.exists_cons {term : Term} {tokens : List Token} (h : term.Spelled tokens) :
    ∃ first more, tokens = first :: more := by
  cases h with
  | text | word | group => exact ⟨_, _, rfl⟩

/-- The stage in which elements are read. -/
def Stage.ofSeparated (separated : Bool) : Stage :=
  if separated then .element else .separator

theorem ofOpener?_opener (bracket : Bracket) : Bracket.ofOpener? bracket.opener = some bracket := by
  cases bracket <;> rfl

theorem ElementsSpelled.head_ne_equals {bracket : Bracket}
    {elements : List (Option String × Term)} {tokens : List Token} (rest : List Token)
    (h : ElementsSpelled bracket false elements tokens) :
    (tokens ++ .punct bracket.closer :: rest).head? ≠ some (.punct '=') := by
  cases h with
  | nil => cases bracket <;> simp [Bracket.closer]
  | comma => simp
  | unkeyed hm ht =>
    obtain hm | hm := hm
    · simp at hm
    · rintro h
      simp only [List.cons_append, List.head?_cons, Option.some.injEq] at h
      subst h
      cases bracket <;> simp [Token.content, Bracket.closer] at hm
  | keyed hm hk =>
    simp only [List.cons_append, List.head?_cons, ne_eq, Option.some.injEq]
    rintro rfl
    simp [Token.label?] at hk

/-- The group with more elements behind those it has. -/
def OpenGroup.addAll (group : OpenGroup) (elements : List (Option String × Term)) : OpenGroup :=
  { group with elements := elements.reverse ++ group.elements }

namespace State

/-- Reading goes on with `next`, one token further. -/
theorem read_step {state next : State} {token : Token} {rest : List Token} {position : Nat}
    (hs : ∀ t, state ≠ finished t) (h : state.step token rest.head? = .ok next) :
    read position state (token :: rest) = read (position + 1) next rest := by
  cases state with
  | finished t => exact absurd rfl (hs t)
  | start => simp [read, h]
  | inside stage group outer => simp [read, h]

variable {group : OpenGroup} {outer : List OpenGroup} {first : Token} {rest : List Token}
  {next : State} {separated : Bool}

theorem step_comma (group : OpenGroup) (outer : List OpenGroup) (separated : Bool)
    (after : Option Token) :
    (inside (.ofSeparated separated) group outer).step (.punct ',') after =
      .ok (inside .element group outer) := by
  have hne : Token.punct ',' ≠ .punct group.bracket.closer := by
    cases group.bracket <;> decide
  cases separated <;> simp [Stage.ofSeparated, step, beginElement, hne]

theorem step_closer (group : OpenGroup) (outer : List OpenGroup) (separated : Bool)
    (after : Option Token) :
    (inside (.ofSeparated separated) group outer).step (.punct group.bracket.closer) after =
      .ok (deliver group.close outer) := by
  have hne : Token.punct group.bracket.closer ≠ .punct ',' := by
    cases group.bracket <;> decide
  cases separated <;> simp [Stage.ofSeparated, step, beginElement, hne, Token.content]

/-- An element begins where it may. -/
theorem step_begin (hm : MayBegin group.bracket separated first)
    (hc : first ≠ .punct ',') (after : Option Token) :
    (inside (.ofSeparated separated) group outer).step first after =
      beginElement group outer first after := by
  obtain rfl | hm := hm
  · rfl
  · cases separated
    · simp [Stage.ofSeparated, step, hc, hm]
    · rfl

theorem beginElement_unkeyed {after : Option Token} (hc : first ≠ .punct ',')
    (hb : first ≠ .punct group.bracket.closer)
    (ha : first.label? = none ∨ after ≠ some (.punct '=')) :
    beginElement group outer first after = beginValue (group :: outer) first := by
  cases first <;> simp_all [beginElement, Token.label?]

theorem beginElement_key {label : String} (h : first.label? = some label) :
    beginElement group outer first (some (.punct '=')) =
      .ok (inside .equals { group with key := some (Text.strip label) } outer) := by
  cases first <;> simp_all [beginElement, Token.label?]

/-- A term begins with a token that its reader accepts. -/
theorem beginValue_ok {term : Term} {tokens : List Token} (h : term.Spelled (first :: tokens))
    (openGroups : List OpenGroup) : ∃ next, beginValue openGroups first = .ok next := by
  cases h with
  | text s => exact ⟨_, rfl⟩
  | word s => exact ⟨_, rfl⟩
  | @group bracket =>
    exact ⟨inside .element (.empty bracket) openGroups, by simp [beginValue, ofOpener?_opener]⟩

theorem label?_eq_none_or {term : Term} {tokens : List Token}
    (h : term.Spelled (first :: tokens)) : first.label? = none ∨ tokens = [] := by
  cases h with
  | text s => exact Or.inr rfl
  | word s => exact Or.inr rfl
  | group => exact Or.inl rfl

theorem first_ne_punct {term : Term} {tokens : List Token} (h : term.Spelled (first :: tokens)) :
    first ≠ .punct ',' ∧ first ≠ .punct '=' ∧ ∀ bracket : Bracket, first ≠ .punct bracket.closer := by
  cases h with
  | text s => simp
  | word s => simp
  | @group bracket =>
    refine ⟨?_, ?_, fun other => ?_⟩
    · cases bracket <;> decide
    · cases bracket <;> decide
    · cases bracket <;> cases other <;> decide

theorem close_addAll_cons (group added : OpenGroup) (e : Option String × Term)
    {elements : List (Option String × Term)} (hb : added.bracket = group.bracket)
    (he : added.elements = e :: group.elements) :
    (added.addAll elements).close = (group.addAll (e :: elements)).close := by
  simp [OpenGroup.close, OpenGroup.addAll, hb, he]

mutual

/-- A term is read up to its last token, and then delivered. -/
theorem read_spelled : ∀ {term : Term} {tokens : List Token}, term.Spelled tokens →
    ∀ first more, tokens = first :: more → ∀ openGroups next,
      beginValue openGroups first = .ok next → ∀ position stop,
        stop = position + more.length → ∀ rest,
          read position next (more ++ rest) = read stop (deliver term openGroups) rest
  | _, _, .text s => by
    rintro _ _ ⟨rfl, rfl⟩ openGroups next hn position _ rfl rest
    cases hn
    rfl
  | _, _, .word s => by
    rintro _ _ ⟨rfl, rfl⟩ openGroups next hn position _ rfl rest
    cases hn
    rfl
  | _, _, @Term.Spelled.group bracket elements tokens h => by
    rintro _ _ ⟨rfl, rfl⟩ openGroups next hn position stop hstop rest
    obtain rfl : inside .element (.empty bracket) openGroups = next := by
      simpa [beginValue, ofOpener?_opener] using hn
    have he := read_elements h (.empty bracket) rfl rfl openGroups position stop
      (by simpa [Nat.add_assoc] using hstop) rest
    simpa [Stage.ofSeparated, OpenGroup.addAll, OpenGroup.empty, OpenGroup.close] using he

/-- The elements of a group are read up to the closing bracket, and then the group is delivered. -/
theorem read_elements : ∀ {bracket : Bracket} {separated : Bool}
    {elements : List (Option String × Term)} {tokens : List Token},
    ElementsSpelled bracket separated elements tokens → ∀ group : OpenGroup,
      group.bracket = bracket → group.key = none → ∀ outer position stop,
        stop = position + tokens.length + 1 → ∀ rest,
          read position (inside (.ofSeparated separated) group outer)
              (tokens ++ .punct bracket.closer :: rest) =
            read stop (deliver (group.addAll elements).close outer) rest
  | _, _, _, _, .nil => by
    rintro group rfl - outer position _ rfl rest
    rw [List.nil_append, read_step (by simp) (step_closer group outer _ _)]
    rfl
  | _, _, _, _, .comma h => by
    rintro group rfl hk outer position stop hstop rest
    rw [List.length_cons] at hstop
    rw [List.cons_append, read_step (by simp) (step_comma group outer _ _)]
    exact read_elements h group rfl hk outer (position + 1) stop (by omega) rest
  | _, _, _, _, @ElementsSpelled.unkeyed _ separated term first _ tokens more hm ht hs => by
    rintro group rfl hk outer position stop hstop rest
    rw [List.length_cons, List.length_append] at hstop
    obtain ⟨hc, -, hb⟩ := first_ne_punct ht
    obtain ⟨next, hn⟩ := beginValue_ok ht (group :: outer)
    have ha : first.label? = none ∨
        (tokens ++ (more ++ .punct group.bracket.closer :: rest)).head? ≠ some (.punct '=') := by
      obtain h | rfl := label?_eq_none_or ht
      · exact Or.inl h
      · exact Or.inr (hs.head_ne_equals rest)
    have hstep : (inside (.ofSeparated separated) group outer).step first
        (tokens ++ (more ++ .punct group.bracket.closer :: rest)).head? = .ok next := by
      rw [step_begin hm hc, beginElement_unkeyed hc (hb _) ha, hn]
    rw [List.cons_append, List.append_assoc, read_step (by simp) hstep,
      read_spelled ht first tokens rfl (group :: outer) next hn _ _ rfl]
    refine (read_elements hs (group.add term) rfl rfl outer _ stop (by omega) rest).trans ?_
    rw [close_addAll_cons group (group.add term) (none, term) rfl
      (by simp [OpenGroup.add, hk])]
  | _, _, _, _, @ElementsSpelled.keyed _ separated term key label _ tokens more hm hl ht hs => by
    rintro group rfl hk outer position stop hstop rest
    rw [List.length_cons, List.length_cons, List.length_append] at hstop
    obtain ⟨first, following, rfl⟩ := ht.exists_cons
    have hc : key ≠ .punct ',' := by rintro rfl; simp [Token.label?] at hl
    let named : OpenGroup := { group with key := some (Text.strip label) }
    obtain ⟨next, hn⟩ := beginValue_ok ht (named :: outer)
    have hkey : (inside (.ofSeparated separated) group outer).step key (some (.punct '=')) =
        .ok (inside .equals named outer) := by
      rw [step_begin hm hc, beginElement_key hl]
    have hequals : (inside .equals named outer).step (.punct '=')
        (first :: (following ++ (more ++ .punct group.bracket.closer :: rest))).head? =
          .ok (inside .value named outer) := rfl
    have hvalue : (inside .value named outer).step first
        (following ++ (more ++ .punct group.bracket.closer :: rest)).head? = .ok next := hn
    rw [List.cons_append, List.cons_append, List.append_assoc, List.cons_append,
      read_step (by simp) hkey, read_step (by simp) hequals, read_step (by simp) hvalue,
      read_spelled ht first following rfl (named :: outer) next hn _ _ rfl]
    rw [List.length_cons] at hstop
    refine (read_elements hs (named.add term) rfl rfl outer _ stop (by omega) rest).trans ?_
    rw [close_addAll_cons group (named.add term) (some (Text.strip label), term) rfl rfl]

end

/-- A spelled term is read from its tokens. -/
theorem read_start {term : Term} {tokens : List Token} (h : term.Spelled tokens)
    (position : Nat) : read position start tokens = .ok term := by
  obtain ⟨first, more, rfl⟩ := h.exists_cons
  obtain ⟨next, hn⟩ := beginValue_ok h []
  have hread := read_spelled h first more rfl [] next hn (position + 1) _ rfl []
  rw [read_step (by simp) (show start.step first more.head? = .ok next from hn)]
  rw [List.append_nil] at hread
  rw [hread]
  rfl

/-- The tokens make the open groups whole around a term that has just been delivered. -/
def Finishes : Term → List OpenGroup → List Token → Term → Prop
  | term, [], tokens, whole => tokens = [] ∧ whole = term
  | term, group :: outer, tokens, whole => ∃ elements inner behind,
    tokens = inner ++ .punct group.bracket.closer :: behind ∧
      ElementsSpelled group.bracket false elements inner ∧
        Finishes ((group.add term).addAll elements).close outer behind whole

/-- The tokens begin with the elements that are left of the innermost open group. -/
def Continues (separated : Bool) (group : OpenGroup) (outer : List OpenGroup)
    (tokens : List Token) (whole : Term) : Prop :=
  ∃ elements inner behind, tokens = inner ++ .punct group.bracket.closer :: behind ∧
    ElementsSpelled group.bracket separated elements inner ∧
      Finishes (group.addAll elements).close outer behind whole

/-- The tokens begin with a term for the innermost open group. -/
def Provides (openGroups : List OpenGroup) (tokens : List Token) (whole : Term) : Prop :=
  ∃ term own behind, tokens = own ++ behind ∧ term.Spelled own ∧
    Finishes term openGroups behind whole

/-- The tokens that make up the rest of the whole term, from each place where its reader may
stand. -/
def Completes : State → List Token → Term → Prop
  | start, tokens, whole => whole.Spelled tokens
  | finished term, tokens, whole => tokens = [] ∧ whole = term
  | inside .element group outer, tokens, whole => Continues true group outer tokens whole
  | inside .separator group outer, tokens, whole => Continues false group outer tokens whole
  | inside .value group outer, tokens, whole => Provides (group :: outer) tokens whole
  | inside .equals group outer, tokens, whole =>
    ∃ equals behind, tokens = equals :: behind ∧ Provides (group :: outer) behind whole

/-- No key waits where an element may begin. -/
def KeyFree : State → Prop
  | inside .element group _ | inside .separator group _ => group.key = none
  | _ => True

variable {whole : Term} {tokens : List Token}

theorem completes_deliver {term : Term} {openGroups : List OpenGroup} :
    Completes (deliver term openGroups) tokens whole ↔ Finishes term openGroups tokens whole := by
  cases openGroups <;> rfl

theorem keyFree_deliver (term : Term) (openGroups : List OpenGroup) :
    KeyFree (deliver term openGroups) := by
  cases openGroups <;> trivial

theorem opener_of_ofOpener? {c : Char} {bracket : Bracket}
    (h : Bracket.ofOpener? c = some bracket) :
    c = bracket.opener := by
  unfold Bracket.ofOpener? at h
  split_ifs at h <;> cases h <;> assumption

theorem provides_of_beginValue {openGroups : List OpenGroup}
    (hn : beginValue openGroups first = .ok next) (h : Completes next rest whole) :
    Provides openGroups (first :: rest) whole := by
  cases first with
  | text s =>
    cases hn
    exact ⟨_, [.text s], rest, rfl, .text s, completes_deliver.mp h⟩
  | word s =>
    cases hn
    exact ⟨_, [.word s], rest, rfl, .word s, completes_deliver.mp h⟩
  | punct c =>
    unfold beginValue at hn
    cases hc : Bracket.ofOpener? c with
    | none => simp [hc] at hn
    | some bracket =>
      obtain rfl : inside .element (.empty bracket) openGroups = next := by simpa [hc] using hn
      obtain ⟨elements, inner, behind, rfl, he, hf⟩ := h
      obtain rfl := opener_of_ofOpener? hc
      refine ⟨.group bracket elements, _, behind, ?_, .group he, ?_⟩
      · simp [OpenGroup.empty]
      · simpa [OpenGroup.empty, OpenGroup.addAll, OpenGroup.close] using hf

theorem keyFree_of_beginValue {openGroups : List OpenGroup}
    (hn : beginValue openGroups first = .ok next) : KeyFree next := by
  cases first with
  | text s => cases hn; exact keyFree_deliver _ _
  | word s => cases hn; exact keyFree_deliver _ _
  | punct c =>
    simp only [beginValue] at hn
    split at hn
    · cases hn; rfl
    · cases hn

/-- A term in front of an element without a key. -/
theorem continues_of_provides (hk : group.key = none) (hm : MayBegin group.bracket separated first)
    (h : Provides (group :: outer) (first :: rest) whole) :
    Continues separated group outer (first :: rest) whole := by
  obtain ⟨term, own, behind, ho, ht, elements, inner, behind, rfl, he, hf⟩ := h
  obtain ⟨_, more, rfl⟩ := ht.exists_cons
  obtain ⟨rfl, rfl⟩ := List.cons.inj ho
  refine ⟨(none, term) :: elements, _, behind, ?_, .unkeyed hm ht he, ?_⟩
  · simp
  · rwa [close_addAll_cons group (group.add term) (none, term) rfl
      (by simp [OpenGroup.add, hk])] at hf

theorem continues_of_beginElement (hk : group.key = none)
    (hm : MayBegin group.bracket separated first ∨ first = .punct ',')
    (hn : beginElement group outer first rest.head? = .ok next) (h : Completes next rest whole) :
    Continues separated group outer (first :: rest) whole := by
  unfold beginElement at hn
  split at hn
  next hclose =>
    cases hn
    exact ⟨[], [], rest, by simp [hclose], .nil, completes_deliver.mp h⟩
  next =>
    split at hn
    next hcomma =>
      cases hn
      obtain ⟨elements, inner, behind, rfl, he, hf⟩ := h
      exact ⟨elements, _ :: inner, behind, by simp [hcomma], .comma he, hf⟩
    next hcomma =>
      have hm := hm.resolve_right hcomma
      -- A bracket, or a text or word that is no key, is the first token of a term.
      have hunkeyed : beginValue (group :: outer) first = .ok next →
          Continues separated group outer (first :: rest) whole := fun hv =>
        continues_of_provides hk hm (provides_of_beginValue hv h)
      have hkeyed : ∀ s, first.label? = some s → rest.head? = some (.punct '=') →
          next = inside .equals { group with key := some (Text.strip s) } outer →
          Continues separated group outer (first :: rest) whole := by
        rintro s hs hr rfl
        obtain ⟨_, behind, rfl, term, own, behind, rfl, ht, elements, inner, behind, rfl, he, hf⟩ :=
          h
        obtain rfl := Option.some.inj hr
        refine ⟨(some (Text.strip s), term) :: elements, _, behind, ?_, .keyed hm hs ht he, ?_⟩
        · simp
        · rwa [close_addAll_cons group _ (some (Text.strip s), term)] at hf <;> rfl
      cases first with
      | punct c => exact hunkeyed hn
      | text s | word s =>
        simp only at hn
        split at hn
        next hr => cases hn; exact hkeyed s rfl hr rfl
        next => exact hunkeyed hn

theorem keyFree_of_beginElement {after : Option Token} (hk : group.key = none)
    (hn : beginElement group outer first after = .ok next) : KeyFree next := by
  unfold beginElement at hn
  split at hn
  · cases hn; exact keyFree_deliver _ _
  · split at hn
    · cases hn; exact hk
    · cases first with
      | punct c => exact keyFree_of_beginValue hn
      | text s | word s =>
        simp only at hn
        split at hn
        · cases hn; trivial
        · exact keyFree_of_beginValue hn

theorem keyFree_step {state : State} {after : Option Token} (hk : KeyFree state)
    (hn : state.step first after = .ok next) : KeyFree next := by
  cases state with
  | start => exact keyFree_of_beginValue hn
  | finished term => cases hn; trivial
  | inside stage group outer =>
    cases stage with
    | element => exact keyFree_of_beginElement hk hn
    | equals => cases hn; trivial
    | value => exact keyFree_of_beginValue hn
    | separator =>
      simp only [step] at hn
      split at hn
      · cases hn; exact hk
      · split at hn
        · exact keyFree_of_beginElement hk hn
        · cases hn

/-- What completes the state after a step completes, behind the token, the state before it. -/
theorem completes_step {state : State} (hk : KeyFree state) (hs : ∀ t, state ≠ finished t)
    (hn : state.step first rest.head? = .ok next) (h : Completes next rest whole) :
    Completes state (first :: rest) whole := by
  cases state with
  | start =>
    obtain ⟨term, own, behind, ho, ht, rfl, rfl⟩ := provides_of_beginValue hn h
    rw [ho, List.append_nil]
    exact ht
  | finished term => exact absurd rfl (hs term)
  | inside stage group outer =>
    cases stage with
    | element => exact continues_of_beginElement hk (Or.inl (Or.inl rfl)) hn h
    | equals => cases hn; exact ⟨first, rest, rfl, h⟩
    | value => exact provides_of_beginValue hn h
    | separator =>
      simp only [step] at hn
      split at hn
      next hc =>
        cases hn
        obtain ⟨elements, inner, behind, rfl, he, hf⟩ := h
        exact ⟨elements, _ :: inner, behind, by simp [hc], .comma he, hf⟩
      next =>
        split at hn
        next hc => exact continues_of_beginElement hk (Or.inl (Or.inr hc)) hn h
        next => cases hn

theorem completes_of_read {state : State} {position : Nat} (hk : KeyFree state)
    (h : read position state tokens = .ok whole) : Completes state tokens whole := by
  induction tokens generalizing position state with
  | nil =>
    cases state with
    | start => simp [read, atEnd] at h
    | finished term =>
      simp only [read, atEnd, Except.ok.injEq] at h
      exact ⟨rfl, h.symm⟩
    | inside stage group outer => cases stage <;> simp [read, atEnd] at h
  | cons first rest ih =>
    by_cases hs : ∃ t, state = finished t
    · obtain ⟨t, rfl⟩ := hs
      simp [read] at h
    · have hs : ∀ t, state ≠ finished t := fun t ht => hs ⟨t, ht⟩
      cases hn : state.step first rest.head? with
      | error what => cases state <;> simp_all [read]
      | ok next =>
        rw [read_step hs hn] at h
        exact completes_step hk hs hn (ih (keyFree_step hk hn) h)

/-- Exactly the tokens that spell a term are read as this term. -/
theorem read_start_eq_ok_iff {position : Nat} :
    read position start tokens = .ok whole ↔ whole.Spelled tokens :=
  ⟨completes_of_read trivial, fun h => read_start h position⟩

end State

end DocAnnotations.Argument
