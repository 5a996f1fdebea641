import DocAnnotations.Proofs.Argument.Normalize

/-! Tokens whose first parenthesis is closed by the last one, and what may still be wrong with
them. -/
namespace DocAnnotations.Argument

/-- The tokens close as many open parentheses as `level` says, and only the last token closes the
outermost one. -/
inductive ClosedByLast : Nat → List Token → Prop
  | last : ClosedByLast 1 [.punct ')']
  | closing {level : Nat} {tokens : List Token} : ClosedByLast (level + 1) tokens →
      ClosedByLast (level + 2) (.punct ')' :: tokens)
  | opening {level : Nat} {tokens : List Token} : ClosedByLast (level + 2) tokens →
      ClosedByLast (level + 1) (.punct '(' :: tokens)
  | other {level : Nat} {token : Token} {tokens : List Token} : token ≠ .punct '(' →
      token ≠ .punct ')' → ClosedByLast level tokens → ClosedByLast level (token :: tokens)

/-- Every parenthesis that is opened is closed, and none is closed before it is opened. -/
structure RoundBalanced (tokens : List Token) : Prop where
  prefixes : ∀ front, front <+: tokens →
    front.count (.punct ')') ≤ front.count (.punct '(')
  total : tokens.count (.punct ')') = tokens.count (.punct '(')

variable {level : Nat} {tokens rest : List Token} {token : Token}

namespace ClosedByLast

theorem level_pos (h : ClosedByLast level tokens) : 0 < level := by
  induction h with
  | last | closing | opening => omega
  | other _ _ _ ih => exact ih

theorem behind_label (h : ClosedByLast level tokens) (hl : token.label?.isSome) :
    ClosedByLast level (token :: tokens) :=
  .other (by rintro rfl; cases hl) (by rintro rfl; cases hl) h

theorem count_eq (h : ClosedByLast level tokens) :
    tokens.count (.punct ')') = tokens.count (.punct '(') + level := by
  induction h with
  | last => decide
  | closing _ ih | opening _ ih =>
    simp only [List.count_cons, beq_iff_eq, Token.punct.injEq] at ih ⊢
    simp
    omega
  | other ho hc _ ih => simp [ho, hc, ih]

/-- Before the last token, the open parentheses are never all closed. -/
theorem exists_append (h : ClosedByLast level tokens) : ∃ inner, tokens = inner ++ [.punct ')'] ∧
    ∀ front, front <+: inner →
      front.count (.punct ')') < front.count (.punct '(') + level := by
  have hnil {level : Nat} (hl : 0 < level) : ([] : List Token).count (.punct ')') <
      ([] : List Token).count (.punct '(') + level := by simpa using hl
  induction h with
  | last =>
    refine ⟨[], rfl, fun front hf => ?_⟩
    rw [List.prefix_nil.mp hf]
    decide
  | @closing level tokens h ih | @opening level tokens h ih =>
    obtain ⟨inner, rfl, hinner⟩ := ih
    refine ⟨_ :: inner, rfl, fun front hf => ?_⟩
    rcases List.prefix_cons_iff.mp hf with rfl | ⟨front, rfl, hfront⟩
    · exact hnil (by omega)
    · have := hinner front hfront
      simp
      omega
  | @other level token tokens ho hc h ih =>
    obtain ⟨inner, rfl, hinner⟩ := ih
    refine ⟨_ :: inner, rfl, fun front hf => ?_⟩
    rcases List.prefix_cons_iff.mp hf with rfl | ⟨front, rfl, hfront⟩
    · exact hnil h.level_pos
    · simpa [List.count_cons, ho, hc] using hinner front hfront

theorem exists_balanced (h : ClosedByLast 1 tokens) :
    ∃ inner, tokens = inner ++ [.punct ')'] ∧ RoundBalanced inner := by
  obtain ⟨inner, rfl, hinner⟩ := h.exists_append
  have htotal := h.count_eq
  simp [List.count_append] at htotal
  exact ⟨inner, rfl, fun front hf => Nat.le_of_lt_succ (hinner front hf), htotal⟩

end ClosedByLast

/-- A brace outside quotes. -/
def Token.IsBrace (token : Token) : Prop :=
  token = .punct '{' ∨ token = .punct '}'

/-- A fault of depth, braces, or missing values and commas. -/
inductive InnerFault (tokens : List Token) : ArgumentFault → Prop
  | tooDeep : InnerFault tokens .tooDeep
  | mismatchedBracket {brace : Token} : brace ∈ tokens → brace.IsBrace →
      InnerFault tokens .mismatchedBracket
  | missingComma {position : Nat} : InnerFault tokens (.unexpected .missingComma position)
  | missingValue {c : Char} {position : Nat} :
      InnerFault tokens (.unexpected (.punctuation c) position)

/-- The last parenthesis is not at fault. -/
theorem InnerFault.of_append {fault : ArgumentFault}
    (h : InnerFault (tokens ++ [.punct ')']) fault) : InnerFault tokens fault := by
  cases h with
  | tooDeep => exact .tooDeep
  | @mismatchedBracket brace hm hb =>
    rcases List.mem_append.mp hm with hm | hm
    · exact .mismatchedBracket hm hb
    · obtain rfl := List.mem_singleton.mp hm
      rcases hb with hb | hb <;> cases hb
  | missingComma => exact .missingComma
  | missingValue => exact .missingValue

/-- A brace is open, or comes. -/
def HasBrace (openGroups : List Bracket) (tokens : List Token) : Prop :=
  .curly ∈ openGroups ∨ ∃ brace ∈ tokens, brace.IsBrace

theorem HasBrace.cons {openGroups : List Bracket} (h : HasBrace openGroups tokens)
    (token : Token) : HasBrace openGroups (token :: tokens) :=
  h.imp_right fun ⟨brace, hm, hb⟩ => ⟨brace, List.mem_cons_of_mem _ hm, hb⟩

/-- What the bracket check may find inside parentheses that are closed. -/
def BalanceFault (openGroups : List Bracket) (tokens : List Token) (fault : ArgumentFault) : Prop :=
  fault = .tooDeep ∨ fault = .mismatchedBracket ∧ HasBrace openGroups tokens

theorem BalanceFault.imp {openGroups openGroups' : List Bracket} {tokens' : List Token}
    {fault : ArgumentFault} (h : BalanceFault openGroups tokens fault)
    (hbrace : HasBrace openGroups tokens → HasBrace openGroups' tokens') :
    BalanceFault openGroups' tokens' fault :=
  Or.imp_right (And.imp_right hbrace) h

theorem balanceFault_of_opener (bracket : Bracket) {openGroups outer : List Bracket}
    {fault : ArgumentFault}
    (hf : checkBalance openGroups (.punct bracket.opener :: tokens) = some fault)
    (hrest : checkBalance (bracket :: openGroups) tokens = some fault →
      BalanceFault outer (.punct bracket.opener :: tokens) fault) :
    BalanceFault outer (.punct bracket.opener :: tokens) fault := by
  rw [checkBalance_opener] at hf
  split at hf
  next => exact Or.inl (Option.some.inj hf).symm
  next => exact hrest hf

/-- A brace keeps the number of open parentheses, or it is at fault. -/
theorem balanceFault_of_brace {c : Char} (hc : c = '{' ∨ c = '}') {inner : List Bracket}
    {fault : ArgumentFault} (hcount : inner.count .round + 1 = level)
    (hf : checkBalance (inner ++ [.round]) (.punct c :: tokens) = some fault)
    (hrest : ∀ inner : List Bracket, inner.count .round + 1 = level → ∀ fault,
      checkBalance (inner ++ [.round]) tokens = some fault → BalanceFault inner tokens fault) :
    BalanceFault inner (.punct c :: tokens) fault := by
  have hbrace : HasBrace inner (.punct c :: tokens) :=
    Or.inr ⟨_, List.mem_cons_self, hc.imp (congrArg _) (congrArg _)⟩
  rcases hc with rfl | rfl
  · have hcount : (Bracket.curly :: inner).count .round + 1 = level := by simpa using hcount
    exact balanceFault_of_opener .curly hf fun hf =>
      (hrest (.curly :: inner) hcount fault hf).imp fun _ => hbrace
  · rcases inner with _ | ⟨_ | _, inner⟩
    · cases hf
      exact Or.inr ⟨rfl, hbrace⟩
    · cases hf
      exact Or.inr ⟨rfl, hbrace⟩
    · have hcount : inner.count .round + 1 = level := by simpa using hcount
      exact (hrest inner hcount fault hf).imp fun _ => hbrace

/-- Inside a parenthesis that the last token closes, the bracket check fails for depth or braces
only. -/
theorem checkBalance_of_closedByLast (h : ClosedByLast level tokens) :
    ∀ inner : List Bracket, inner.count .round + 1 = level → ∀ fault,
      checkBalance (inner ++ [.round]) tokens = some fault → BalanceFault inner tokens fault := by
  induction h with
  | last =>
    intro inner hcount fault hf
    rcases inner with _ | ⟨_ | _, inner⟩
    · cases hf
    · simp at hcount
    · cases hf
      exact Or.inr ⟨rfl, Or.inl (by simp)⟩
  | @closing level tokens _ ih =>
    intro inner hcount fault hf
    rcases inner with _ | ⟨_ | _, inner⟩
    · simp at hcount
    · have hcount : inner.count .round + 1 = level + 1 := by simpa using hcount
      exact (ih inner hcount fault hf).imp fun hbrace =>
        HasBrace.cons (hbrace.imp_left (List.mem_cons_of_mem _)) _
    · cases hf
      exact Or.inr ⟨rfl, Or.inl (by simp)⟩
  | @opening level tokens _ ih =>
    intro inner hcount fault hf
    have hcount : (Bracket.round :: inner).count .round + 1 = level + 2 := by
      simp
      omega
    refine balanceFault_of_opener .round hf fun hf => ?_
    exact (ih (.round :: inner) hcount fault hf).imp fun hbrace =>
      HasBrace.cons (hbrace.imp_left fun hm => by simpa using hm) _
  | @other level token tokens ho hc _ ih =>
    intro inner hcount fault hf
    cases token with
    | text s | word s => exact (ih inner hcount fault hf).imp fun hbrace => hbrace.cons _
    | punct c =>
      have ho : c ≠ '(' := fun h => ho (congrArg _ h)
      have hc : c ≠ ')' := fun h => hc (congrArg _ h)
      by_cases hcurly : c = '{' ∨ c = '}'
      · exact balanceFault_of_brace hcurly hcount hf ih
      · rw [not_or] at hcurly
        have hf : checkBalance (inner ++ [.round]) tokens = some fault := by
          simpa [checkBalance, Bracket.ofOpener?, ho, hc, hcurly] using hf
        exact (ih inner hcount fault hf).imp fun hbrace => hbrace.cons _

/-- Tokens with brackets in order close the parentheses that are open. -/
theorem count_of_checkBalance : ∀ (tokens : List Token) (openGroups : List Bracket),
    checkBalance openGroups tokens = none →
      tokens.count (.punct ')') = tokens.count (.punct '(') + openGroups.count .round := by
  intro tokens
  induction tokens with
  | nil =>
    intro openGroups h
    cases openGroups with
    | nil => rfl
    | cons => cases h
  | cons token tokens ih =>
    intro openGroups h
    cases token with
    | text s | word s => simpa using ih openGroups h
    | punct c =>
      simp only [checkBalance] at h
      split at h
      next bracket hb =>
        obtain rfl := State.opener_of_ofOpener? hb
        split at h
        next => cases h
        next =>
          have := ih _ h
          cases bracket <;> simp [Bracket.opener] at this ⊢ <;> omega
      next hb =>
        have ho : c ≠ '(' := by rintro rfl; cases hb
        split at h
        next =>
          split at h
          next bracket outer =>
            split at h
            next hclose =>
              subst hclose
              have := ih _ h
              cases bracket <;> simp [Bracket.closer] at this ⊢ <;> omega
            next => cases h
          next => cases h
        next hc =>
          have := ih _ h
          have hc : c ≠ ')' := fun hc' => hc (Or.inl hc')
          simpa [ho, hc] using this

namespace State

/-- The brackets of the open groups, the innermost first. -/
def brackets (state : State) : List Bracket :=
  state.openGroups.map (·.bracket)

/-- Behind its first token, the reader is where the rest of the tokens closes the open groups, and
where an equals sign comes if it awaits one. -/
structure Follows (state : State) (tokens : List Token) : Prop where
  started : state ≠ start
  balanced : checkBalance state.brackets tokens = none
  equals : ∀ group outer, state = inside .equals group outer → tokens.head? = some (.punct '=')

variable {group : OpenGroup} {outer openGroups : List OpenGroup} {next : State}

theorem follows_deliver {term : Term} (h : checkBalance (openGroups.map (·.bracket)) rest = none) :
    (deliver term openGroups).Follows rest := by
  cases openGroups with
  | nil => exact ⟨nofun, h, nofun⟩
  | cons group outer => exact ⟨nofun, h, nofun⟩

theorem follows_of_beginValue (hn : beginValue openGroups token = .ok next)
    (h : checkBalance (openGroups.map (·.bracket)) (token :: rest) = none) :
    next.Follows rest := by
  cases token with
  | text s | word s =>
    cases hn
    exact follows_deliver h
  | punct c =>
    unfold beginValue at hn
    cases hb : Bracket.ofOpener? c with
    | none => simp [hb] at hn
    | some bracket =>
      obtain rfl : inside .element (.empty bracket) openGroups = next := by simpa [hb] using hn
      obtain rfl := opener_of_ofOpener? hb
      rw [checkBalance_opener] at h
      split at h
      next => cases h
      next => exact ⟨nofun, h, nofun⟩

theorem follows_of_beginElement (hn : beginElement group outer token rest.head? = .ok next)
    (h : checkBalance ((group :: outer).map (·.bracket)) (token :: rest) = none) :
    next.Follows rest := by
  unfold beginElement at hn
  split at hn
  next hclose =>
    subst hclose
    cases hn
    rw [List.map_cons, checkBalance_closer] at h
    exact follows_deliver h
  next =>
    split at hn
    next hcomma =>
      subst hcomma
      cases hn
      exact ⟨nofun, h, nofun⟩
    next =>
      cases token with
      | punct c => exact follows_of_beginValue hn h
      | text s | word s =>
        simp only at hn
        split at hn
        next hequals =>
          cases hn
          exact ⟨nofun, h, fun _ _ _ => hequals⟩
        next => exact follows_of_beginValue hn h

theorem follows_step {state : State} (hs : ∀ t, state ≠ finished t)
    (h : state.Follows (token :: rest)) (hn : state.step token rest.head? = .ok next) :
    next.Follows rest := by
  cases state with
  | start => exact absurd rfl h.started
  | finished term => exact absurd rfl (hs term)
  | inside stage group outer =>
    cases stage with
    | element => exact follows_of_beginElement hn h.balanced
    | equals =>
      obtain rfl := Option.some.inj (h.equals group outer rfl)
      cases hn
      exact ⟨by simp, h.balanced, by simp⟩
    | value => exact follows_of_beginValue hn h.balanced
    | separator =>
      simp only [step] at hn
      split at hn
      next hcomma =>
        subst hcomma
        cases hn
        exact ⟨by simp, h.balanced, by simp⟩
      next =>
        split at hn
        next => exact follows_of_beginElement hn h.balanced
        next => cases hn

/-- A token that is refused stands where a value or a comma is missing. -/
theorem innerFault_of_beginValue {what : Unexpected}
    (hn : beginValue openGroups token = .error what)
    (position : Nat) : InnerFault tokens (.unexpected what position) := by
  cases token with
  | text s | word s => cases hn
  | punct c =>
    cases hb : Bracket.ofOpener? c with
    | some bracket => simp [beginValue, hb] at hn
    | none =>
      obtain rfl : Unexpected.punctuation c = what := by simpa [beginValue, hb] using hn
      exact .missingValue

theorem innerFault_of_beginElement {after : Option Token} {what : Unexpected}
    (hn : beginElement group outer token after = .error what) (position : Nat) :
    InnerFault tokens (.unexpected what position) := by
  unfold beginElement at hn
  split at hn
  next => cases hn
  next =>
    split at hn
    next => cases hn
    next =>
      cases token with
      | punct c => exact innerFault_of_beginValue hn position
      | text s | word s =>
        simp only at hn
        split at hn
        next => cases hn
        next => exact innerFault_of_beginValue hn position

theorem innerFault_of_step {state : State} {after : Option Token} {what : Unexpected}
    (hn : state.step token after = .error what) (position : Nat) :
    InnerFault tokens (.unexpected what position) := by
  cases state with
  | start => exact innerFault_of_beginValue hn position
  | finished term => cases hn
  | inside stage group outer =>
    cases stage with
    | element => exact innerFault_of_beginElement hn position
    | equals => cases hn
    | value => exact innerFault_of_beginValue hn position
    | separator =>
      simp only [step] at hn
      split at hn
      next => cases hn
      next =>
        split at hn
        next => exact innerFault_of_beginElement hn position
        next =>
          cases hn
          exact .missingComma

/-- A state whose open groups the tokens close is inside a group as long as they do not end. -/
theorem Follows.ne_finished {state : State} (h : state.Follows tokens)
    (hc : ClosedByLast level tokens) (term : Term) : state ≠ finished term := by
  rintro rfl
  have hcount := count_of_checkBalance tokens _ h.balanced
  have hlevel := hc.count_eq
  have hpos := hc.level_pos
  have hnone : (finished term).brackets.count .round = 0 := rfl
  omega

theorem innerFault_of_read {whole : List Token} (hc : ClosedByLast level tokens) :
    ∀ (state : State) (position : Nat) (fault : ArgumentFault), state.Follows tokens →
      read position state tokens = .error fault → InnerFault whole fault := by
  have hread {token : Token} {rest : List Token} {state : State} {position : Nat}
      {fault : ArgumentFault} (hs : ∀ t, state ≠ finished t) (hf : state.Follows (token :: rest))
      (hr : read position state (token :: rest) = .error fault)
      (hrest : ∀ next : State, next.Follows rest →
        read (position + 1) next rest = .error fault → InnerFault whole fault) :
      InnerFault whole fault := by
    cases hstep : state.step token rest.head? with
    | ok next =>
      rw [read_step hs hstep] at hr
      exact hrest next (follows_step hs hf hstep) hr
    | error what =>
      have hfault : fault = .unexpected what position := by
        cases state <;> simp_all [read]
      rw [hfault]
      exact innerFault_of_step hstep position
  induction hc with
  | last =>
    intro state position fault hf hr
    refine hread (hf.ne_finished .last) hf hr fun next hnext hend => ?_
    cases next with
    | start => exact absurd rfl hnext.started
    | finished term => cases hend
    | inside stage group outer => cases hnext.balanced
  | closing hc ih =>
    intro state position fault hf hr
    exact hread (hf.ne_finished hc.closing) hf hr fun next hnext hend => ih next _ _ hnext hend
  | opening hc ih =>
    intro state position fault hf hr
    exact hread (hf.ne_finished hc.opening) hf hr fun next hnext hend => ih next _ _ hnext hend
  | other ho hn hc ih =>
    intro state position fault hf hr
    exact hread (hf.ne_finished (hc.other ho hn)) hf hr fun next hnext hend =>
      ih next _ _ hnext hend

end State

/-- What may be wrong with tokens whose first parenthesis is closed by the last one. -/
theorem innerFault_of_ofTokens (h : ClosedByLast 1 tokens) {fault : ArgumentFault}
    (hf : Term.ofTokens (.punct '(' :: tokens) = .error fault) : InnerFault tokens fault := by
  unfold Term.ofTokens at hf
  have hopen : checkBalance [] (.punct '(' :: tokens) = checkBalance [.round] tokens := rfl
  split at hf
  next other hb =>
    obtain rfl := Except.error.inj hf
    rcases checkBalance_of_closedByLast h [] rfl _ (hopen ▸ hb) with
      rfl | ⟨rfl, hcurly | ⟨brace, hm, hbrace⟩⟩
    · exact .tooDeep
    · cases hcurly
    · exact .mismatchedBracket hm hbrace
  next hb =>
    have hfollows : (State.inside .element (.empty .round) []).Follows tokens :=
      ⟨nofun, hopen ▸ hb, nofun⟩
    exact State.innerFault_of_read h _ _ _ hfollows hf

end DocAnnotations.Argument
