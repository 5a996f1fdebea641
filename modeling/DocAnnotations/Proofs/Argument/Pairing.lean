import DocAnnotations.Proofs.Argument.Parentheses

/-! The reader of tokens opens and closes groups where the bracket check does, and does not run off
tokens that have passed it. -/
namespace DocAnnotations.Argument

/-- The brackets that the bracket check pairs: the positions of the opening and the closing one, in
the order of the closing ones. The openers that are not closed yet come with their positions. -/
def bracketPairs (position : Nat) (openers : List (Nat × Bracket)) : List Token → List (Nat × Nat)
  | [] => []
  | .punct c :: tokens =>
    match Bracket.ofOpener? c with
    | some bracket => bracketPairs (position + 1) ((position, bracket) :: openers) tokens
    | none =>
      if c = ')' ∨ c = '}' then
        match openers with
        | opener :: outer => (opener.1, position) :: bracketPairs (position + 1) outer tokens
        | [] => bracketPairs (position + 1) [] tokens
      else bracketPairs (position + 1) openers tokens
  | _ :: tokens => bracketPairs (position + 1) openers tokens

namespace State

/-- The states that reading goes through, up to the end of the value or to what is wrong. -/
def trace (state : State) : List Token → List State
  | [] => [state]
  | token :: rest =>
    match state with
    | finished term => [finished term]
    | state =>
      match state.step token rest.head? with
      | .ok next => state :: trace next rest
      | .error _ => [state]

end State

/-- The groups that are closed along a trace: the positions of the token behind which a group is
open and of the one behind which it is not open any more. -/
def closedGroups (position : Nat) (opened : List Nat) : List State → List (Nat × Nat)
  | state :: next :: states =>
    if state.openGroups.length < next.openGroups.length then
      closedGroups (position + 1) (position :: opened) (next :: states)
    else if next.openGroups.length < state.openGroups.length then
      (opened.head?.map (·, position)).toList ++
        closedGroups (position + 1) opened.tail (next :: states)
    else closedGroups (position + 1) opened (next :: states)
  | _ => []

/-- What a token does to the open groups. -/
inductive Token.Moves (token : Token) (before after : List Bracket) : Prop
  | opens (bracket : Bracket) : token = .punct bracket.opener → after = bracket :: before →
      Token.Moves token before after
  | closes (bracket : Bracket) : token = .punct bracket.closer → before = bracket :: after →
      Token.Moves token before after
  | stays : (∀ bracket : Bracket, token ≠ .punct bracket.opener ∧ token ≠ .punct bracket.closer) →
      after = before → Token.Moves token before after

variable {position : Nat} {openers : List (Nat × Bracket)} {tokens rest : List Token}
  {token : Token}

theorem bracketPairs_opener (bracket : Bracket) :
    bracketPairs position openers (.punct bracket.opener :: tokens) =
      bracketPairs (position + 1) ((position, bracket) :: openers) tokens := by
  cases bracket <;> rfl

theorem bracketPairs_closer (bracket : Bracket) (opener : Nat × Bracket) :
    bracketPairs position (opener :: openers) (.punct bracket.closer :: tokens) =
      (opener.1, position) :: bracketPairs (position + 1) openers tokens := by
  cases bracket <;> rfl

theorem bracketPairs_other
    (h : ∀ bracket : Bracket, token ≠ .punct bracket.opener ∧ token ≠ .punct bracket.closer) :
    bracketPairs position openers (token :: tokens) =
      bracketPairs (position + 1) openers tokens := by
  cases token with
  | text s | word s => rfl
  | punct c =>
    have hopener : Bracket.ofOpener? c = none := by
      by_contra hsome
      obtain ⟨bracket, hb⟩ := Option.ne_none_iff_exists'.mp hsome
      exact (h bracket).1 (congrArg Token.punct (State.opener_of_ofOpener? hb))
    have hcloser : ¬ (c = ')' ∨ c = '}') := by
      rintro (rfl | rfl)
      · exact (h .round).2 rfl
      · exact (h .curly).2 rfl
    simp [bracketPairs, hopener, hcloser]

/-- Pairs are closed by tokens that have not been passed. -/
theorem bounds_of_mem_bracketPairs {pair : Nat × Nat}
    (h : pair ∈ bracketPairs position openers tokens) :
    position ≤ pair.2 ∧ pair.2 < position + tokens.length := by
  fun_induction bracketPairs position openers tokens with
  | case1 => cases h
  | case3 position c tokens hb hc opener outer ih =>
    rw [List.length_cons]
    rcases List.mem_cons.mp h with rfl | h
    · dsimp only
      omega
    · have := ih h
      omega
  | case2 | case4 | case5 | case6 =>
    rename_i ih
    have := ih h
    rw [List.length_cons]
    omega

namespace State

open Token (Moves)

variable {group : OpenGroup} {outer openGroups : List OpenGroup} {state next : State}

theorem brackets_deliver (term : Term) (openGroups : List OpenGroup) :
    (deliver term openGroups).brackets = openGroups.map (·.bracket) := by
  cases openGroups <;> rfl

theorem moves_label {before : List Bracket} {label : String} (h : token.label? = some label) :
    Moves token before before := by
  refine .stays (fun bracket => ?_) rfl
  cases token with
  | punct c => cases h
  | text s | word s => exact ⟨nofun, nofun⟩

theorem moves_of_beginValue (hn : beginValue openGroups token = .ok next) :
    Moves token (openGroups.map (·.bracket)) next.brackets := by
  cases token with
  | text s | word s =>
    cases hn
    rw [brackets_deliver]
    exact moves_label rfl
  | punct c =>
    cases hb : Bracket.ofOpener? c with
    | none => simp [beginValue, hb] at hn
    | some bracket =>
      obtain rfl : inside .element (.empty bracket) openGroups = next := by
        simpa [beginValue, hb] using hn
      exact .opens bracket (congrArg Token.punct (opener_of_ofOpener? hb)) rfl

theorem moves_comma (before : List Bracket) : Moves (.punct ',') before before := by
  refine .stays (fun bracket => ?_) rfl
  cases bracket <;> decide

theorem moves_equals (before : List Bracket) : Moves (.punct '=') before before := by
  refine .stays (fun bracket => ?_) rfl
  cases bracket <;> decide

theorem moves_of_beginElement {after : Option Token}
    (hn : beginElement group outer token after = .ok next) :
    Moves token ((group :: outer).map (·.bracket)) next.brackets := by
  unfold beginElement at hn
  split at hn
  next hclose =>
    cases hn
    rw [brackets_deliver]
    exact .closes group.bracket hclose rfl
  next =>
    split at hn
    next hcomma =>
      subst hcomma
      cases hn
      exact moves_comma _
    next =>
      cases token with
      | punct c => exact moves_of_beginValue hn
      | text s | word s =>
        simp only at hn
        split at hn
        next hequals =>
          cases hn
          exact moves_label rfl
        next => exact moves_of_beginValue hn

/-- A token that is read opens a group, closes one or leaves them as they are, and only a bracket of
its own does the former two. -/
theorem moves_of_step (hs : ∀ t, state ≠ finished t)
    (hequals : ∀ group outer, state = inside .equals group outer → token = .punct '=')
    {after : Option Token} (hn : state.step token after = .ok next) :
    Moves token state.brackets next.brackets := by
  cases state with
  | start => exact moves_of_beginValue hn
  | finished term => exact absurd rfl (hs term)
  | inside stage group outer =>
    cases stage with
    | element => exact moves_of_beginElement hn
    | equals =>
      obtain rfl := hequals group outer rfl
      cases hn
      exact moves_equals _
    | value => exact moves_of_beginValue hn
    | separator =>
      simp only [step] at hn
      split at hn
      next hcomma =>
        subst hcomma
        cases hn
        exact moves_comma _
      next =>
        split at hn
        next => exact moves_of_beginElement hn
        next => cases hn

/-- Where the reader stands before tokens that close the open groups: no more groups are open than
the bracket check allows, and an equals sign comes if one is awaited. -/
structure Awaits (state : State) (tokens : List Token) : Prop where
  balanced : checkBalance state.brackets tokens = none
  equals : ∀ group outer, state = inside .equals group outer → tokens.head? = some (.punct '=')
  bounded : state.brackets.length ≤ checkBalance.maxNesting

theorem awaits_start (h : checkBalance [] tokens = none) : start.Awaits tokens :=
  ⟨h, nofun, Nat.zero_le _⟩

theorem Awaits.moves (h : state.Awaits (token :: rest)) (hs : ∀ t, state ≠ finished t)
    (hn : state.step token rest.head? = .ok next) : Moves token state.brackets next.brackets :=
  moves_of_step hs (fun group outer hstate => Option.some.inj (h.equals group outer hstate)) hn

theorem Awaits.follows (h : state.Awaits (token :: rest)) (hs : ∀ t, state ≠ finished t)
    (hn : state.step token rest.head? = .ok next) : next.Follows rest := by
  cases state with
  | start => exact follows_of_beginValue hn h.balanced
  | finished term => exact absurd rfl (hs term)
  | inside stage group outer => exact follows_step hs ⟨nofun, h.balanced, h.equals⟩ hn

/-- One token further the rest of the tokens closes the groups that are open then. -/
theorem Awaits.step (h : state.Awaits (token :: rest)) (hs : ∀ t, state ≠ finished t)
    (hn : state.step token rest.head? = .ok next) : next.Awaits rest := by
  have hfollows := h.follows hs hn
  refine ⟨hfollows.balanced, hfollows.equals, ?_⟩
  have hbounded := h.bounded
  cases h.moves hs hn with
  | opens bracket htoken hafter =>
    have hbalanced := h.balanced
    rw [htoken, checkBalance_opener] at hbalanced
    split at hbalanced
    next => cases hbalanced
    next hroom =>
      rw [hafter, List.length_cons]
      omega
  | closes bracket htoken hbefore =>
    rw [hbefore, List.length_cons] at hbounded
    omega
  | stays hother hafter =>
    rw [hafter]
    exact hbounded

/-- The value has ended, or the token is refused, or it is read. -/
theorem step_cases (state : State) (token : Token) (after : Option Token) :
    (∃ term, state = finished term) ∨
      (∀ t, state ≠ finished t) ∧
        ((∃ what, state.step token after = .error what) ∨
          ∃ next, state.step token after = .ok next) := by
  by_cases hs : ∀ t, state ≠ finished t
  · cases hn : state.step token after with
    | error what => exact .inr ⟨hs, .inl ⟨what, rfl⟩⟩
    | ok next => exact .inr ⟨hs, .inr ⟨next, rfl⟩⟩
  · simp only [not_forall, not_not] at hs
    exact .inl hs

theorem read_refused {what : Unexpected} (hs : ∀ t, state ≠ finished t)
    (hn : state.step token rest.head? = .error what) :
    read position state (token :: rest) = .error (.unexpected what position) := by
  cases state with
  | start | inside => simp [read, hn]
  | finished term => exact absurd rfl (hs term)

theorem trace_step (hs : ∀ t, state ≠ finished t) (hn : state.step token rest.head? = .ok next) :
    state.trace (token :: rest) = state :: next.trace rest := by
  cases state with
  | start | inside => simp [trace, hn]
  | finished term => exact absurd rfl (hs term)

/-- Either the next token is read or the trace ends in front of it. -/
theorem trace_cons_cases (state : State) (token : Token) (rest : List Token) :
    state.trace (token :: rest) = [state] ∨
      (∀ t, state ≠ finished t) ∧ ∃ next, state.step token rest.head? = .ok next := by
  rcases step_cases state token rest.head? with ⟨term, rfl⟩ | ⟨hs, ⟨what, hn⟩ | hn⟩
  · exact .inl rfl
  · left
    cases state with
    | start | inside => simp [trace, hn]
    | finished term => exact absurd rfl (hs term)
  · exact .inr ⟨hs, hn⟩

theorem exists_trace_eq_cons (state : State) (tokens : List Token) :
    ∃ states, state.trace tokens = state :: states := by
  cases tokens with
  | nil => exact ⟨[], rfl⟩
  | cons token rest =>
    rcases trace_cons_cases state token rest with hstop | ⟨hs, next, hn⟩
    · exact ⟨[], hstop⟩
    · exact ⟨next.trace rest, trace_step hs hn⟩

/-- All tokens are read where reading ends well. -/
theorem length_trace_of_read {term : Term} (hread : read position state tokens = .ok term) :
    (state.trace tokens).length = tokens.length + 1 := by
  induction tokens generalizing state position with
  | nil => rfl
  | cons token rest ih =>
    rcases step_cases state token rest.head? with ⟨term, rfl⟩ | ⟨hs, ⟨what, hn⟩ | ⟨next, hn⟩⟩
    · cases hread
    · rw [read_refused hs hn] at hread
      cases hread
    · rw [read_step hs hn] at hread
      rw [trace_step hs hn, List.length_cons, List.length_cons, ih hread]

/-- Behind the first token, tokens that close the open groups do not end too early. -/
theorem Awaits.not_end_of_read {what : Unexpected} {stop : Nat} (h : state.Awaits tokens)
    (hbegun : state ≠ start ∨ tokens ≠ [])
    (hread : read position state tokens = .error (.unexpected what stop)) :
    what ≠ .endInsideGroup ∧ what ≠ .endBeforeValue := by
  induction tokens generalizing state position with
  | nil =>
    cases state with
    | start => simp at hbegun
    | finished term => cases hread
    | inside stage group outer => cases h.balanced
  | cons token rest ih =>
    rcases step_cases state token rest.head? with ⟨term, rfl⟩ | ⟨hs, ⟨refused, hn⟩ | ⟨next, hn⟩⟩
    · cases hread
    · rw [read_refused hs hn] at hread
      cases hread
      have hrefused : InnerFault rest (.unexpected what stop) := innerFault_of_step hn stop
      cases hrefused with
      | missingComma => exact ⟨nofun, nofun⟩
      | missingValue => exact ⟨nofun, nofun⟩
    · rw [read_step hs hn] at hread
      exact ih (h.step hs hn) (.inl (h.follows hs hn).started) hread

/-- No more groups are open along a trace than the bracket check allows. -/
theorem Awaits.length_openGroups_le (h : state.Awaits tokens) :
    ∀ s ∈ state.trace tokens, s.openGroups.length ≤ checkBalance.maxNesting := by
  have hhere {state : State} {tokens : List Token} (h : state.Awaits tokens) :
      state.openGroups.length ≤ checkBalance.maxNesting := by
    have hbounded := h.bounded
    rwa [brackets, List.length_map] at hbounded
  induction tokens generalizing state with
  | nil =>
    intro s hmem
    obtain rfl := List.mem_singleton.mp hmem
    exact hhere h
  | cons token rest ih =>
    intro s hmem
    rcases trace_cons_cases state token rest with hstop | ⟨hs, next, hn⟩
    · rw [hstop] at hmem
      obtain rfl := List.mem_singleton.mp hmem
      exact hhere h
    · rw [trace_step hs hn] at hmem
      rcases List.mem_cons.mp hmem with rfl | hmem
      · exact hhere h
      · exact ih (h.step hs hn) s hmem

end State

section Closed

open State

variable {state next : State} {states : List State} {opened : List Nat} {opener : Nat}
  {bracket : Bracket}

theorem length_brackets (state : State) : state.brackets.length = state.openGroups.length :=
  List.length_map _

theorem closedGroups_opens (h : next.brackets = bracket :: state.brackets) :
    closedGroups position opened (state :: next :: states) =
      closedGroups (position + 1) (position :: opened) (next :: states) := by
  have hlength := congrArg List.length h
  rw [List.length_cons, length_brackets, length_brackets] at hlength
  rw [closedGroups, if_pos (by omega)]

theorem closedGroups_closes (h : state.brackets = bracket :: next.brackets) :
    closedGroups position (opener :: opened) (state :: next :: states) =
      (opener, position) :: closedGroups (position + 1) opened (next :: states) := by
  have hlength := congrArg List.length h
  rw [List.length_cons, length_brackets, length_brackets] at hlength
  rw [closedGroups, if_neg (by omega), if_pos (by omega)]
  rfl

theorem closedGroups_stays (h : next.brackets = state.brackets) :
    closedGroups position opened (state :: next :: states) =
      closedGroups (position + 1) opened (next :: states) := by
  have hlength := congrArg List.length h
  rw [length_brackets, length_brackets] at hlength
  rw [closedGroups, if_neg (by omega), if_neg (by omega)]

/-- As far as tokens are read, groups are closed where the bracket check closes them. -/
theorem closedGroups_trace (position : Nat) (h : state.Awaits tokens)
    (hopeners : openers.map (·.2) = state.brackets) :
    closedGroups position (openers.map (·.1)) (state.trace tokens) =
      (bracketPairs position openers tokens).filter
        fun pair => pair.2 + 1 < position + (state.trace tokens).length := by
  induction tokens generalizing state position openers with
  | nil => rfl
  | cons token rest ih =>
    rcases trace_cons_cases state token rest with hstop | ⟨hs, next, hn⟩
    · rw [hstop, List.length_singleton]
      refine (List.filter_eq_nil_iff.mpr fun pair hpair => ?_).symm
      have hbounds := bounds_of_mem_bracketPairs hpair
      simp
      omega
    · have hnext := h.step hs hn
      obtain ⟨states, hstates⟩ := exists_trace_eq_cons next rest
      have hlength : position + (state.trace (token :: rest)).length =
          position + 1 + (next.trace rest).length := by
        rw [trace_step hs hn, List.length_cons]
        omega
      rw [hlength, trace_step hs hn]
      cases h.moves hs hn with
      | opens bracket htoken hafter =>
        have hpushed : (((position, bracket) :: openers).map (·.2)) = next.brackets := by
          rw [List.map_cons, hopeners, hafter]
        rw [htoken, bracketPairs_opener, ← ih (position + 1) hnext hpushed, hstates,
          closedGroups_opens hafter]
        rfl
      | closes bracket htoken hbefore =>
        rw [hbefore] at hopeners
        obtain ⟨opener, outer, rfl, -, hpopped⟩ := List.map_eq_cons_iff.mp hopeners
        have hread : position + 1 < position + 1 + (next.trace rest).length := by
          rw [hstates, List.length_cons]
          omega
        rw [htoken, bracketPairs_closer, List.filter_cons_of_pos (by simpa using hread),
          ← ih (position + 1) hnext hpopped, hstates, List.map_cons, closedGroups_closes hbefore]
      | stays hother hafter =>
        rw [← hafter] at hopeners
        rw [bracketPairs_other hother, ← ih (position + 1) hnext hopeners, hstates,
          closedGroups_stays hafter]

end Closed

/-- The reading of tokens stays within them: they do not end inside a group, nor before a value
unless there are none, groups are closed by the tokens that the bracket check pairs with their
openers, and they do not nest too deep. -/
structure ReadWithin (tokens : List Token) : Prop where
  inside : ∀ stop, State.start.read 0 tokens ≠ .error (.unexpected .endInsideGroup stop)
  value : ∀ stop, State.start.read 0 tokens = .error (.unexpected .endBeforeValue stop) →
    tokens = []
  /-- Of the pairs, those are closed whose closing bracket is read. -/
  closed : closedGroups 0 [] (State.start.trace tokens) =
    (bracketPairs 0 [] tokens).filter fun pair => pair.2 + 1 < (State.start.trace tokens).length
  whole : ∀ term, State.start.read 0 tokens = .ok term →
    closedGroups 0 [] (State.start.trace tokens) = bracketPairs 0 [] tokens
  nesting : ∀ state ∈ State.start.trace tokens, state.openGroups.length ≤ 32

/-- Tokens that pass the bracket check are read within them. -/
theorem readWithin_of_checkBalance (h : checkBalance [] tokens = none) : ReadWithin tokens := by
  have hawaits : State.start.Awaits tokens := State.awaits_start h
  have hclosed : closedGroups 0 [] (State.start.trace tokens) =
      (bracketPairs 0 [] tokens).filter
        fun pair => pair.2 + 1 < (State.start.trace tokens).length := by
    have hnone : ([] : List (Nat × Bracket)).map (·.2) = State.start.brackets := rfl
    have htrace := closedGroups_trace 0 hawaits hnone
    rwa [Nat.zero_add] at htrace
  constructor
  · intro stop hread
    by_cases hne : tokens = []
    · rw [hne] at hread
      cases hread
    · exact (hawaits.not_end_of_read (.inr hne) hread).1 rfl
  · intro stop hread
    by_contra hne
    exact (hawaits.not_end_of_read (.inr hne) hread).2 rfl
  · exact hclosed
  · intro term hread
    rw [hclosed, List.filter_eq_self]
    intro pair hpair
    have hbounds := bounds_of_mem_bracketPairs hpair
    rw [State.length_trace_of_read hread, decide_eq_true_eq]
    omega
  · exact hawaits.length_openGroups_le

/-- A group with keys, groups in it, and a quoted brace that needs no comma in front. -/
theorem readWithin_nested :
    let tokens : List Token := [.punct '(', .word "k", .punct '=', .punct '{', .text "a",
      .text "\x7d", .punct ',', .punct '(', .punct ')', .punct '}', .punct ',', .text "(",
      .punct ')']
    checkBalance [] tokens = none ∧ bracketPairs 0 [] tokens = [(7, 8), (3, 9), (0, 12)] ∧
      ReadWithin tokens := by
  intro tokens
  have hbalance : checkBalance [] tokens = none := rfl
  exact ⟨hbalance, rfl, readWithin_of_checkBalance hbalance⟩

end DocAnnotations.Argument
