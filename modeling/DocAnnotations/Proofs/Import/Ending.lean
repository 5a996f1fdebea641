import DocAnnotations.Proofs.Import.Preamble

/-! How the reading of statements ends: with a table, at a brace that closes no group, or because
the tokens end inside a statement. -/
namespace DocAnnotations.Import

open QualifiedName Text

/-- The ends of a namespace statement. -/
def EndsScope (l : Lexeme) : Prop :=
  l = .punct ';' ∨ l = .punct '{'

/-- The ends of a use statement. -/
def EndsUse (l : Lexeme) : Prop :=
  l = .punct ';'

/-- The word behind `use` in an import of functions or constants. -/
def NamesNoClass (kind : String) : Prop :=
  lower kind = "function" ∨ lower kind = "const"

instance (kind : String) : Decidable (NamesNoClass kind) :=
  inferInstanceAs (Decidable (_ ∨ _))

/-- The last statement lacks its end, and it is a namespace statement or an import of functions or
constants. The flag says whether a statement may begin in front. -/
inductive CutShort : Bool → List Lexeme → Prop
  | scope {w : String} {body : List Lexeme} : lower w = "namespace" →
      (∀ l ∈ body, ¬ EndsScope l) → CutShort true (.word w :: body)
  | skipped {w kind : String} {body : List Lexeme} : lower w = "use" → NamesNoClass kind →
      (∀ l ∈ body, ¬ EndsUse l) → CutShort true (.word w :: .word kind :: body)
  | behind_scope {w : String} {body : List Lexeme} {ending : Lexeme} {rest : List Lexeme} :
      lower w = "namespace" → (∀ l ∈ body, ¬ EndsScope l) → EndsScope ending →
      CutShort true rest → CutShort true (.word w :: (body ++ ending :: rest))
  | behind_use {w : String} {body : List Lexeme} {ending : Lexeme} {rest : List Lexeme} :
      lower w = "use" → (∀ l ∈ body, ¬ EndsUse l) → EndsUse ending →
      CutShort true rest → CutShort true (.word w :: (body ++ ending :: rest))
  | behind_other {atStart : Bool} {l : Lexeme} {rest : List Lexeme} :
      (atStart = true → ∀ w ∈ l.word?, lower w ≠ "namespace" ∧ lower w ≠ "use") →
      CutShort (endsStatement l) rest → CutShort atStart (l :: rest)

/-- The first of the tokens that ends a statement is there, and the tokens behind it are cut
short. -/
def CutBehind (Ends : Lexeme → Prop) (ls : List Lexeme) : Prop :=
  ∃ body ending rest, ls = body ++ ending :: rest ∧ (∀ l ∈ body, ¬ Ends l) ∧ Ends ending ∧
    CutShort true rest

section CutShort

variable {Ends : Lexeme → Prop} {l : Lexeme} {ls : List Lexeme} {w : String} {atStart : Bool}

theorem not_cutBehind_nil : ¬ CutBehind Ends [] := by
  rintro ⟨body, ending, rest, h, -⟩
  simp at h

theorem cutBehind_cons_of_ends (h : Ends l) : CutBehind Ends (l :: ls) ↔ CutShort true ls := by
  constructor
  · rintro ⟨body, ending, rest, heq, hbody, -, hrest⟩
    cases body with
    | nil =>
      obtain ⟨rfl, rfl⟩ := List.cons.inj heq
      exact hrest
    | cons first body =>
      obtain ⟨rfl, -⟩ := List.cons.inj heq
      exact absurd h (hbody l (by simp))
  · exact fun hrest => ⟨[], l, ls, rfl, by simp, h, hrest⟩

theorem cutBehind_cons_of_not_ends (h : ¬ Ends l) :
    CutBehind Ends (l :: ls) ↔ CutBehind Ends ls := by
  constructor
  · rintro ⟨body, ending, rest, heq, hbody, hends, hrest⟩
    cases body with
    | nil =>
      obtain ⟨rfl, -⟩ := List.cons.inj heq
      exact absurd hends h
    | cons first body =>
      obtain ⟨-, rfl⟩ := List.cons.inj heq
      exact ⟨body, ending, rest, rfl, fun k hk => hbody k (by simp [hk]), hends, hrest⟩
  · rintro ⟨body, ending, rest, rfl, hbody, hends, hrest⟩
    exact ⟨l :: body, ending, rest, rfl, List.forall_mem_cons.mpr ⟨h, hbody⟩, hends, hrest⟩

theorem not_cutShort_nil : ¬ CutShort atStart [] := nofun

theorem cutShort_scope_iff (hw : lower w = "namespace") : CutShort true (.word w :: ls) ↔
    (∀ l ∈ ls, ¬ EndsScope l) ∨ CutBehind EndsScope ls := by
  constructor
  · intro h
    cases h with
    | scope _ hbody => exact .inl hbody
    | skipped huse => simp [hw] at huse
    | behind_scope _ hbody hends hrest => exact .inr ⟨_, _, _, rfl, hbody, hends, hrest⟩
    | behind_use huse => simp [hw] at huse
    | behind_other hother => exact absurd hw (hother rfl w rfl).1
  · rintro (hbody | ⟨body, ending, rest, rfl, hbody, hends, hrest⟩)
    · exact .scope hw hbody
    · exact .behind_scope hw hbody hends hrest

theorem cutShort_use_iff (hw : lower w = "use") : CutShort true (.word w :: ls) ↔
    (∃ kind body, ls = .word kind :: body ∧ NamesNoClass kind ∧ ∀ l ∈ body, ¬ EndsUse l) ∨
      CutBehind EndsUse ls := by
  constructor
  · intro h
    cases h with
    | scope hscope => simp [hw] at hscope
    | skipped _ hkind hbody => exact .inl ⟨_, _, rfl, hkind, hbody⟩
    | behind_scope hscope => simp [hw] at hscope
    | behind_use _ hbody hends hrest => exact .inr ⟨_, _, _, rfl, hbody, hends, hrest⟩
    | behind_other hother => exact absurd hw (hother rfl w rfl).2
  · rintro (⟨kind, body, rfl, hkind, hbody⟩ | ⟨body, ending, rest, rfl, hbody, hends, hrest⟩)
    · exact .skipped hw hkind hbody
    · exact .behind_use hw hbody hends hrest

theorem cutShort_other_iff
    (h : atStart = true → ∀ w ∈ l.word?, lower w ≠ "namespace" ∧ lower w ≠ "use") :
    CutShort atStart (l :: ls) ↔ CutShort (endsStatement l) ls := by
  constructor
  · intro hcut
    cases hcut with
    | scope hw | behind_scope hw => exact absurd hw (h rfl _ rfl).1
    | skipped hw | behind_use hw => exact absurd hw (h rfl _ rfl).2
    | behind_other _ hrest => exact hrest
  · exact .behind_other h

end CutShort

/-- What is left to read from a state makes the tokens cut short. -/
def State.CutShort : State → List Lexeme → Prop
  | outside atStart, ls => Import.CutShort atStart ls
  | scope _, ls => (∀ l ∈ ls, ¬ EndsScope l) ∨ CutBehind EndsScope ls
  | opened, ls =>
    (∃ kind body, ls = .word kind :: body ∧ NamesNoClass kind ∧ ∀ l ∈ body, ¬ EndsUse l) ∨
      CutBehind EndsUse ls
  | ignored, ls => (∀ l ∈ ls, ¬ EndsUse l) ∨ CutBehind EndsUse ls
  | importing _, ls => CutBehind EndsUse ls

variable {known : String → Bool} {file : Option String} {table : AliasTable} {clause : Clause}
  {token : Token} {first next : State × AliasTable} {ls : List Lexeme}

theorem cutShort_stepOutside (atStart : Bool) (l : Lexeme) (ls : List Lexeme) :
    (stepOutside atStart l).CutShort ls ↔ CutShort atStart (l :: ls) := by
  cases l with
  | punct c => exact (cutShort_other_iff fun _ _ hw => by cases hw).symm
  | word w =>
    by_cases hscope : atStart = true ∧ lower w = "namespace"
    · obtain ⟨rfl, hw⟩ := hscope
      simpa [stepOutside, hw, State.CutShort] using (cutShort_scope_iff hw).symm
    by_cases huse : atStart = true ∧ lower w = "use"
    · obtain ⟨rfl, hw⟩ := huse
      simpa [stepOutside, hw, State.CutShort] using (cutShort_use_iff hw).symm
    have hother : atStart = true → ∀ v ∈ (Lexeme.word w).word?,
        lower v ≠ "namespace" ∧ lower v ≠ "use" := by
      rintro hstart _ ⟨rfl⟩
      exact ⟨fun hw => hscope ⟨hstart, hw⟩, fun hw => huse ⟨hstart, hw⟩⟩
    simpa [stepOutside, hscope, huse, State.CutShort, endsStatement] using
      (cutShort_other_iff hother).symm

/-- A use statement goes on up to its semicolon. -/
theorem cutShort_stepImport (h : stepImport known file table clause token = .ok next) :
    next.1.CutShort ls ↔ CutBehind EndsUse (token.lexeme :: ls) := by
  have hgoes (hl : ¬ EndsUse token.lexeme) (clause : Clause) :
      (State.importing clause).CutShort ls ↔ CutBehind EndsUse (token.lexeme :: ls) :=
    (cutBehind_cons_of_not_ends hl).symm
  unfold stepImport at h
  split at h
  next hl => cases h; exact hgoes (by simp [hl, EndsUse]) _
  next hl => cases h; exact hgoes (by simp [hl, EndsUse]) _
  next hl => cases h; exact hgoes (by simp [hl, EndsUse]) _
  next hl =>
    split at h
    next => cases h
    next => cases h; exact hgoes (by simp [hl, EndsUse]) _
  next hl =>
    cases h
    exact (cutBehind_cons_of_ends (by simpa [EndsUse] using hl)).symm
  next hl => cases h; exact hgoes (by simp_all [EndsUse]) _

theorem cutBehind_or_cons (Ends : Lexeme → Prop) (l : Lexeme) (ls : List Lexeme) :
    ((∀ k ∈ l :: ls, ¬ Ends k) ∨ CutBehind Ends (l :: ls)) ↔
      (Ends l ∧ CutShort true ls) ∨ (¬ Ends l ∧ ((∀ k ∈ ls, ¬ Ends k) ∨ CutBehind Ends ls)) := by
  by_cases h : Ends l
  · simp [h, cutBehind_cons_of_ends]
  · simp [h, cutBehind_cons_of_not_ends]

/-- A step takes one token off what is left to read. -/
theorem cutShort_step (h : step known file first token = .ok next) :
    next.1.CutShort ls ↔ first.1.CutShort (token.lexeme :: ls) := by
  obtain ⟨state, table⟩ := first
  cases state with
  | outside atStart =>
    cases h
    exact cutShort_stepOutside atStart token.lexeme ls
  | scope name =>
    simp only [step, State.CutShort, cutBehind_or_cons] at h ⊢
    split at h
    next hl => cases h; simp [hl, EndsScope]
    next c hl =>
      split at h
      next hc => cases h; simp [hl, hc, EndsScope]
      next hc => cases h; simp [hl, hc, EndsScope]
  | opened =>
    have himport (hl : ∀ kind, token.lexeme = .word kind → ¬ NamesNoClass kind) :
        (State.opened).CutShort (token.lexeme :: ls) ↔
          CutBehind EndsUse (token.lexeme :: ls) := by
      refine or_iff_right ?_
      rintro ⟨kind, body, heq, hkind, -⟩
      exact hl kind (List.cons.inj heq).1 hkind
    simp only [step] at h
    split at h
    next w hl =>
      split at h
      next hkind =>
        cases h
        have hends : ¬ EndsUse (Lexeme.word w) := by simp [EndsUse]
        simp [State.CutShort, hl, NamesNoClass, hkind, cutBehind_cons_of_not_ends hends]
      next hkind =>
        rw [himport (by simpa [hl, NamesNoClass] using hkind)]
        exact cutShort_stepImport h
    next hl =>
      rw [himport (by simp [hl])]
      exact cutShort_stepImport h
  | ignored =>
    simp only [State.CutShort, cutBehind_or_cons]
    cases h
    by_cases hl : token.lexeme = .punct ';' <;> simp [hl, EndsUse]
  | importing clause => exact cutShort_stepImport h

theorem error_of_stepImport {e : ReadError}
    (h : stepImport known file table clause token = .error e) :
    token.lexeme = .punct '}' ∧ e = { cause := .unbalancedGroup token.line file } := by
  unfold stepImport at h
  split at h
  next => cases h
  next => cases h
  next => cases h
  next hl =>
    split at h
    next => cases h; exact ⟨hl, rfl⟩
    next => cases h
  next => cases h
  next => cases h

/-- A step fails only at a brace. -/
theorem error_of_step {e : ReadError} (h : step known file first token = .error e) :
    token.lexeme = .punct '}' ∧ e = { cause := .unbalancedGroup token.line file } := by
  obtain ⟨state, table⟩ := first
  cases state with
  | outside => cases h
  | scope =>
    simp only [step] at h
    split at h
    next => cases h
    next => split at h <;> cases h
  | opened =>
    simp only [step] at h
    split at h
    next =>
      split at h
      next => cases h
      next => exact error_of_stepImport h
    next => exact error_of_stepImport h
  | ignored => cases h
  | importing clause => exact error_of_stepImport h

/-- Reading takes the tokens off what is left to read. -/
theorem cutShort_of_foldlM {tokens : List Token} {last : State × AliasTable}
    (h : tokens.foldlM (step known file) first = .ok last) :
    last.1.CutShort [] ↔ first.1.CutShort (tokens.map Token.lexeme) := by
  induction tokens generalizing first with
  | nil => cases h; rfl
  | cons token tokens ih =>
    rw [List.foldlM_cons] at h
    cases hstep : step known file first token with
    | error e => rw [hstep] at h; cases h
    | ok next =>
      rw [hstep] at h
      rw [ih h, List.map_cons, cutShort_step hstep]

/-- Reading fails where a step behind tokens that are read does. -/
theorem foldlM_eq_error_iff {tokens : List Token} {e : ReadError} :
    tokens.foldlM (step known file) first = .error e ↔
      ∃ before token after s, tokens = before ++ token :: after ∧
        Runs known file before first s ∧ step known file s token = .error e := by
  constructor
  · intro h
    induction tokens generalizing first with
    | nil => cases h
    | cons token tokens ih =>
      rw [List.foldlM_cons] at h
      cases hstep : step known file first token with
      | error e' =>
        rw [hstep] at h
        cases h
        exact ⟨[], token, tokens, first, rfl, .nil, hstep⟩
      | ok next =>
        rw [hstep] at h
        obtain ⟨before, brace, after, s, rfl, hruns, hfails⟩ := ih h
        exact ⟨token :: before, brace, after, s, rfl, .cons next hstep hruns, hfails⟩
  · rintro ⟨before, token, after, s, rfl, hruns, hfails⟩
    rw [Runs] at hruns
    rw [List.foldlM_append, hruns]
    change (token :: after).foldlM (step known file) s = .error e
    rw [List.foldlM_cons, hfails]
    rfl

/-- Reading fails only at a brace among the tokens. -/
theorem error_of_foldlM {tokens : List Token} {e : ReadError}
    (h : tokens.foldlM (step known file) first = .error e) :
    ∃ token ∈ tokens, token.lexeme = .punct '}' ∧
      e = { cause := .unbalancedGroup token.line file } := by
  obtain ⟨before, brace, after, s, rfl, -, hfails⟩ := foldlM_eq_error_iff.mp h
  exact ⟨brace, by simp, error_of_step hfails⟩

/-- At the end of the tokens only a statement that lacks its end stands in the way of the table. -/
theorem finish_cases (s : State × AliasTable) :
    finish s = .ok s.2 ∧ ¬ s.1.CutShort [] ∨
      finish s = .error .unfinishedStatement ∧ s.1.CutShort [] := by
  obtain ⟨state, table⟩ := s
  cases state with
  | outside => exact .inl ⟨rfl, not_cutShort_nil⟩
  | scope => exact .inr ⟨rfl, .inl (by simp)⟩
  | opened => exact .inl ⟨rfl, by simp [State.CutShort, not_cutBehind_nil]⟩
  | ignored => exact .inr ⟨rfl, .inl (by simp)⟩
  | importing => exact .inl ⟨rfl, not_cutBehind_nil⟩

/-- Reading a source gives a table, finds a brace that closes no group, or stops because the last
statement in front of the class is cut short. A table is given only where it is not. -/
theorem ofSource_cases (known : String → Bool) (source : String) (file : Option String) :
    (∃ table, AliasTable.ofSource known source file = .ok table ∧
      ¬ CutShort true ((lex (preamble source)).map Token.lexeme)) ∨
    (∃ token ∈ lex (preamble source), token.lexeme = .punct '}' ∧
      AliasTable.ofSource known source file =
        .error (.error { cause := .unbalancedGroup token.line file })) ∨
    (AliasTable.ofSource known source file = .error .unfinishedStatement ∧
      CutShort true ((lex (preamble source)).map Token.lexeme)) := by
  unfold AliasTable.ofSource tableOfTokens
  split
  next last hlast =>
    have hcut := cutShort_of_foldlM hlast
    obtain ⟨hfinish, hend⟩ | ⟨hfinish, hend⟩ := finish_cases last
    · exact .inl ⟨last.2, hfinish, fun h => hend (hcut.mpr h)⟩
    · exact .inr (.inr ⟨hfinish, hcut.mp hend⟩)
  next e he =>
    obtain ⟨token, hmem, hbrace, rfl⟩ := error_of_foldlM he
    exact .inr (.inl ⟨token, hmem, hbrace, rfl⟩)

/-- A namespace statement that the end of a code block ends gives no table and no error. -/
theorem not_total_ofSource :
    ¬ ((∃ table, AliasTable.ofSource (fun _ => false)
        "<?php\nnamespace App ?>\n<?php\nclass Host \x7b\x7d\n" none = .ok table) ∨
      ∃ line file, AliasTable.ofSource (fun _ => false)
        "<?php\nnamespace App ?>\n<?php\nclass Host \x7b\x7d\n" none =
          .error (.error { cause := .unbalancedGroup line file })) := by
  have hstop : AliasTable.ofSource (fun _ => false)
      "<?php\nnamespace App ?>\n<?php\nclass Host \x7b\x7d\n" none =
        .error .unfinishedStatement := by
    decide +kernel
  rw [hstop]
  rintro (⟨table, h⟩ | ⟨line, file, h⟩) <;> cases h

end DocAnnotations.Import
