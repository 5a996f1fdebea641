import DocAnnotations.Proofs.Import.Ending
import DocAnnotations.Proofs.Import.Markup

/-! The brace at which reading statements fails, since no group is open for it, and the line that is
reported for it. -/
namespace DocAnnotations.Import

open QualifiedName Text

/-- The reader stands in an import of classes that has no group open. -/
def State.Ungrouped : State → Prop
  | opened => True
  | importing clause => clause.base = ""
  | outside _ | scope _ | ignored => False

/-- Behind the front of a source stands a closing brace, in front of the class and neither in a
comment nor between quotes, and the import of classes that it stands in has no group open. -/
structure Offends (known : String → Bool) (source : String) (front : List Char) : Prop where
  stands : front ++ ['}'] <+: preambleOf source.toList
  token : (lexFrom 1 (front ++ ['}'])).map Token.lexeme =
    (lexFrom 1 front).map Token.lexeme ++ [.punct '}']
  ungrouped : ∃ state table, readLexemes known (.outside true, {})
    ((lexFrom 1 front).map Token.lexeme) = some (state, table) ∧ state.Ungrouped

/-- A text that is empty or begins with a closing brace. -/
def Halts (tail : List Char) : Prop :=
  ∀ c ∈ tail.head?, c = '}'

variable {known : String → Bool} {source : String} {file : Option String} {c quote : Char}
  {line l : Nat} {cs ds front behind other skipped rest tail : List Char}

theorem halts_nil : Halts [] := nofun

theorem halts_brace (more : List Char) : Halts ('}' :: more) := by
  intro c hc
  cases hc
  rfl

section Skip

theorem head?_cutBlock (cs : List Char) : (cutBlock cs).1.head? = cs.head? := by
  fun_cases cutBlock cs <;> rfl

/-- A block comment behind which the text goes on ends there, whatever follows. -/
theorem cutBlock_goes_on (h : (cutBlock cs).2 ≠ []) (more : List Char) :
    cutBlock ((cutBlock cs).1 ++ more) = ((cutBlock cs).1, more) := by
  fun_induction cutBlock cs with
  | case1 => exact absurd rfl h
  | case2 cs => rfl
  | case3 c cs hnot skipped rest hcut ih =>
    have hhead := head?_cutBlock cs
    rw [hcut] at hhead ih
    rw [List.cons_append, cutBlock, ih h]
    -- The comment does not end at this character in front of another text either.
    intro ds hc heq
    cases skipped with
    | nil =>
      obtain rfl := List.head?_eq_none_iff.mp hhead.symm
      cases hcut
      exact h rfl
    | cons d skipped =>
      obtain ⟨rfl, -⟩ := List.cons.inj heq
      obtain ⟨es, hcs⟩ := List.head?_eq_some_iff.mp hhead.symm
      exact hnot es hc hcs

/-- A quoted text behind which the text goes on ends there, whatever follows. -/
theorem cutQuoted_goes_on (hquote : quote ≠ '\\') (h : (cutQuoted quote cs).2 ≠ [])
    (more : List Char) :
    cutQuoted quote ((cutQuoted quote cs).1 ++ more) = ((cutQuoted quote cs).1, more) := by
  fun_induction cutQuoted quote cs with
  | case1 => exact absurd rfl h
  | case2 c cs skipped rest hcut ih =>
    rw [hcut] at ih
    rw [List.cons_append, List.cons_append, cutQuoted, ih h]
  | case3 cs hguard =>
    rw [List.singleton_append, cutQuoted, if_pos rfl]
    exact fun _ _ hslash _ => hquote hslash
  | case4 c cs hguard hc skipped rest hcut ih =>
    rw [hcut] at ih
    rw [List.cons_append, cutQuoted, if_neg hc, ih h]
    -- A backslash that guards nothing is the last character of the text.
    intro d ds hslash _
    cases cs with
    | nil =>
      cases hcut
      exact h rfl
    | cons e es => exact hguard e es hslash rfl

/-- Where nothing is passed over, a text that is cut in front of a brace changes nothing. -/
theorem cutSkipped_none_halts (h : cutSkipped c (front ++ '}' :: behind) = none)
    (htail : Halts tail) : cutSkipped c (front ++ tail) = none := by
  rw [cutSkipped_eq_none_iff] at h ⊢
  cases front with
  | cons d front => exact h
  | nil =>
    cases tail with
    | nil => simpa [opensSkipped] using h
    | cons d tail =>
      obtain rfl := htail d rfl
      exact h

/-- A line comment behind which the text goes on ends with its line, whatever follows. -/
theorem line_goes_on (h : cs.dropWhile (· ≠ '\n') = front ++ '}' :: behind) (tail : List Char) :
    (cs.takeWhile (· ≠ '\n') ++ (front ++ tail)).head? = cs.head? ∧
      (cs.takeWhile (· ≠ '\n') ++ (front ++ tail)).takeWhile (· ≠ '\n') =
        cs.takeWhile (· ≠ '\n') ∧
      (cs.takeWhile (· ≠ '\n') ++ (front ++ tail)).dropWhile (· ≠ '\n') = front ++ tail := by
  have hline : '\n' ∉ cs.takeWhile (· ≠ '\n') := by
    intro hmem
    simpa using List.mem_takeWhile_imp hmem
  have hhead := List.head?_dropWhile_not (· ≠ '\n') cs
  rw [h] at hhead
  cases front with
  | nil => simp at hhead
  | cons d front =>
    obtain rfl : d = '\n' := by simpa using hhead
    refine ⟨?_, Item.takeWhile_line hline _, Item.dropWhile_line hline _⟩
    have hcs : cs.takeWhile (· ≠ '\n') ++ '\n' :: (front ++ '}' :: behind) = cs := by
      rw [← List.cons_append, ← h, List.takeWhile_append_dropWhile]
    calc (cs.takeWhile (· ≠ '\n') ++ '\n' :: (front ++ tail)).head?
        = (cs.takeWhile (· ≠ '\n') ++ '\n' :: (front ++ '}' :: behind)).head? := by
          simp only [List.head?_append, List.head?_cons]
      _ = cs.head? := by rw [hcs]

/-- A text without a brace is found in a text that is cut in front of one only if it stands in
front. -/
theorem exists_eq_append_of_halts (hcs : '}' ∉ cs) (htail : Halts tail)
    (h : front ++ tail = cs ++ rest) : ∃ more, front = cs ++ more := by
  rcases List.append_eq_append_iff.mp h with ⟨more, rfl, hmore⟩ | ⟨more, hfront, -⟩
  · cases more with
    | nil => exact ⟨[], by simp⟩
    | cons d more =>
      have hd : d = '}' := htail d (by simp [hmore])
      simp [hd] at hcs
  · exact ⟨more, hfront⟩

/-- What is passed over stays so where the text behind it is cut in front of a brace. -/
theorem cutSkipped_some_halts (h : cutSkipped c cs = some (skipped, front ++ '}' :: behind))
    (htail : Halts tail) :
    cutSkipped c (skipped ++ (front ++ tail)) = some (skipped, front ++ tail) := by
  simp only [cutSkipped] at h
  split at h
  next =>
    cases h
    rfl
  next rest hphp =>
    obtain ⟨rfl, rfl⟩ : ['?'] = skipped ∧ rest = front ++ '}' :: behind := by simpa using h
    rw [List.singleton_append, cutSkipped]
    intro ds heq
    have hphp' : '}' ∉ ['p', 'h', 'p'] := by decide
    have hword : front ++ tail = ['p', 'h', 'p'] ++ ds := heq
    obtain ⟨more, rfl⟩ := exists_eq_append_of_halts hphp' htail hword
    exact hphp _ rfl
  next =>
    cases h
    rfl
  next rest =>
    obtain ⟨rfl, hrest⟩ := Prod.mk.inj (Option.some.inj h)
    obtain ⟨-, htake, hdrop⟩ := line_goes_on hrest tail
    rw [List.cons_append, cutSkipped, htake, hdrop]
  next rest =>
    obtain ⟨rfl, hrest⟩ := Prod.mk.inj (Option.some.inj h)
    rw [List.cons_append, cutSkipped, cutBlock_goes_on (by simp [hrest])]
  next =>
    split at h
    next => cases h
    next hbracket =>
      obtain ⟨rfl, hrest⟩ := Prod.mk.inj (Option.some.inj h)
      obtain ⟨hhead, htake, hdrop⟩ := line_goes_on hrest tail
      rw [cutSkipped, if_neg (hhead ▸ hbracket), htake, hdrop]
  next =>
    split at h
    next hquote =>
      have hguard : c ≠ '\\' := by
        rintro rfl
        exact absurd hquote (by decide)
      have hcut := Option.some.inj h
      have hgoes : (cutQuoted c cs).2 ≠ [] := by simp [hcut]
      have hmore := cutQuoted_goes_on hguard hgoes (front ++ tail)
      rw [hcut] at hmore
      rw [cutSkipped_quote hquote, hmore]
    next => cases h

end Skip

section Lines

variable {before after : List Token}

theorem isNamePart_brace : isNamePart '}' = false := by decide

theorem lexFrom_brace (l : Nat) (more : List Char) :
    lexFrom l ('}' :: more) = ⟨.punct '}', l⟩ :: lexFrom l more :=
  lexFrom_sign (by decide) (cutSkipped_of_not_mem (by decide) more) isNamePart_brace

/-- Behind what is read of a word stands no part of a name, also if the text is cut in front of a
brace. -/
theorem head_of_dropWhile_halts (h : cs.dropWhile isNamePart = front ++ '}' :: behind)
    (htail : Halts tail) : ∀ c ∈ (front ++ tail).head?, isNamePart c = false := by
  intro c hc
  cases front with
  | nil =>
    rw [htail c hc]
    exact isNamePart_brace
  | cons d front =>
    have hhead := List.head?_dropWhile_not isNamePart cs
    rw [h] at hhead
    obtain rfl : d = c := by simpa using hc
    simpa using hhead

/-- In a text that begins on `line`, a brace stands behind `front`, on the line that the line feeds
in front of it count. The tokens in front of it are those of the text in front of it, whether the
brace stands there or not. -/
structure ReadBehind (line : Nat) (cs : List Char) (before : List Token) (l : Nat)
    (front behind : List Char) : Prop where
  text : cs = front ++ '}' :: behind
  line_eq : l = line + front.count '\n'
  tokens : ∀ tail, Halts tail → lexFrom line (front ++ tail) = before ++ lexFrom l tail

/-- The same holds behind characters that are read before, if their line feeds are counted. -/
theorem ReadBehind.append {next : Nat} (h : ReadBehind next rest before l front behind)
    (first : List Char) (read : List Token) (hline : next = line + first.count '\n')
    (hread : ∀ tail, Halts tail →
      lexFrom line (first ++ (front ++ tail)) = read ++ lexFrom next (front ++ tail)) :
    ReadBehind line (first ++ rest) (read ++ before) l (first ++ front) behind := by
  refine ⟨?_, ?_, fun tail htail => ?_⟩
  · rw [h.text, List.append_assoc]
  · rw [h.line_eq, hline, List.count_append, Nat.add_assoc]
  · rw [List.append_assoc, hread tail htail, h.tokens tail htail, List.append_assoc]

/-- A brace among the tokens stands somewhere in the text. -/
theorem exists_readBehind (h : lexFrom line cs = before ++ ⟨.punct '}', l⟩ :: after) :
    ∃ front behind, ReadBehind line cs before l front behind := by
  fun_induction lexFrom line cs generalizing before with
  | case1 => simp at h
  | case2 line cs ih =>
    obtain ⟨front, behind, hbehind⟩ := ih h
    refine ⟨_, _, hbehind.append ['\n'] [] rfl fun tail _ => ?_⟩
    rw [List.singleton_append, lexFrom, if_pos rfl, List.nil_append]
  | case3 line c cs hline hblank ih =>
    obtain ⟨front, behind, hbehind⟩ := ih h
    have hcount : line = line + [c].count '\n' := by simp [hline]
    refine ⟨_, _, hbehind.append [c] [] hcount fun tail _ => ?_⟩
    rw [List.singleton_append, lexFrom_blank hblank hline, List.nil_append]
  | case4 line c cs hline hblank skipped rest hskip ih =>
    rw [Bool.not_eq_true] at hblank
    obtain ⟨front, behind, hbehind⟩ := ih h
    have happend := cutSkipped_append hskip
    have hcount : line + skipped.count '\n' = line + (c :: skipped).count '\n' := by
      rw [List.count_cons_of_ne hline]
    have hread := hbehind.append (c :: skipped) [] hcount fun tail htail => by
      have hskip' := cutSkipped_some_halts (hbehind.text ▸ hskip) htail
      rw [List.cons_append, lexFrom_skip hblank hskip', List.nil_append]
    rw [List.cons_append, happend] at hread
    exact ⟨_, _, hread⟩
  | case5 line c cs hline hblank hskip hc ih =>
    cases before with
    | nil => simp at h
    | cons token before =>
      obtain ⟨rfl, hrest⟩ := List.cons.inj h
      obtain ⟨front, behind, hbehind⟩ := ih hrest
      have hall : ∀ d ∈ c :: cs.takeWhile isNamePart, isNamePart d = true :=
        List.forall_mem_cons.mpr ⟨hc, fun d hd => List.mem_takeWhile_imp hd⟩
      have hword : IsWord (c :: cs.takeWhile isNamePart) := ⟨List.cons_ne_nil _ _, hall⟩
      have hcount : line = line + (c :: cs.takeWhile isNamePart).count '\n' := by
        have hnone : '\n' ∉ c :: cs.takeWhile isNamePart :=
          fun hmem => ne_newline_of_not_blank (hword.noBlank _ hmem) rfl
        rw [List.count_eq_zero.mpr hnone, Nat.add_zero]
      have hread := hbehind.append (c :: cs.takeWhile isNamePart) [_] hcount fun tail htail =>
        hword.lexFrom_of_head (head_of_dropWhile_halts hbehind.text htail)
      rw [List.cons_append, List.takeWhile_append_dropWhile] at hread
      exact ⟨_, _, hread⟩
  | case6 line c cs hline hblank hskip hc ih =>
    rw [Bool.not_eq_true] at hblank hc
    cases before with
    | nil =>
      obtain ⟨htoken, -⟩ := List.cons.inj h
      obtain ⟨rfl, rfl⟩ : c = '}' ∧ line = l := by simpa using htoken
      exact ⟨[], cs, rfl, rfl, fun tail _ => rfl⟩
    | cons token before =>
      obtain ⟨rfl, hrest⟩ := List.cons.inj h
      obtain ⟨front, behind, hbehind⟩ := ih hrest
      have hcount : line = line + [c].count '\n' := by simp [hline]
      refine ⟨_, _, hbehind.append [c] [_] hcount fun tail htail => ?_⟩
      have hskip' := cutSkipped_none_halts (hbehind.text ▸ hskip) htail
      rw [List.singleton_append, lexFrom_sign hblank hskip' hc, List.singleton_append]

end Lines

section Step

variable {token : Token} {tokens : List Token} {first s : State × AliasTable} {e : ReadError}

/-- A step fails exactly at a closing brace in an import of classes without an open group. -/
theorem step_eq_error_iff : step known file s token = .error e ↔
    s.1.Ungrouped ∧ token.lexeme = .punct '}' ∧
      e = { cause := .unbalancedGroup token.line file } := by
  obtain ⟨state, table⟩ := s
  constructor
  · intro h
    refine ⟨?_, error_of_step h⟩
    have hbrace := (error_of_step h).1
    cases state with
    | outside => cases h
    | scope => simp [step, hbrace] at h
    | opened => trivial
    | ignored => cases h
    | importing clause =>
      by_contra hgrouped
      have hbase : ¬ clause.base = "" := hgrouped
      simp [step, stepImport, hbrace, hbase] at h
  · rintro ⟨hungrouped, hbrace, rfl⟩
    cases state with
    | outside | scope | ignored => exact hungrouped.elim
    | opened => simp [step, stepImport, hbrace]
    | importing clause =>
      have hbase : clause.base = "" := hungrouped
      simp [step, stepImport, hbrace, hbase]

/-- Lines and the file do not count for whether tokens can be read, and where they lead. -/
theorem runs_iff : Runs known file tokens first s ↔
    readLexemes known first (tokens.map Token.lexeme) = some s := by
  have hread : (tokens.foldlM (step known file) first).toOption = _ := toOption_foldlM tokens
  rw [Runs, ← hread]
  cases tokens.foldlM (step known file) first with
  | error e => simp [Except.toOption]
  | ok last => simp [Except.toOption]

theorem readLexemes_brace (hungrouped : s.1.Ungrouped) (ls : List Lexeme) :
    readLexemes known s (.punct '}' :: ls) = none := by
  have hfails : step known none s ⟨.punct '}', 1⟩ = .error _ :=
    step_eq_error_iff.mpr ⟨hungrouped, rfl, rfl⟩
  rw [readLexemes_cons, stepLexeme, hfails]
  rfl

end Step

namespace Offends

/-- The brace is read behind the text in front of it, and then what follows it. -/
theorem lexFrom_append (h : Offends known source front) (more : List Char) :
    lexFrom 1 (front ++ '}' :: more) = lexFrom 1 front ++
      ⟨.punct '}', 1 + front.count '\n'⟩ :: lexFrom (1 + front.count '\n') more := by
  obtain ⟨before, last, hsplit, hbefore, hlast⟩ := List.map_eq_append_iff.mp h.token
  obtain ⟨⟨lexeme, l⟩, _, rfl, rfl, hnil⟩ := List.map_eq_cons_iff.mp hlast
  obtain rfl := List.map_eq_nil_iff.mp hnil
  obtain ⟨front', behind, heq, hline, htokens⟩ := exists_readBehind hsplit
  -- A brace further in front would be read as part of the text in front of the last one.
  have hlast : behind = [] := by
    by_contra hne
    obtain ⟨init, d, rfl⟩ := List.eq_nil_or_concat' behind |>.resolve_left hne
    have hfront : front = front' ++ '}' :: init := by
      rw [← List.cons_append, ← List.append_assoc] at heq
      exact (List.append_inj' heq rfl).1
    have hread := htokens ('}' :: init) (halts_brace init)
    rw [← hfront, lexFrom_brace] at hread
    have hlength := congrArg List.length hbefore
    simp [hread] at hlength
  subst hlast
  obtain rfl : front = front' := (List.append_inj' heq rfl).1
  have hself := htokens [] halts_nil
  rw [List.append_nil, lexFrom, List.append_nil] at hself
  rw [htokens _ (halts_brace more), lexFrom_brace, hself, ← hline]

theorem runs (h : Offends known source front) : ∃ s, s.1.Ungrouped ∧
    Runs known file (lexFrom 1 front) (.outside true, {}) s := by
  obtain ⟨state, table, hread, hungrouped⟩ := h.ungrouped
  exact ⟨(state, table), hungrouped, runs_iff.mpr hread⟩

/-- No such brace stands in front of another. -/
theorem not_isPrefix (h : Offends known source front) (hother : Offends known source other) :
    ¬ front ++ ['}'] <+: other := by
  rintro ⟨more, rfl⟩
  obtain ⟨state, table, hread, hungrouped⟩ := h.ungrouped
  obtain ⟨state', table', hread', -⟩ := hother.ungrouped
  rw [List.append_assoc, List.singleton_append, h.lexFrom_append, List.map_append, List.map_cons,
    readLexemes_append, hread, Option.bind_some, readLexemes_brace hungrouped] at hread'
  cases hread'

theorem unique (h : Offends known source front) (hother : Offends known source other) :
    other = front := by
  rcases List.prefix_or_prefix_of_prefix h.stands hother.stands with hprefix | hprefix
  · rcases List.prefix_concat_iff.mp hprefix with heq | hshort
    · exact (List.append_inj' heq rfl).1.symm
    · exact absurd hshort (h.not_isPrefix hother)
  · rcases List.prefix_concat_iff.mp hprefix with heq | hshort
    · exact (List.append_inj' heq rfl).1
    · exact absurd hshort (hother.not_isPrefix h)

end Offends

theorem preambleOf_isPrefix (cs : List Char) : preambleOf cs <+: cs := by
  obtain ⟨rest, hrest⟩ := List.takeWhile_prefix (!beginsDeclaration ·) (l := lines cs)
  refine ⟨rest.flatten, ?_⟩
  rw [preambleOf, ← List.flatten_append, hrest, flatten_lines]

theorem ofSource_eq_error_iff {e : ReadError} :
    AliasTable.ofSource known source file = .error (.error e) ↔
      (lexFrom 1 (preambleOf source.toList)).foldlM (step known file) (.outside true, {}) =
        .error e := by
  rw [AliasTable.ofSource, tableOfTokens, lex, preamble, String.toList_ofList]
  cases (lexFrom 1 (preambleOf source.toList)).foldlM (step known file) (.outside true, {}) with
  | error e' => simp
  | ok last =>
    obtain ⟨hfinish, -⟩ | ⟨hfinish, -⟩ := finish_cases last <;> simp [hfinish]

/-- Reading a source fails exactly where a closing brace stands in an import of classes that has no
group open. There is one such brace, and the line of the error is one more than there are line feeds
in front of it in the source. -/
theorem ofSource_unbalanced (known : String → Bool) (source : String) (file : Option String)
    (e : ReadError) :
    AliasTable.ofSource known source file = .error (.error e) ↔
      ∃ front, Offends known source front ∧
        (∀ other, Offends known source other → other = front) ∧
        front ++ ['}'] <+: source.toList ∧
        e = { cause := .unbalancedGroup (1 + front.count '\n') file } ∧
        e.cause.context.get? "line" = some (.int (1 + front.count '\n')) := by
  rw [ofSource_eq_error_iff, foldlM_eq_error_iff]
  constructor
  · rintro ⟨before, ⟨lexeme, l⟩, after, s, hsplit, hruns, hfails⟩
    obtain ⟨hungrouped, rfl, rfl⟩ := step_eq_error_iff.mp hfails
    obtain ⟨front, behind, hsource, rfl, htokens⟩ := exists_readBehind hsplit
    have hbefore := htokens [] halts_nil
    rw [List.append_nil, lexFrom, List.append_nil] at hbefore
    have hbrace := htokens ['}'] (halts_brace [])
    rw [lexFrom_brace, lexFrom, ← hbefore] at hbrace
    have hstands : front ++ ['}'] <+: preambleOf source.toList := ⟨behind, by simp [hsource]⟩
    have hoffends : Offends known source front := by
      refine ⟨hstands, ?_, s.1, s.2, ?_, hungrouped⟩
      · rw [hbrace, List.map_append]
        rfl
      · exact runs_iff.mp (hbefore ▸ hruns)
    exact ⟨front, hoffends, fun other hother => hoffends.unique hother,
      hstands.trans (preambleOf_isPrefix _), rfl, rfl⟩
  · rintro ⟨front, hoffends, -, -, rfl, -⟩
    obtain ⟨behind, hbehind⟩ := hoffends.stands
    obtain ⟨s, hungrouped, hruns⟩ := hoffends.runs
    have htokens := hoffends.lexFrom_append behind
    rw [← hbehind, List.append_assoc, List.singleton_append]
    exact ⟨_, _, _, s, htokens, hruns, step_eq_error_iff.mpr ⟨hungrouped, rfl, rfl⟩⟩

/-- Braces in comments and between quotes, a guarded line feed, tags, and other characters that end
lines stand in front of a brace on the seventh line. -/
theorem ofSource_unbalanced_skipped :
    let front := ("<?php\r\n// one \x7d\n/* two\n \x7d */ " ++
      "$s = 'a\\\n\x7d\u2028';\x0b# three \x7d\n<?\nuse A\\B,\r C ").toList
    let source := String.ofList (front ++ "\x7d;\nclass Host \x7b\x7d\n".toList)
    Offends (fun _ => false) source front ∧
      AliasTable.ofSource (fun _ => false) source (some "Host.php") =
        .error (.error { cause := .unbalancedGroup 7 (some "Host.php") }) := by
  intro front source
  have hstands : front ++ ['}'] <+: preambleOf source.toList := by
    rw [String.toList_ofList]
    decide +kernel
  have htoken : (lexFrom 1 (front ++ ['}'])).map Token.lexeme =
      (lexFrom 1 front).map Token.lexeme ++ [.punct '}'] := by decide +kernel
  have hread : readLexemes (fun _ => false) (.outside true, {})
      ((lexFrom 1 front).map Token.lexeme) =
        some (.importing { current := "C" }, { imports := [("A\\B", "B")] }) := by
    decide +kernel
  have hoffends : Offends (fun _ => false) source front := ⟨hstands, htoken, _, _, hread, rfl⟩
  have hline : 1 + front.count '\n' = 7 := by decide
  have herror := (ofSource_unbalanced (fun _ => false) source (some "Host.php") _).mpr
    ⟨front, hoffends, fun other hother => hoffends.unique hother,
      hstands.trans (preambleOf_isPrefix _), rfl, rfl⟩
  rw [hline] at herror
  exact ⟨hoffends, herror⟩

end DocAnnotations.Import
