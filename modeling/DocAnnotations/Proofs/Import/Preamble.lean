import DocAnnotations.Proofs.Import.Table

/-! The alias table of a preamble, from its text to the classes that its local names stand for. -/
namespace DocAnnotations.Import

open QualifiedName Text

theorem le_toNat_of_isAlphanum {c : Char} (h : c.isAlphanum = true) : 48 ≤ c.toNat := by
  have hlow : ∀ n < 48, (Char.ofNat n).isAlphanum = false := by decide
  by_contra hlt
  have hc := hlow c.toNat (Nat.lt_of_not_le hlt)
  rw [Char.ofNat_toNat, h] at hc
  cases hc

/-- A part of a name is above the digit zero in ASCII, or it is a letter of the table. -/
theorem isNamePart_cases {c : Char} (h : isNamePart c = true) :
    48 ≤ c.toNat ∧ c.toNat < 128 ∨ ∃ i ∈ letterIntervals, i.1 ≤ c.toNat ∧ c.toNat ≤ i.2 := by
  rw [isNamePart, isWordChar, isLetterOrNumber] at h
  simp only [Bool.or_eq_true, decide_eq_true_eq] at h
  obtain (rfl | h) | rfl := h
  · exact .inl (by decide)
  · split at h
    next hascii => exact .inl ⟨le_toNat_of_isAlphanum h, hascii⟩
    next => exact .inr (Interval.contains_iff.mp h)
  · exact .inl (by decide)

theorem isBlank_of_isNamePart {c : Char} (h : isNamePart c = true) : isBlank c = false := by
  have hascii : ∀ blanks ∈ blankIntervals, blanks.2 < 48 ∨ 128 ≤ blanks.1 := by decide
  have hletters : ∀ letters ∈ letterIntervals, ∀ blanks ∈ blankIntervals,
      letters.2 < blanks.1 ∨ blanks.2 < letters.1 := by decide +kernel
  rw [← Bool.not_eq_true, isBlank, Interval.contains_iff]
  rintro ⟨blanks, hblanks, hlow, hhigh⟩
  obtain ⟨hlow', hhigh'⟩ | ⟨letters, hmem, hlow', hhigh'⟩ := isNamePart_cases h
  · have := hascii blanks hblanks
    omega
  · have := hletters letters hmem blanks hblanks
    omega

/-- The words of a text hold no white space. -/
theorem noBlank_of_mem_lexFrom {line : Nat} {cs : List Char} {token : Token} {w : String}
    (h : token ∈ lexFrom line cs) (hw : token.lexeme = .word w) :
    ∀ c ∈ w.toList, isBlank c = false := by
  fun_induction lexFrom line cs with
  | case1 => cases h
  | case2 _ _ ih | case3 _ _ _ _ _ ih | case4 _ _ _ _ _ _ _ _ ih => exact ih h
  | case5 line c cs hl hb hs hc ih =>
    obtain rfl | h := List.mem_cons.mp h
    · cases hw
      intro d hd
      rw [String.toList_ofList, List.mem_cons] at hd
      obtain rfl | hd := hd
      · exact isBlank_of_isNamePart hc
      · have hall := List.all_takeWhile (p := isNamePart) (l := cs)
        exact isBlank_of_isNamePart (List.all_eq_true.mp hall d hd)
    · exact ih h
  | case6 line c cs hl hb hs hc ih =>
    obtain rfl | h := List.mem_cons.mp h
    · cases hw
    · exact ih h

theorem noBlank_of_mem_lexemes {text w : String} (h : .word w ∈ (lex text).map Token.lexeme) :
    ∀ c ∈ w.toList, isBlank c = false := by
  obtain ⟨token, hmem, hw⟩ := List.mem_map.mp h
  exact noBlank_of_mem_lexFrom hmem hw

variable {known : String → Bool} {file : Option String} {table : AliasTable} {tokens : List Token}

def Lexeme.word? : Lexeme → Option String
  | .word w => some w
  | .punct _ => none

/-- Other statements: without the words that begin a namespace statement or a use statement. -/
def Idle (lexemes : List Lexeme) : Prop :=
  ∀ l ∈ lexemes, ∀ w ∈ l.word?, lower w ≠ "namespace" ∧ lower w ≠ "use"

instance (lexemes : List Lexeme) : Decidable (Idle lexemes) :=
  inferInstanceAs (Decidable (∀ l ∈ lexemes, ∀ w ∈ l.word?, _ ∧ _))

/-- Where a statement may begin stands no word that begins one of these two. The flag says whether
one may begin in front. -/
def Idles : Bool → List Lexeme → Prop
  | _, [] => True
  | atStart, l :: rest =>
    (atStart = true → ∀ w ∈ l.word?, lower w ≠ "namespace" ∧ lower w ≠ "use") ∧
      Idles (endsStatement l) rest

instance Idles.decidable : (atStart : Bool) → (lexemes : List Lexeme) →
    Decidable (Idles atStart lexemes)
  | _, [] => isTrue trivial
  | _, l :: rest =>
    have := Idles.decidable (endsStatement l) rest
    inferInstanceAs (Decidable ((_ → ∀ w ∈ l.word?, _ ∧ _) ∧ _))

theorem Idle.idles {lexemes : List Lexeme} (h : Idle lexemes) (atStart : Bool) :
    Idles atStart lexemes := by
  induction lexemes generalizing atStart with
  | nil => trivial
  | cons l rest ih =>
    exact ⟨fun _ => h l List.mem_cons_self, ih (fun k hk => h k (List.mem_cons_of_mem _ hk)) _⟩

/-- A namespace statement, with a semicolon or a brace at its end. -/
structure ScopeStatement where
  keyword : String := "namespace"
  name : String
  ending : Char := ';'

structure ScopeStatement.Proper (s : ScopeStatement) : Prop where
  keyword : lower s.keyword = "namespace"
  ending : s.ending = ';' ∨ s.ending = '{'

instance (s : ScopeStatement) : Decidable s.Proper :=
  decidable_of_iff (_ ∧ _)
    ⟨fun ⟨hkeyword, hending⟩ => ⟨hkeyword, hending⟩, fun h => ⟨h.keyword, h.ending⟩⟩

def ScopeStatement.lexemes (s : ScopeStatement) : List Lexeme :=
  [.word s.keyword, .word s.name, .punct s.ending]

/-- The statement imports a class, and another name for it is one segment. -/
structure UseStatement.Proper (s : UseStatement) : Prop where
  keyword : lower s.keyword = "use"
  written : lower s.written ∉ ["function", "const", "as"]
  lastSegment : lastSegment s.written ≠ ""
  renamed : ∀ r ∈ s.renamed, lower r.1 = "as" ∧ lower r.2 ≠ "as" ∧ r.2 ≠ "" ∧ '\\' ∉ r.2.toList

instance (s : UseStatement) : Decidable s.Proper :=
  decidable_of_iff (_ ∧ _ ∧ _ ∧ _)
    ⟨fun ⟨hkeyword, hwritten, hlast, hrenamed⟩ => ⟨hkeyword, hwritten, hlast, hrenamed⟩,
      fun h => ⟨h.keyword, h.written, h.lastSegment, h.renamed⟩⟩

def UseStatement.lexemes (s : UseStatement) : List Lexeme :=
  [.word s.keyword, .word s.written] ++
    (match s.renamed with
      | some (as, name) => [.word as, .word name]
      | none => []) ++ [.punct ';']

/-- What stands in front of a class: other statements, a namespace statement, use statements, and
what else is there. -/
structure Preamble where
  opening : List Lexeme := []
  scope : Option ScopeStatement := none
  imports : List UseStatement
  closing : List Lexeme := []

namespace Preamble

def lexemes (p : Preamble) : List Lexeme :=
  p.opening ++ (p.scope.elim [] ScopeStatement.lexemes ++
    (p.imports.flatMap UseStatement.lexemes ++ p.closing))

/-- The namespace, which is empty where there is no statement. -/
def scopeName (p : Preamble) : String :=
  p.scope.elim "" fun s => dropOuter s.name

structure Proper (p : Preamble) : Prop where
  opening : Idle p.opening
  opened : ∀ last ∈ p.opening.getLast?, endsStatement last = true
  scope : ∀ s ∈ p.scope, s.Proper
  imports : ∀ s ∈ p.imports, s.Proper
  closing : Idle p.closing

instance (p : Preamble) : Decidable p.Proper :=
  decidable_of_iff (_ ∧ _ ∧ _ ∧ _ ∧ _)
    ⟨fun ⟨hopening, hopened, hscope, himports, hclosing⟩ =>
      ⟨hopening, hopened, hscope, himports, hclosing⟩,
      fun h => ⟨h.opening, h.opened, h.scope, h.imports, h.closing⟩⟩

/-- The tokens in front of the first class of a source are those of a preamble. -/
structure Begins (p : Preamble) (source : String) : Prop extends p.Proper where
  lexemes_eq : (lex (preamble source)).map Token.lexeme = p.lexemes

end Preamble

/-- The reader of statements goes from one state and table to another over tokens. -/
def Runs (known : String → Bool) (file : Option String) (tokens : List Token)
    (first last : State × AliasTable) : Prop :=
  tokens.foldlM (step known file) first = .ok last

namespace Runs

variable {first middle last : State × AliasTable} {token : Token} {rest : List Token}

theorem nil : Runs known file [] first first := rfl

theorem cons (middle : State × AliasTable) (hstep : step known file first token = .ok middle)
    (hrest : Runs known file rest middle last) : Runs known file (token :: rest) first last := by
  rw [Runs, List.foldlM_cons, hstep]
  exact hrest

theorem append (hfirst : Runs known file tokens first middle)
    (hrest : Runs known file rest middle last) : Runs known file (tokens ++ rest) first last := by
  rw [Runs, List.foldlM_append, hfirst]
  exact hrest

/-- Other statements leave the table as it is. -/
theorem idles {atStart : Bool} (hidle : Idles atStart (tokens.map Token.lexeme)) :
    Runs known file tokens (.outside atStart, table)
      (.outside (((tokens.map Token.lexeme).getLast?.map endsStatement).getD atStart), table) := by
  induction tokens generalizing atStart with
  | nil => exact nil
  | cons token rest ih =>
    obtain ⟨hbegins, hrest⟩ := hidle
    have hstep : stepOutside atStart token.lexeme = .outside (endsStatement token.lexeme) := by
      cases hl : token.lexeme with
      | punct c => rfl
      | word w =>
        cases atStart with
        | false => simp [stepOutside, endsStatement]
        | true => simp [stepOutside, hbegins rfl w (by simp [hl, Lexeme.word?]), endsStatement]
    refine cons (.outside (endsStatement token.lexeme), table) (by simp only [step, hstep]) ?_
    have hrun := ih hrest
    rw [List.map_cons, List.getLast?_cons]
    cases hlast : (rest.map Token.lexeme).getLast? <;> rwa [hlast] at hrun

theorem idle (hidle : Idle (tokens.map Token.lexeme)) (atStart : Bool) :
    Runs known file tokens (.outside atStart, table)
      (.outside (((tokens.map Token.lexeme).getLast?.map endsStatement).getD atStart), table) :=
  idles (hidle.idles atStart)

theorem scope {s : ScopeStatement} (hs : s.Proper) (ht : tokens.map Token.lexeme = s.lexemes) :
    Runs known file tokens (.outside true, table)
      (.outside true, { table with scope := dropOuter s.name }) := by
  obtain ⟨hkeyword, hending⟩ := hs
  simp only [ScopeStatement.lexemes, List.map_eq_cons_iff, List.map_eq_nil_iff] at ht
  obtain ⟨keyword, _, rfl, hk, name, _, rfl, hn, ending, _, rfl, he, rfl⟩ := ht
  refine cons (.scope "", table) ?_ (cons (.scope s.name, table) ?_ (cons _ ?_ nil))
  · simp [step, stepOutside, hk, hkeyword]
  · simp [step, hn]
  · simp [step, he, hending]

/-- A use statement records its import. -/
theorem use {s : UseStatement} (hs : s.Proper) (ht : tokens.map Token.lexeme = s.lexemes) :
    Runs known file tokens (.outside true, table)
      (.outside true, record known table s.clause) := by
  obtain ⟨hkeyword, hwritten, -, hrenamed⟩ := hs
  obtain ⟨keyword, written, renamed⟩ := s
  simp only [List.mem_cons, List.not_mem_nil, or_false, not_or] at hkeyword hwritten
  obtain ⟨hfunction, hconst, has⟩ := hwritten
  have hopen (token : Token) (h : token.lexeme = .word keyword) :
      step known file (.outside true, table) token = .ok (.opened, table) := by
    simp [step, stepOutside, h, hkeyword]
  have hname (token : Token) (h : token.lexeme = .word written) :
      step known file (.opened, table) token =
        .ok (.importing { current := written }, table) := by
    simp [step, stepImport, h, hfunction, hconst, Clause.addWord, has]
  have hend (token : Token) (clause : Clause) (h : token.lexeme = .punct ';') :
      step known file (.importing clause, table) token =
        .ok (.outside true, record known table clause) := by
    simp [step, stepImport, h]
  cases renamed with
  | none =>
    simp only [UseStatement.lexemes, List.append_nil, List.cons_append, List.nil_append,
      List.map_eq_cons_iff, List.map_eq_nil_iff] at ht
    obtain ⟨first, _, rfl, hf, name, _, rfl, hn, last, _, rfl, hl, rfl⟩ := ht
    exact cons _ (hopen first hf) (cons _ (hname name hn) (cons _ (hend last _ hl) nil))
  | some pair =>
    obtain ⟨as, other⟩ := pair
    obtain ⟨hasWord, hother, -⟩ := hrenamed _ rfl
    simp only [UseStatement.lexemes, List.cons_append, List.nil_append, List.map_eq_cons_iff,
      List.map_eq_nil_iff] at ht
    obtain ⟨first, _, rfl, hf, name, _, rfl, hn, asToken, _, rfl, ha, otherToken, _, rfl, ho, last,
      _, rfl, hl, rfl⟩ := ht
    refine cons _ (hopen first hf) (cons _ (hname name hn) ?_)
    refine cons (.importing { current := written, expectsLocal := true }, table) ?_ ?_
    · simp [step, stepImport, ha, Clause.addWord, hasWord]
    refine cons (.importing { current := written, localName := some other }, table) ?_ ?_
    · simp [step, stepImport, ho, Clause.addWord, hother]
    exact cons _ (hend last _ hl) nil

theorem uses {statements : List UseStatement} (hs : ∀ s ∈ statements, s.Proper)
    (ht : tokens.map Token.lexeme = statements.flatMap UseStatement.lexemes) :
    Runs known file tokens (.outside true, table)
      (.outside true, recordAll known table statements) := by
  induction statements generalizing tokens table with
  | nil =>
    obtain rfl := List.map_eq_nil_iff.mp ht
    exact nil
  | cons s rest ih =>
    rw [List.flatMap_cons, List.map_eq_append_iff] at ht
    obtain ⟨front, behind, rfl, hfront, hbehind⟩ := ht
    exact (use (hs s (by simp)) hfront).append (ih (fun t h => hs t (by simp [h])) hbehind)

end Runs

namespace Preamble.Begins

variable {p : Preamble} {source : String} {s : UseStatement}

/-- The table of a source has the imports of its preamble, in its namespace. -/
theorem ofSource_eq (h : p.Begins source) :
    AliasTable.ofSource known source file = .ok (tableOf known p.scopeName p.imports) := by
  have htokens := h.lexemes_eq
  simp only [lexemes, List.map_eq_append_iff] at htokens
  obtain ⟨opening, _, heq, hopening, scope, _, rfl, hscope, imports, closing, rfl, himports,
    hclosing⟩ := htokens
  have hfirst : Runs known file opening (.outside true, {}) (.outside true, {}) := by
    have hrun : Runs known file opening (.outside true, {}) _ :=
      .idle (hopening ▸ h.opening) true
    have hopened := h.opened
    rw [← hopening] at hopened
    cases hlast : (opening.map Token.lexeme).getLast? with
    | none => rwa [hlast] at hrun
    | some last =>
      rw [hlast] at hrun
      simpa [hopened last hlast] using hrun
  have hsecond : Runs known file scope (.outside true, {})
      (.outside true, { scope := p.scopeName }) := by
    unfold scopeName
    cases hstatement : p.scope with
    | none =>
      rw [hstatement] at hscope
      obtain rfl := List.map_eq_nil_iff.mp hscope
      exact .nil
    | some s =>
      rw [hstatement] at hscope
      exact .scope (h.scope s hstatement) hscope
  have hrun := hfirst.append (hsecond.append ((Runs.uses h.imports himports).append
    (.idle (hclosing ▸ h.closing) true)))
  rw [AliasTable.ofSource, tableOfTokens, heq, hrun]
  rfl

theorem noBlank_of_mem (h : p.Begins source) {w : String} (hw : .word w ∈ p.lexemes) :
    ∀ c ∈ w.toList, isBlank c = false :=
  noBlank_of_mem_lexemes (h.lexemes_eq ▸ hw)

theorem named (h : p.Begins source) (hs : s ∈ p.imports) : s.Named := by
  refine ⟨(h.imports s hs).lastSegment, h.noBlank_of_mem ?_⟩
  have hlexeme : Lexeme.word s.written ∈ p.imports.flatMap UseStatement.lexemes :=
    List.mem_flatMap.mpr ⟨s, hs, by simp [UseStatement.lexemes]⟩
  simp [lexemes, hlexeme]

/-- Local names are single segments. -/
theorem isSegment_localName (h : p.Begins source) (hs : s ∈ p.imports) :
    IsSegment s.localName := by
  unfold UseStatement.localName
  cases hrenamed : s.renamed with
  | none =>
    have hnamed := h.named hs
    exact ⟨hnamed.lastSegment, noSeparator_lastSegment _,
      fun c hc => hnamed.noBlank c (mem_of_mem_lastSegment hc)⟩
  | some pair =>
    obtain ⟨-, -, hne, hsep⟩ := (h.imports s hs).renamed pair hrenamed
    refine ⟨hne, hsep, h.noBlank_of_mem ?_⟩
    have hlexeme : Lexeme.word pair.2 ∈ p.imports.flatMap UseStatement.lexemes :=
      List.mem_flatMap.mpr ⟨s, hs, by simp [UseStatement.lexemes, hrenamed]⟩
    simp [lexemes, hlexeme]

end Preamble.Begins

/-- In the table of a source whose imports have distinct local names, the local name of an import
that no later one replaces stands for the class of that import. If it is the full name of another
imported class, it stands for that one. -/
theorem find?_ofSource_localName (known : String → Bool) (file : Option String) {p : Preamble}
    {source : String} (h : p.Begins source)
    (hlocal : (p.imports.map UseStatement.localName).Nodup) :
    ∃ table, AliasTable.ofSource known source file = .ok table ∧
      ∀ s, Lasts known p.scopeName p.imports s →
        ((∀ t, Lasts known p.scopeName p.imports t →
            t.qualified known p.scopeName = s.localName → t = s) →
          table.find? known s.localName = some (s.qualified known p.scopeName)) ∧
        ∀ t, Lasts known p.scopeName p.imports t →
          t.qualified known p.scopeName = s.localName →
            table.find? known s.localName = some s.localName := by
  refine ⟨_, h.ofSource_eq, fun s hlasts => ?_⟩
  have hnamed : ∀ s ∈ p.imports, s.Named := fun s hs => h.named hs
  have hsegment := h.isSegment_localName hlasts.mem
  exact ⟨find?_tableOf_of_lasts hnamed hlocal hsegment hlasts,
    fun t ht hname => find?_tableOf_of_qualified hnamed hsegment ht hname⟩

/-- Imports in a namespace that has a class `Model\Note` of its own. -/
theorem find?_ofSource_localName_renamed :
    let known := fun name => decide (name = "App\\Model\\Note")
    let text : UseStatement := { written := "Model\\Note", renamed := some ("as", "Text") }
    let note : UseStatement := { keyword := "USE", written := "\\Lib\\Note" }
    let p : Preamble :=
      { opening := [.word "declare", .punct '(', .word "strict_types", .punct '=', .word "1",
          .punct ')', .punct ';']
        scope := some { name := "App" }, imports := [text, note] }
    let source := "<?php declare(strict_types=1);\nnamespace App;\n" ++
      "use Model\\Note as Text; // renamed\nUSE \\Lib\\Note;\nfinal class Host \x7b\x7d\n"
    p.Begins source ∧ (p.imports.map UseStatement.localName).Nodup ∧
      Lasts known p.scopeName p.imports text ∧ Lasts known p.scopeName p.imports note ∧
        ∃ table, AliasTable.ofSource known source none = .ok table ∧
          table.find? known "Text" = some "App\\Model\\Note" ∧
            table.find? known "Note" = some "Lib\\Note" := by
  intro known text note p source
  have hbegins : p.Begins source :=
    ⟨by decide, lexemes_of_chars (append_of_chars rfl rfl) (by decide +kernel)⟩
  have hlocal : (p.imports.map UseStatement.localName).Nodup := by decide +kernel
  have htext : Lasts known p.scopeName p.imports text := ⟨[], [note], rfl, by decide +kernel⟩
  have hnote : Lasts known p.scopeName p.imports note := ⟨[text], [], rfl, by simp⟩
  have hother (s : UseStatement) (hs : s = text ∨ s = note) (t : UseStatement)
      (ht : Lasts known p.scopeName p.imports t)
      (hname : t.qualified known p.scopeName = s.localName) : t = s := by
    have ht : t = text ∨ t = note := by simpa [p] using ht.mem
    rcases hs with rfl | rfl <;> rcases ht with rfl | rfl <;> revert hname <;> decide
  refine ⟨hbegins, hlocal, htext, hnote, ?_⟩
  obtain ⟨table, htable, hfind⟩ := find?_ofSource_localName known none hbegins hlocal
  have htextFound := (hfind text htext).1 (hother text (.inl rfl))
  have hnoteFound := (hfind note hnote).1 (hother note (.inr rfl))
  rw [show text.qualified known p.scopeName = "App\\Model\\Note" by decide] at htextFound
  rw [show note.qualified known p.scopeName = "Lib\\Note" by decide +kernel,
    show note.localName = "Note" by decide +kernel] at hnoteFound
  exact ⟨table, htable, htextFound, hnoteFound⟩

/-- Distinct imports in a preamble, and one of them that its local name does not stand for. -/
structure Misread (known : String → Bool) (p : Preamble) (source : String) (s : UseStatement) :
    Prop where
  begins : p.Begins source
  localNames : (p.imports.map UseStatement.localName).Nodup
  qualified : (p.imports.map (UseStatement.qualified known p.scopeName)).Nodup
  mem : s ∈ p.imports
  found : ∃ table, AliasTable.ofSource known source none = .ok table ∧
    table.find? known s.localName ≠ some (s.qualified known p.scopeName)

/-- An import is not found where its local name is the full name of another imported class. Neither
is one whose entry a later import of a class in the namespace takes away. -/
theorem exists_misread :
    let foo : UseStatement := { written := "A\\Foo" }
    let plain : Preamble :=
      { imports := [{ written := "Foo", renamed := some ("as", "Bar") }, foo] }
    let x : UseStatement := { written := "\\A\\B", renamed := some ("as", "X") }
    let inside : Preamble :=
      { scope := some { name := "N" }
        imports := [x, { written := "A\\B", renamed := some ("as", "Y") }] }
    Misread (fun _ => false) plain
        "<?php\nuse Foo as Bar;\nuse A\\Foo;\nclass Host \x7b\x7d\n" foo ∧
      Misread (fun name => decide (name = "N\\A\\B")) inside
        "<?php\nnamespace N;\nuse \\A\\B as X;\nuse A\\B as Y;\nclass Host \x7b\x7d\n" x := by
  intro foo plain x inside
  constructor
  · have hbegins : plain.Begins "<?php\nuse Foo as Bar;\nuse A\\Foo;\nclass Host \x7b\x7d\n" :=
      ⟨by decide, lexemes_of_chars rfl (by decide +kernel)⟩
    exact ⟨hbegins, by decide, by decide, by simp [plain], _, hbegins.ofSource_eq,
      by decide +kernel⟩
  · have hbegins : inside.Begins
        "<?php\nnamespace N;\nuse \\A\\B as X;\nuse A\\B as Y;\nclass Host \x7b\x7d\n" :=
      ⟨by decide, lexemes_of_chars rfl (by decide +kernel)⟩
    exact ⟨hbegins, by decide, by decide, by simp [inside], _, hbegins.ofSource_eq,
      by decide⟩

end DocAnnotations.Import
