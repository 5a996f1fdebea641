import DocAnnotations.Proofs.Import.Preamble

/-! Namespace statements and use statements of every form in front of the classes of a source, in
any number and order. -/
namespace DocAnnotations.Import

open QualifiedName Text

/-- A name in a use statement, which may stand in several words, and the word behind `as` if there
is one. -/
structure Listed where
  words : List String
  renamed : Option (String × String) := none

namespace Listed

def lexemes (l : Listed) : List Lexeme :=
  l.words.map .word ++ l.renamed.elim [] fun r => [.word r.1, .word r.2]

/-- What it imports where `base` stands before the brace. -/
def under (base : String) (l : Listed) : UseStatement where
  written := base ++ String.join l.words
  renamed := l.renamed

def clause (base : String) (l : Listed) : Clause where
  base
  current := String.join l.words
  localName := l.renamed.map (·.2)

/-- The imported name ends in a segment, and has a word for another name behind `as`. -/
structure Proper (base : String) (l : Listed) : Prop where
  words : ∀ w ∈ l.words, lower w ≠ "as"
  lastSegment : lastSegment (base ++ String.join l.words) ≠ ""
  renamed : ∀ r ∈ l.renamed, lower r.1 = "as" ∧ lower r.2 ≠ "as"

instance (base : String) (l : Listed) : Decidable (l.Proper base) :=
  decidable_of_iff (_ ∧ _ ∧ _)
    ⟨fun ⟨hwords, hlast, hrenamed⟩ => ⟨hwords, hlast, hrenamed⟩,
      fun h => ⟨h.words, h.lastSegment, h.renamed⟩⟩

/-- The name can be read, also where no segment is at its end. -/
structure Readable (l : Listed) : Prop where
  words : ∀ w ∈ l.words, lower w ≠ "as"
  renamed : ∀ r ∈ l.renamed, lower r.1 = "as" ∧ lower r.2 ≠ "as"

/-- Names with commas between them. -/
def listing (names : List Listed) : List Lexeme :=
  [.punct ','].intercalate (names.map lexemes)

theorem mem_listing {names : List Listed} {l : Listed} {x : Lexeme} (hl : l ∈ names)
    (hx : x ∈ l.lexemes) : x ∈ listing names := by
  induction names with
  | nil => cases hl
  | cons first rest ih =>
    cases rest with
    | nil =>
      obtain rfl := List.mem_singleton.mp hl
      simpa [listing] using hx
    | cons second rest =>
      rw [listing, List.map_cons, List.map_cons, List.intercalate_cons_cons, ← List.map_cons]
      obtain rfl | hl := List.mem_cons.mp hl
      · exact List.mem_append_left _ (List.mem_append_left _ hx)
      · exact List.mem_append_right _ (ih hl)

end Listed

/-- A use statement for classes. In a group the words of `base` stand before the brace. -/
structure UseList where
  keyword : String := "use"
  base : Option (List String) := none
  names : List Listed

namespace UseList

def prefixed (u : UseList) : String :=
  u.base.elim "" String.join

def body (u : UseList) : List Lexeme :=
  match u.base with
  | none => Listed.listing u.names
  | some base => base.map .word ++ .punct '{' :: (Listed.listing u.names ++ [.punct '}'])

theorem mem_body_of_mem_lexemes (u : UseList) {l : Listed} {x : Lexeme} (hl : l ∈ u.names)
    (hx : x ∈ l.lexemes) : x ∈ u.body := by
  have hlisting := Listed.mem_listing hl hx
  unfold body
  cases u.base with
  | none => exact hlisting
  | some base => simp [hlisting]

/-- The names are no functions or constants, and something stands before the brace. -/
structure Proper (u : UseList) : Prop where
  keyword : lower u.keyword = "use"
  classes : ∀ l ∈ u.body.head?, ∀ w ∈ l.word?, lower w ≠ "function" ∧ lower w ≠ "const"
  base : ∀ base ∈ u.base, String.join base ≠ "" ∧ ∀ w ∈ base, lower w ≠ "as"
  ne_nil : u.names ≠ []
  names : ∀ l ∈ u.names, l.Proper u.prefixed

instance (u : UseList) : Decidable u.Proper :=
  decidable_of_iff (_ ∧ _ ∧ _ ∧ _ ∧ _)
    ⟨fun ⟨hkeyword, hclasses, hbase, hne, hnames⟩ => ⟨hkeyword, hclasses, hbase, hne, hnames⟩,
      fun h => ⟨h.keyword, h.classes, h.base, h.ne_nil, h.names⟩⟩

/-- The names can be read, also where no segment is at the end of one. -/
structure Readable (u : UseList) : Prop where
  keyword : lower u.keyword = "use"
  classes : ∀ l ∈ u.body.head?, ∀ w ∈ l.word?, lower w ≠ "function" ∧ lower w ≠ "const"
  base : ∀ base ∈ u.base, String.join base ≠ "" ∧ ∀ w ∈ base, lower w ≠ "as"
  ne_nil : u.names ≠ []
  names : ∀ l ∈ u.names, l.Readable

theorem Proper.readable {u : UseList} (h : u.Proper) : u.Readable :=
  ⟨h.keyword, h.classes, h.base, h.ne_nil,
    fun l hl => ⟨(h.names l hl).words, (h.names l hl).renamed⟩⟩

end UseList

/-- A statement in front of the classes of a source. -/
inductive Statement where
  /-- Statements of other kinds. -/
  | other (lexemes : List Lexeme)
  /-- A namespace statement. The global namespace has no name. -/
  | scope (keyword : String) (name : List String) (ending : Char)
  /-- An import of functions or constants. -/
  | skipped (keyword kind : String) (lexemes : List Lexeme)
  | use (u : UseList)

namespace Statement

def lexemes : Statement → List Lexeme
  | other lexemes => lexemes
  | scope keyword name ending => .word keyword :: (name.map .word ++ [.punct ending])
  | skipped keyword kind lexemes => .word keyword :: .word kind :: (lexemes ++ [.punct ';'])
  | use u => .word u.keyword :: (u.body ++ [.punct ';'])

def Proper : Statement → Prop
  | other lexemes => Idles true lexemes ∧ ∀ last ∈ lexemes.getLast?, endsStatement last = true
  | scope keyword _ ending => lower keyword = "namespace" ∧ (ending = ';' ∨ ending = '{')
  | skipped keyword kind lexemes =>
    lower keyword = "use" ∧ (lower kind = "function" ∨ lower kind = "const") ∧
      .punct ';' ∉ lexemes
  | use u => u.Proper

instance : (s : Statement) → Decidable s.Proper
  | other lexemes => inferInstanceAs (Decidable (Idles true lexemes ∧ _))
  | scope _ _ _ => inferInstanceAs (Decidable (_ ∧ _))
  | skipped _ _ _ => inferInstanceAs (Decidable (_ ∧ _ ∧ _))
  | use u => inferInstanceAs (Decidable u.Proper)

def Readable : Statement → Prop
  | use u => u.Readable
  | s => s.Proper

theorem Proper.readable {s : Statement} (h : s.Proper) : s.Readable := by
  cases s with
  | other | scope | skipped => exact h
  | use u => exact UseList.Proper.readable h

/-- The namespace that the statement begins. -/
def scope? : Statement → Option String
  | scope _ name _ => some (dropOuter (String.join name))
  | _ => none

/-- The classes that the statement imports. -/
def imports : Statement → List UseStatement
  | use u => u.names.map (Listed.under u.prefixed)
  | _ => []

/-- The imports of statements, each with the namespace that it stands in. The first of them stand
in `scope`. -/
def placed (scope : String) : List Statement → List (String × UseStatement)
  | [] => []
  | s :: rest =>
    s.imports.map (s.scope?.getD scope, ·) ++ placed (s.scope?.getD scope) rest

/-- The namespace behind statements that begin in `scope`. -/
def scopeAfter (scope : String) (statements : List Statement) : String :=
  statements.foldl (fun scope s => s.scope?.getD scope) scope

/-- The table behind a statement. -/
def apply (known : String → Bool) (table : AliasTable) (s : Statement) : AliasTable :=
  recordAll known { table with scope := s.scope?.getD table.scope } s.imports

/-- The tokens in front of the first class of a source are those of statements, and of what stands
before the class itself. -/
structure Open (statements : List Statement) (closing : List Lexeme) (source : String) : Prop where
  proper : ∀ s ∈ statements, s.Proper
  idles : Idles true closing
  lexemes_eq : (lex (preamble source)).map Token.lexeme = statements.flatMap lexemes ++ closing

end Statement

/-- The import is not replaced by one behind it. -/
def Stays (known : String → Bool) (imports : List (String × UseStatement))
    (i : String × UseStatement) : Prop :=
  ∃ before after, imports = before ++ i :: after ∧
    ∀ later ∈ after, ¬ later.2.Replaces known later.1 (i.2.qualified known i.1)

section Table

variable {known : String → Bool} {scope : String} {e : String × String} {table : AliasTable}
  {i : String × UseStatement}

theorem stays_cons_iff {first : String × UseStatement} {rest : List (String × UseStatement)} :
    Stays known (first :: rest) i ↔
      i = first ∧ (∀ later ∈ rest, ¬ later.2.Replaces known later.1 (i.2.qualified known i.1)) ∨
        Stays known rest i :=
  exists_split_cons_iff

/-- The imports of one namespace stay if nothing in it or behind it replaces them. -/
theorem stays_append_iff {statements : List UseStatement}
    {rest : List (String × UseStatement)} :
    Stays known (statements.map (scope, ·) ++ rest) i ↔
      (∃ s, Lasts known scope statements s ∧ i = (scope, s) ∧
        ∀ later ∈ rest, ¬ later.2.Replaces known later.1 (s.qualified known scope)) ∨
          Stays known rest i := by
  induction statements with
  | nil => simp [Lasts]
  | cons s statements ih =>
    rw [List.map_cons, List.cons_append, stays_cons_iff, ih]
    simp only [lasts_cons_iff, List.forall_mem_append, List.forall_mem_map]
    constructor
    · rintro (⟨rfl, hnear, hfar⟩ | ⟨t, hlasts, rfl, hfar⟩ | hstays)
      · exact .inl ⟨s, .inl ⟨rfl, hnear⟩, rfl, hfar⟩
      · exact .inl ⟨t, .inr hlasts, rfl, hfar⟩
      · exact .inr hstays
    · rintro (⟨t, ⟨rfl, hnear⟩ | hlasts, rfl, hfar⟩ | hstays)
      · exact .inl ⟨rfl, hnear, hfar⟩
      · exact .inr (.inl ⟨t, hlasts, rfl, hfar⟩)
      · exact .inr (.inr hstays)

theorem recordAll_cons (s : UseStatement) (rest : List UseStatement) :
    recordAll known table (s :: rest) = recordAll known (record known table s.clause) rest :=
  rfl

namespace Statement

theorem scope_foldl_apply (statements : List Statement) :
    (statements.foldl (apply known) table).scope = scopeAfter table.scope statements := by
  induction statements generalizing table with
  | nil => rfl
  | cons s rest ih =>
    rw [List.foldl_cons, ih, apply, recordAll_scope]
    rfl

/-- Behind statements a table has what they do not replace, and the imports that stay. -/
theorem mem_foldl_apply_iff {statements : List Statement}
    (hwritten : ∀ s ∈ statements, ∀ u ∈ s.imports, u.IsWritten) :
    e ∈ (statements.foldl (apply known) table).imports ↔
      e ∈ table.imports ∧
          (∀ i ∈ placed table.scope statements, ¬ i.2.Replaces known i.1 e.1) ∨
        ∃ i, Stays known (placed table.scope statements) i ∧ e = i.2.entry known i.1 := by
  induction statements generalizing table with
  | nil => simp [placed, Stays]
  | cons s rest ih =>
    have hrest : e ∈ (rest.foldl (apply known) (apply known table s)).imports ↔ _ :=
      ih fun t ht => hwritten t (by simp [ht])
    have hfirst : e ∈ (apply known table s).imports ↔ _ := mem_recordAll_iff (hwritten s (by simp))
    have hscope : (apply known table s).scope = s.scope?.getD table.scope := recordAll_scope _
    rw [hscope, hfirst] at hrest
    rw [List.foldl_cons, hrest]
    -- An entry of this statement must outlast the rest of it, and then all statements behind it.
    simp only [placed, stays_append_iff, List.forall_mem_append, List.forall_mem_map]
    constructor
    · rintro (⟨⟨hold, hnear⟩ | ⟨u, hlasts, rfl⟩, hfar⟩ | ⟨i, hstays, rfl⟩)
      · exact .inl ⟨hold, hnear, hfar⟩
      · exact .inr ⟨_, .inl ⟨u, hlasts, rfl, hfar⟩, rfl⟩
      · exact .inr ⟨i, .inr hstays, rfl⟩
    · rintro (⟨hold, hnear, hfar⟩ | ⟨_, ⟨u, hlasts, rfl, hfar⟩ | hstays, rfl⟩)
      · exact .inl ⟨.inl ⟨hold, hnear⟩, hfar⟩
      · exact .inl ⟨.inr ⟨u, hlasts, rfl⟩, hfar⟩
      · exact .inr ⟨_, hstays, rfl⟩

end Statement

end Table

namespace Runs

variable {known : String → Bool} {file : Option String} {table : AliasTable} {tokens : List Token}

/-- The words of a name are put together in a state that takes up each of them. -/
theorem joined {s : String → State} {ws : List String} {name : String}
    (hstep : ∀ w ∈ ws, ∀ name token, token.lexeme = .word w →
      step known file (s name, table) token = .ok (s (name ++ w), table))
    (ht : tokens.map Token.lexeme = ws.map .word) :
    Runs known file tokens (s name, table) (s (name ++ String.join ws), table) := by
  induction ws generalizing tokens name with
  | nil =>
    obtain rfl := List.map_eq_nil_iff.mp ht
    simpa using nil
  | cons w ws ih =>
    obtain ⟨token, rest, rfl, htoken, hrest⟩ := List.map_eq_cons_iff.mp ht
    rw [String.join_cons, ← String.append_assoc]
    exact cons _ (hstep w (by simp) name token htoken)
      (ih (fun v hv => hstep v (by simp [hv])) hrest)

theorem words {ws : List String} {base : String} (hws : ∀ w ∈ ws, lower w ≠ "as")
    (ht : tokens.map Token.lexeme = ws.map .word) :
    Runs known file tokens (.importing { base }, table)
      (.importing { base, current := String.join ws }, table) := by
  have hrun : Runs known file tokens (.importing { base, current := "" }, table) _ :=
    joined (s := fun current => .importing { base, current }) (fun w hw current token htoken => by
      simp [step, stepImport, htoken, Clause.addWord, hws w hw]) ht
  rwa [String.empty_append] at hrun

theorem listed {base : String} {l : Listed} (hl : l.Readable)
    (ht : tokens.map Token.lexeme = l.lexemes) :
    Runs known file tokens (.importing { base }, table) (.importing (l.clause base), table) := by
  obtain ⟨name, other, rfl, hname, hother⟩ := List.map_eq_append_iff.mp ht
  refine (words hl.words hname).append ?_
  cases hrenamed : l.renamed with
  | none =>
    rw [hrenamed] at hother
    obtain rfl := List.map_eq_nil_iff.mp hother
    simpa [Listed.clause, hrenamed] using nil
  | some r =>
    obtain ⟨has, hword⟩ := hl.renamed r hrenamed
    simp only [hrenamed, Option.elim_some, List.map_eq_cons_iff, List.map_eq_nil_iff] at hother
    obtain ⟨asToken, _, rfl, ha, word, _, rfl, hw, rfl⟩ := hother
    refine cons (.importing { base, current := String.join l.words, expectsLocal := true }, table)
      ?_ (cons _ ?_ nil)
    · simp [step, stepImport, ha, Clause.addWord, has]
    · simp [step, stepImport, hw, Clause.addWord, hword, Listed.clause, hrenamed]

/-- An import depends on the written name and the other name only. -/
theorem record_congr {clause clause' : Clause} (hwritten : clause.written = clause'.written)
    (hlocal : clause.localName = clause'.localName) :
    record known table clause = record known table clause' := by
  unfold record
  rw [hwritten, hlocal]

theorem record_clause (base : String) (l : Listed) :
    record known table (l.clause base) = record known table (l.under base).clause :=
  record_congr String.empty_append.symm rfl

theorem record_nothing : record known table {} = table := rfl

/-- All names of a list are recorded but the last, which the end of the list records. -/
theorem listing {base : String} {names : List Listed} (hne : names ≠ [])
    (hnames : ∀ l ∈ names, l.Readable)
    (ht : tokens.map Token.lexeme = Listed.listing names) :
    ∃ last before, Runs known file tokens (.importing { base }, table)
        (.importing (Listed.clause base last), before) ∧
      record known before (last.clause base) =
        recordAll known table (names.map (Listed.under base)) := by
  induction names generalizing tokens table with
  | nil => exact absurd rfl hne
  | cons l names ih =>
    cases names with
    | nil =>
      refine ⟨l, table, listed (hnames l (by simp)) (by simpa [Listed.listing] using ht), ?_⟩
      exact record_clause base l
    | cons m names =>
      simp only [Listed.listing, List.map_cons, List.intercalate_cons_cons, List.append_assoc,
        List.cons_append, List.nil_append, List.map_eq_append_iff, List.map_eq_cons_iff] at ht
      obtain ⟨name, _, rfl, hname, comma, rest, rfl, hcomma, hrest⟩ := ht
      obtain ⟨last, before, hrun, hlast⟩ := @ih (record known table (l.under base).clause) rest
        (by simp) (fun n hn => hnames n (by simp [hn])) hrest
      rw [List.map_cons, recordAll_cons]
      refine ⟨last, before, (listed (hnames l (by simp)) hname).append (cons _ ?_ hrun), hlast⟩
      rw [← record_clause]
      simp only [step, stepImport, hcomma]
      rfl

/-- The names of a use statement are recorded behind one another. -/
theorem body {u : UseList} (hu : u.Readable)
    (ht : tokens.map Token.lexeme = u.body ++ [.punct ';']) :
    Runs known file tokens (.importing {}, table)
      (.outside true, recordAll known table (Statement.use u).imports) := by
  obtain ⟨-, -, hbase, hne, hnames⟩ := hu
  obtain ⟨keyword, base, names⟩ := u
  cases base with
  | none =>
    simp only [UseList.body, List.map_eq_append_iff, List.map_eq_cons_iff,
      List.map_eq_nil_iff] at ht
    obtain ⟨list, _, rfl, hlist, ending, _, rfl, hending, rfl⟩ := ht
    obtain ⟨last, before, hrun, hlast⟩ := listing hne hnames hlist
    rw [Statement.imports, ← hlast]
    exact hrun.append (cons _ (by simp [step, stepImport, hending]) nil)
  | some base =>
    obtain ⟨hbefore, hwords⟩ := hbase base rfl
    change Runs known file tokens _
      (_, recordAll known table (names.map (Listed.under (String.join base))))
    simp only [UseList.body, List.append_assoc, List.cons_append, List.nil_append,
      List.map_eq_append_iff, List.map_eq_cons_iff, List.map_eq_nil_iff] at ht
    obtain ⟨front, _, rfl, hfront, brace, _, rfl, hbrace, list, _, rfl, hlist, closing, _, rfl,
      hclosing, ending, _, rfl, hending, rfl⟩ := ht
    obtain ⟨last, before, hrun, hlast⟩ := listing hne hnames hlist
    rw [← hlast]
    refine (words hwords hfront).append (cons _ ?_ (hrun.append (cons
      (.importing {}, record known before (last.clause (String.join base))) ?_ (cons _ ?_ nil))))
    · simp [step, stepImport, hbrace, Clause.written]
    · simp [step, stepImport, hclosing, Listed.clause, hbefore]
    · simp only [step, stepImport, hending, record_nothing]

/-- A name that is no function and no constant is read behind `use` as in the list. -/
theorem opened {last : State × AliasTable} {l : Lexeme} {rest : List Lexeme}
    (hclass : ∀ w ∈ l.word?, lower w ≠ "function" ∧ lower w ≠ "const")
    (ht : tokens.map Token.lexeme = l :: rest)
    (h : Runs known file tokens (.importing {}, table) last) :
    Runs known file tokens (.opened, table) last := by
  obtain ⟨token, _, rfl, rfl, -⟩ := List.map_eq_cons_iff.mp ht
  have hstep : step known file (.opened, table) token =
      step known file (.importing {}, table) token := by
    cases hl : token.lexeme with
    | punct c => simp [step, hl]
    | word w =>
      obtain ⟨hfunction, hconst⟩ := hclass w (by simp [hl, Lexeme.word?])
      simp [step, hl, hfunction, hconst]
  rwa [Runs, List.foldlM_cons, hstep, ← List.foldlM_cons]

theorem ignored {lexemes : List Lexeme} (hend : .punct ';' ∉ lexemes)
    (ht : tokens.map Token.lexeme = lexemes ++ [.punct ';']) :
    Runs known file tokens (.ignored, table) (.outside true, table) := by
  induction lexemes generalizing tokens with
  | nil =>
    obtain ⟨token, rest, rfl, htoken, hrest⟩ := List.map_eq_cons_iff.mp ht
    obtain rfl := List.map_eq_nil_iff.mp hrest
    exact cons _ (by simp [step, htoken]) nil
  | cons l lexemes ih =>
    obtain ⟨token, rest, rfl, rfl, hrest⟩ := List.map_eq_cons_iff.mp ht
    obtain ⟨hl, hend⟩ := not_or.mp (List.mem_cons.not.mp hend)
    exact cons (.ignored, table) (by simp [step, Ne.symm hl]) (ih hend hrest)

/-- Behind a statement the table is what the statement makes of it. -/
theorem statement {s : Statement} (hs : s.Readable) (ht : tokens.map Token.lexeme = s.lexemes) :
    Runs known file tokens (.outside true, table) (.outside true, s.apply known table) := by
  cases s with
  | other lexemes =>
    obtain ⟨hidles, hend⟩ := hs
    obtain rfl : tokens.map Token.lexeme = lexemes := ht
    change Runs known file tokens (.outside true, table) (.outside true, table)
    have hrun : Runs known file tokens (.outside true, table) _ := idles hidles
    cases hlast : (tokens.map Token.lexeme).getLast? with
    | none => rwa [hlast] at hrun
    | some last =>
      rw [hlast] at hrun
      simpa [hend last hlast] using hrun
  | scope keyword name ending =>
    obtain ⟨hkeyword, hending⟩ := hs
    simp only [Statement.lexemes, List.map_eq_cons_iff, List.map_eq_append_iff,
      List.map_eq_nil_iff] at ht
    obtain ⟨first, _, rfl, hfirst, words, _, rfl, hwords, last, _, rfl, hlast, rfl⟩ := ht
    have hname : Runs known file words (.scope "", table)
        (.scope ("" ++ String.join name), table) :=
      joined (s := .scope) (fun w _ name token htoken => by simp [step, htoken]) hwords
    refine cons (.scope "", table) ?_ (hname.append (cons _ ?_ nil))
    · simp [step, stepOutside, hfirst, hkeyword]
    · simp only [step, hlast, if_pos hending, String.empty_append]
      rfl
  | skipped keyword kind lexemes =>
    obtain ⟨hkeyword, hkind, hend⟩ := hs
    obtain ⟨first, _, rfl, hfirst, ht⟩ := List.map_eq_cons_iff.mp ht
    obtain ⟨second, rest, rfl, hsecond, hrest⟩ := List.map_eq_cons_iff.mp ht
    refine cons (.opened, table) ?_ (cons (.ignored, table) ?_ (ignored hend hrest))
    · simp [step, stepOutside, hfirst, hkeyword]
    · simp [step, hsecond, hkind]
  | use u =>
    obtain ⟨first, rest, rfl, hfirst, hrest⟩ := List.map_eq_cons_iff.mp ht
    refine cons (.opened, table) (by simp [step, stepOutside, hfirst, hs.keyword]) ?_
    have hbody : Runs known file rest (.importing {}, table) _ := body hs hrest
    have hclasses := hs.classes
    -- Only the first token behind the keyword tells such a list from one that is skipped.
    cases hu : u.body with
    | nil =>
      rw [hu] at hrest
      exact opened (by simp [Lexeme.word?]) hrest hbody
    | cons l lexemes =>
      rw [hu] at hrest hclasses
      exact opened (hclasses l rfl) hrest hbody

theorem statements {statements : List Statement} (hs : ∀ s ∈ statements, s.Readable)
    (ht : tokens.map Token.lexeme = statements.flatMap Statement.lexemes) :
    Runs known file tokens (.outside true, table)
      (.outside true, statements.foldl (Statement.apply known) table) := by
  induction statements generalizing tokens table with
  | nil =>
    obtain rfl := List.map_eq_nil_iff.mp ht
    exact nil
  | cons s rest ih =>
    rw [List.flatMap_cons, List.map_eq_append_iff] at ht
    obtain ⟨front, behind, rfl, hfront, hbehind⟩ := ht
    exact (statement (hs s (by simp)) hfront).append (ih (fun t h => hs t (by simp [h])) hbehind)

/-- The table of a source is what the statements in front of its class make of the empty table. -/
theorem ofSource_eq {statements : List Statement} {closing : List Lexeme} {source : String}
    (hs : ∀ s ∈ statements, s.Readable) (hclosing : Idles true closing)
    (ht : (lex (preamble source)).map Token.lexeme =
      statements.flatMap Statement.lexemes ++ closing) :
    AliasTable.ofSource known source file =
      .ok (statements.foldl (Statement.apply known) {}) := by
  obtain ⟨front, behind, heq, hfront, hbehind⟩ := List.map_eq_append_iff.mp ht
  have hfirst : Runs known file front (.outside true, {}) _ := .statements hs hfront
  have hrun := hfirst.append (.idles (hbehind ▸ hclosing))
  rw [AliasTable.ofSource, tableOfTokens, heq, hrun]
  rfl

end Runs

/-- An import is made of the words of its statement. -/
theorem Statement.noBlank_of_mem_imports {s : Statement}
    (hs : ∀ w, .word w ∈ s.lexemes → ∀ c ∈ w.toList, isBlank c = false) {i : UseStatement}
    (hi : i ∈ s.imports) : ∀ c ∈ i.written.toList, isBlank c = false := by
  cases s with
  | other | scope | skipped => cases hi
  | use u =>
    obtain ⟨l, hl, rfl⟩ := List.mem_map.mp hi
    intro c hc
    have hwords : ∀ w ∈ l.words, .word w ∈ u.body := fun w hw =>
      u.mem_body_of_mem_lexemes hl (by simp [Listed.lexemes, hw])
    have hbase : ∀ base ∈ u.base, ∀ w ∈ base, .word w ∈ u.body := fun base hb w hw => by
      simp [UseList.body, Option.mem_def.mp hb, hw]
    have hblank (w : String) (hw : .word w ∈ u.body) : ∀ c ∈ w.toList, isBlank c = false :=
      hs w (by simp [lexemes, hw])
    simp only [Listed.under, String.toList_append, String.toList_join, List.mem_append,
      List.mem_flatMap] at hc
    rcases hc with hc | ⟨w, hw, hc⟩
    · cases hb : u.base with
      | none => simp [UseList.prefixed, hb] at hc
      | some base =>
        simp only [UseList.prefixed, hb, Option.elim_some, String.toList_join,
          List.mem_flatMap] at hc
        obtain ⟨w, hw, hc⟩ := hc
        exact hblank w (hbase base hb w hw) c hc
    · exact hblank w (hwords w hw) c hc

namespace Statement.Open

variable {statements : List Statement} {closing : List Lexeme} {source : String}

/-- The table of a source is what its statements make of the empty table. -/
theorem ofSource_eq (known : String → Bool) (file : Option String)
    (h : Open statements closing source) :
    AliasTable.ofSource known source file = .ok (statements.foldl (apply known) {}) :=
  Runs.ofSource_eq (fun s hs => (h.proper s hs).readable) h.idles h.lexemes_eq

theorem noBlank_of_mem (h : Open statements closing source) {s : Statement} (hs : s ∈ statements)
    {w : String} (hw : .word w ∈ s.lexemes) : ∀ c ∈ w.toList, isBlank c = false := by
  have hmem : .word w ∈ statements.flatMap lexemes ++ closing :=
    List.mem_append_left _ (List.mem_flatMap.mpr ⟨s, hs, hw⟩)
  exact noBlank_of_mem_lexemes (h.lexemes_eq ▸ hmem)

theorem named (h : Open statements closing source) {s : Statement} (hs : s ∈ statements)
    {i : UseStatement} (hi : i ∈ s.imports) : i.Named := by
  refine ⟨?_, noBlank_of_mem_imports (fun w hw => h.noBlank_of_mem hs hw) hi⟩
  cases s with
  | other | scope | skipped => cases hi
  | use u =>
    obtain ⟨l, hl, rfl⟩ := List.mem_map.mp hi
    exact ((h.proper _ hs).names l hl).lastSegment

end Statement.Open

end DocAnnotations.Import
