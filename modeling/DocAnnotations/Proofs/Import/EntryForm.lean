import DocAnnotations.Proofs.Import.Directive

/-! The form of the entries in the table of a source, and how many there are. -/
namespace DocAnnotations

open QualifiedName Text

namespace QualifiedName

theorem head?_dropWhile_isSeparator (cs : List Char) :
    (cs.dropWhile isSeparator).head? ≠ some '\\' := by
  intro hhead
  have hnot := List.head?_dropWhile_not isSeparator cs
  rw [hhead] at hnot
  cases hnot

theorem head?_dropLeading (name : String) : (dropLeading name).toList.head? ≠ some '\\' := by
  rw [dropLeading, String.toList_ofList]
  exact head?_dropWhile_isSeparator name.toList

theorem head?_dropOuter (name : String) : (dropOuter name).toList.head? ≠ some '\\' := by
  rw [dropOuter, String.toList_ofList, trimBy, dropWhileEnd_eq_rdropWhile]
  intro hhead
  obtain ⟨behind, heq⟩ := List.rdropWhile_prefix isSeparator (name.toList.dropWhile isSeparator)
  have hall := head?_dropWhile_isSeparator name.toList
  rw [← heq, List.head?_append, hhead] at hall
  exact hall rfl

end QualifiedName

namespace Import

/-- A class under a name without a backslash at an end of it, and one segment as its local name. -/
structure WellFormed (e : String × String) : Prop where
  head : e.1.toList.head? ≠ some '\\'
  last : e.1.toList.getLast? ≠ some '\\'
  ne_empty : e.2 ≠ ""
  noSeparator : '\\' ∉ e.2.toList

instance (e : String × String) : Decidable (WellFormed e) :=
  decidable_of_iff (_ ∧ _ ∧ _ ∧ _)
    ⟨fun ⟨hhead, hlast, hne, hsep⟩ => ⟨hhead, hlast, hne, hsep⟩,
      fun h => ⟨h.head, h.last, h.ne_empty, h.noSeparator⟩⟩

variable {known : String → Bool} {scope : String} {table : AliasTable} {e : String × String}

theorem head?_qualify (hscope : scope.toList.head? ≠ some '\\') (written : String) :
    (qualify known scope written).toList.head? ≠ some '\\' := by
  unfold qualify
  dsimp only
  split
  next h =>
    have hne : scope.toList ≠ [] := by
      intro hnil
      rw [String.toList_eq_nil_iff] at hnil
      simp [hnil] at h
    rw [below, String.append_assoc, String.toList_append, List.head?_append_of_ne_nil _ hne]
    exact hscope
  next => exact head?_dropLeading written

section Placed

variable {statements : List Statement} {i : String × UseStatement}

/-- An import stands in the namespace in front of all statements, or in that of one of them. -/
theorem Statement.mem_placed (hi : i ∈ placed scope statements) :
    (∃ s ∈ statements, i.2 ∈ s.imports) ∧ (i.1 = scope ∨ ∃ name, i.1 = dropOuter name) := by
  induction statements generalizing scope with
  | nil => cases hi
  | cons s rest ih =>
    have hscope : s.scope?.getD scope = scope ∨ ∃ name, s.scope?.getD scope = dropOuter name := by
      cases s with
      | scope keyword name ending => exact .inr ⟨_, rfl⟩
      | other | skipped | use => exact .inl rfl
    rcases List.mem_append.mp hi with hi | hi
    · obtain ⟨u, hu, rfl⟩ := List.mem_map.mp hi
      exact ⟨⟨s, List.mem_cons_self, hu⟩, hscope⟩
    · obtain ⟨⟨t, ht, himport⟩, hplace⟩ := ih hi
      refine ⟨⟨t, List.mem_cons_of_mem _ ht, himport⟩, ?_⟩
      rcases hplace with hplace | hplace
      · rwa [← hplace] at hscope
      · exact .inr hplace

theorem Statement.exists_mem_placed {s : Statement} {u : UseStatement} (hs : s ∈ statements)
    (hu : u ∈ s.imports) (scope : String) : ∃ place, (place, u) ∈ placed scope statements := by
  induction statements generalizing scope with
  | nil => cases hs
  | cons first rest ih =>
    rcases List.mem_cons.mp hs with rfl | hs
    · exact ⟨_, List.mem_append_left _ (List.mem_map.mpr ⟨u, hu, rfl⟩)⟩
    · obtain ⟨place, hplace⟩ := ih hs (first.scope?.getD scope)
      exact ⟨place, List.mem_append_right _ hplace⟩

theorem Statement.head?_of_mem_placed (hi : i ∈ placed "" statements) :
    i.1.toList.head? ≠ some '\\' := by
  rcases (mem_placed hi).2 with h | ⟨name, h⟩
  · rw [h]
    exact nofun
  · rw [h]
    exact head?_dropOuter name

theorem Stays.mem {imports : List (String × UseStatement)} (h : Stays known imports i) :
    i ∈ imports := by
  obtain ⟨before, after, rfl, -⟩ := h
  simp

end Placed

namespace UseName

/-- An import of a name is recorded under a whole name. -/
theorem Valid.wellFormed_entry {n : UseName} (h : n.Valid)
    (hscope : scope.toList.head? ≠ some '\\') (base : String) :
    WellFormed ((n.read.under base).entry known scope) := by
  have hwritten := h.lastSegment_written base
  have hsegment : QualifiedName.lastSegment ((n.read.under base).qualified known scope) ≠ "" := by
    rwa [UseStatement.lastSegment_qualified]
  obtain ⟨c, hlast, hc⟩ := lastSegment_ne_empty_iff.mp hsegment
  have hlocal : (n.read.under base).localName ≠ "" ∧
      '\\' ∉ (n.read.under base).localName.toList := by
    unfold UseStatement.localName
    cases hrenamed : n.listed.renamed with
    | none =>
      have hnone : (n.read.under base).renamed = none := hrenamed
      rw [hnone]
      exact ⟨hwritten, noSeparator_lastSegment _⟩
    | some r =>
      have hsome : (n.read.under base).renamed = some r := hrenamed
      rw [hsome]
      exact (h.renamed r hrenamed).2.2
  refine ⟨head?_qualify hscope _, fun hseparator => hc ?_, hlocal.1, hlocal.2⟩
  exact Option.some.inj (hlast.symm.trans hseparator)

end UseName

namespace UseStatement

/-- What is recorded without a segment at its end. -/
def Bare (s : UseStatement) : Prop :=
  lastSegment s.written = ""

theorem not_replaces_of_bare {s later : UseStatement} {place : String} (hs : s.Bare)
    (hlater : ¬ later.Bare) : ¬ later.Replaces known place (s.qualified known scope) := by
  have hlast : lastSegment (s.qualified known scope) = "" := by
    rw [lastSegment_qualified]
    exact hs
  rintro (h | ⟨-, h⟩)
  · apply hlater
    have hsame := congrArg QualifiedName.lastSegment h
    rwa [lastSegment_qualified, hlast] at hsame
  · apply hlater
    rw [Bare, h, hlast]

end UseStatement

/-- Of the members of a list with a property one is the last. -/
theorem exists_last_of_mem {α : Type} {p : α → Prop} {l : List α} (h : ∃ x ∈ l, p x) :
    ∃ before x after, l = before ++ x :: after ∧ p x ∧ ∀ y ∈ after, ¬ p y := by
  induction l with
  | nil => simp at h
  | cons first rest ih =>
    by_cases hrest : ∃ x ∈ rest, p x
    · obtain ⟨before, x, after, rfl, hx⟩ := ih hrest
      exact ⟨first :: before, x, after, rfl, hx⟩
    · obtain ⟨x, hmem, hx⟩ := h
      obtain rfl := (List.mem_cons.mp hmem).resolve_right fun hmem => hrest ⟨x, hmem, hx⟩
      exact ⟨[], x, rest, rfl, hx, fun y hy hpy => hrest ⟨y, hy, hpy⟩⟩

/-- An import without a segment at its end leaves such an entry. -/
theorem exists_stays_of_bare {imports : List (String × UseStatement)}
    (h : ∃ i ∈ imports, i.2.Bare) : ∃ i, Stays known imports i ∧ i.2.Bare := by
  obtain ⟨before, i, after, rfl, hi, hafter⟩ := exists_last_of_mem h
  refine ⟨i, ⟨before, after, rfl, fun later hlater => ?_⟩, hi⟩
  exact UseStatement.not_replaces_of_bare hi (hafter later hlater)

section Count

/-- A record adds at most its own entry. -/
theorem countP_record_le {s : UseStatement} (hs : s.IsWritten) (p : String × String → Bool) :
    (record known table s.clause).imports.countP p ≤
      table.imports.countP p + [s.entry known table.scope].countP p := by
  have herase (entries : Entries String) (key : String) :
      (entries.erase key).countP p ≤ entries.countP p :=
    List.filter_sublist.countP_le
  rw [imports_record hs, List.countP_append]
  refine Nat.add_le_add_right ?_ _
  split
  next => exact herase _ _
  next => exact (herase _ _).trans (herase _ _)

theorem countP_recordAll_le {statements : List UseStatement}
    (hs : ∀ s ∈ statements, s.IsWritten) (p : String × String → Bool) :
    (recordAll known table statements).imports.countP p ≤ table.imports.countP p +
      (statements.map (UseStatement.entry known table.scope)).countP p := by
  induction statements generalizing table with
  | nil => exact Nat.le_refl _
  | cons s rest ih =>
    obtain ⟨hs, hrest⟩ := List.forall_mem_cons.mp hs
    have hfirst : (record known table s.clause).imports.countP p ≤ _ := countP_record_le hs p
    have hall : (recordAll known (record known table s.clause) rest).imports.countP p ≤ _ :=
      ih hrest
    rw [record_scope] at hall
    rw [recordAll_cons, List.map_cons, ← List.singleton_append, List.countP_append]
    omega

/-- Statements add at most the entries of their imports. -/
theorem Statement.countP_foldl_apply_le {statements : List Statement}
    (hwritten : ∀ s ∈ statements, ∀ u ∈ s.imports, u.IsWritten) (p : String × String → Bool) :
    (statements.foldl (apply known) table).imports.countP p ≤ table.imports.countP p +
      ((placed table.scope statements).map fun i => i.2.entry known i.1).countP p := by
  induction statements generalizing table with
  | nil => exact Nat.le_refl _
  | cons s rest ih =>
    obtain ⟨hs, hrest⟩ := List.forall_mem_cons.mp hwritten
    have hfirst : (apply known table s).imports.countP p ≤ _ := countP_recordAll_le hs p
    have hall : (rest.foldl (apply known) (apply known table s)).imports.countP p ≤ _ := ih hrest
    have hscope : (apply known table s).scope = s.scope?.getD table.scope := recordAll_scope _
    have hmap : (s.imports.map (s.scope?.getD table.scope, ·)).map
        (fun i => i.2.entry known i.1) =
          s.imports.map (UseStatement.entry known (s.scope?.getD table.scope)) := by
      rw [List.map_map]
      rfl
    rw [hscope] at hall
    rw [List.foldl_cons, placed, List.map_append, List.countP_append, hmap]
    dsimp only at hfirst
    omega

end Count

namespace Use

variable {u : Use}

/-- What is left of a group that ends in a comma is no name. -/
theorem Valid.bare_prefixed (h : u.Valid) (hcomma : u.comma = true) :
    lastSegment u.prefixed = "" := by
  have hlast : u.prefixed.toList.getLast? = some '\\' :=
    h.getLast?_remnant (mem_remnant?_iff.mpr ⟨hcomma, rfl⟩)
  by_contra hne
  obtain ⟨c, hc, hseparator⟩ := lastSegment_ne_empty_iff.mp hne
  exact hseparator (Option.some.inj (hc.symm.trans hlast))

theorem mem_imports_remnant (hcomma : u.comma = true) :
    { written := u.prefixed } ∈ (Statement.use u.list).imports := by
  rw [imports_list]
  exact List.mem_append_right _ (Option.mem_toList.mpr (mem_remnant?_iff.mpr ⟨hcomma, rfl⟩))

/-- The entries of a use statement are those of its names, and the one of its last comma. -/
theorem Valid.entry_of_mem_imports (h : u.Valid) (hscope : scope.toList.head? ≠ some '\\')
    {i : UseStatement} (hi : i ∈ (Statement.use u.list).imports) :
    WellFormed (i.entry known scope) ∨
      u.comma = true ∧ i.entry known scope = (qualify known scope u.prefixed, "") := by
  rw [imports_list] at hi
  rcases List.mem_append.mp hi with hi | hi
  · obtain ⟨n, hn, rfl⟩ := List.mem_map.mp hi
    exact .inl ((h.names n hn).wellFormed_entry hscope u.prefixed)
  · obtain ⟨hcomma, rfl⟩ := mem_remnant?_iff.mp (Option.mem_toList.mp hi)
    exact .inr ⟨hcomma, congrArg (Prod.mk _) (h.bare_prefixed hcomma)⟩

/-- Only a comma leaves an import without a segment at its end, and it has no local name. -/
theorem Valid.localName_of_bare (h : u.Valid) {i : UseStatement}
    (hi : i ∈ (Statement.use u.list).imports) (hbare : i.Bare) : i.localName = "" := by
  rw [imports_list] at hi
  rcases List.mem_append.mp hi with hi | hi
  · obtain ⟨n, hn, rfl⟩ := List.mem_map.mp hi
    exact absurd hbare ((h.names n hn).lastSegment_written u.prefixed)
  · obtain ⟨-, rfl⟩ := mem_remnant?_iff.mp (Option.mem_toList.mp hi)
    exact hbare

/-- Of the entries of a use statement at most one for each name is well formed. -/
theorem Valid.countP_imports_le (h : u.Valid) (scope : String) :
    ((Statement.use u.list).imports.map (UseStatement.entry known scope)).countP
      (fun e => WellFormed e) ≤ u.names.length := by
  have hnames : ((u.names.map fun n => n.read.under u.prefixed).map
      (UseStatement.entry known scope)).countP (fun e => WellFormed e) ≤ u.names.length := by
    rw [List.map_map]
    exact List.countP_le_length.trans_eq (List.length_map _)
  have hremnant : (u.remnant?.toList.map (UseStatement.entry known scope)).countP
      (fun e => WellFormed e) = 0 := by
    refine List.countP_eq_zero.mpr fun e he => ?_
    obtain ⟨r, hr, rfl⟩ := List.mem_map.mp he
    obtain ⟨hcomma, rfl⟩ := mem_remnant?_iff.mp (Option.mem_toList.mp hr)
    rw [decide_eq_true_iff]
    exact fun hwell => hwell.ne_empty (h.bare_prefixed hcomma)
  rw [imports_list, List.map_append, List.countP_append, hremnant]
  exact hnames

end Use

namespace Directive

variable {directives : List Directive} {closing : List Lexeme} {source : String}

/-- At most one entry for each imported name is well formed. -/
theorem countP_placed_le (h : ∀ d ∈ directives, d.Valid) (scope : String) :
    ((Statement.placed scope (directives.map statement)).map fun i => i.2.entry known i.1).countP
      (fun e => WellFormed e) ≤ (directives.flatMap names).length := by
  induction directives generalizing scope with
  | nil => exact Nat.le_refl _
  | cons d rest ih =>
    obtain ⟨hd, hrest⟩ := List.forall_mem_cons.mp h
    have hbehind := ih hrest (d.statement.scope?.getD scope)
    have hfirst : (d.statement.imports.map
        (UseStatement.entry known (d.statement.scope?.getD scope))).countP
          (fun e => WellFormed e) ≤ d.names.length := by
      cases d with
      | other | scope | skipped => exact Nat.zero_le _
      | use u => exact Use.Valid.countP_imports_le hd _
    rw [List.map_cons, Statement.placed, List.map_append, List.map_map, List.countP_append,
      List.flatMap_cons, List.length_append]
    exact Nat.add_le_add hfirst hbehind

/-- Imports come from use statements only. -/
theorem exists_use_of_mem_placed {i : String × UseStatement} (hi : i ∈ placed directives) :
    ∃ u, .use u ∈ directives ∧ i.2 ∈ (Statement.use u.list).imports := by
  obtain ⟨s, hs, himport⟩ := (Statement.mem_placed hi).1
  obtain ⟨d, hd, rfl⟩ := List.mem_map.mp hs
  cases d with
  | other | scope | skipped => cases himport
  | use u => exact ⟨u, hd, himport⟩

namespace Open

theorem countP_aliasTable_le (h : Open directives closing source) (p : String × String → Bool) :
    (aliasTable known directives).imports.countP p ≤
      ((placed directives).map fun i => i.2.entry known i.1).countP p := by
  have hcount : (aliasTable known directives).imports.countP p ≤ _ :=
    Statement.countP_foldl_apply_le h.isWritten p
  rwa [List.countP_nil, Nat.zero_add] at hcount

theorem entry_cases (h : Open directives closing source)
    (he : e ∈ (aliasTable known directives).imports) :
    WellFormed e ∨ ∃ u, .use u ∈ directives ∧ u.comma = true ∧
      ∃ scope, e = (qualify known scope u.prefixed, "") := by
  obtain ⟨i, hstays, rfl⟩ := h.mem_aliasTable_iff.mp he
  have hscope := Statement.head?_of_mem_placed hstays.mem
  obtain ⟨u, hu, himport⟩ := exists_use_of_mem_placed hstays.mem
  have hvalid : u.Valid := h.valid _ hu
  have hentry : WellFormed (i.2.entry known i.1) ∨ _ := hvalid.entry_of_mem_imports hscope himport
  rcases hentry with hwell | ⟨hcomma, heq⟩
  · exact .inl hwell
  · exact .inr ⟨u, hu, hcomma, i.1, heq⟩

/-- A comma at the end of a group always leaves such an entry in the table. -/
theorem exists_of_comma (h : Open directives closing source) {u : Use}
    (hu : .use u ∈ directives) (hcomma : u.comma = true) :
    ∃ e ∈ (aliasTable known directives).imports, ¬ WellFormed e := by
  have himport : { written := u.prefixed } ∈ (statement (use u)).imports :=
    Use.mem_imports_remnant hcomma
  have hbare : UseStatement.Bare { written := u.prefixed } :=
    Use.Valid.bare_prefixed (h.valid _ hu) hcomma
  obtain ⟨place, hplace⟩ := Statement.exists_mem_placed (List.mem_map.mpr ⟨_, hu, rfl⟩) himport ""
  obtain ⟨i, hstays, hi⟩ := exists_stays_of_bare ⟨_, hplace, hbare⟩
  obtain ⟨v, hv, himport⟩ := exists_use_of_mem_placed hstays.mem
  have hlocal := Use.Valid.localName_of_bare (h.valid _ hv) himport hi
  exact ⟨_, h.mem_aliasTable_iff.mpr ⟨i, hstays, rfl⟩, fun hwell => hwell.ne_empty hlocal⟩

/-- The entries of a table are whole names, at most as many as there are imported names, but for the
comma at the end of a group. It leaves what stands before the brace, with no local name. -/
theorem ofSource_entries (h : Open directives closing source) (known : String → Bool)
    (file : Option String) :
    ∃ table, AliasTable.ofSource known source file = .ok table ∧
      (∀ e ∈ table.imports, WellFormed e ∨ ∃ u, .use u ∈ directives ∧ u.comma = true ∧
        ∃ scope, e = (qualify known scope u.prefixed, "")) ∧
      table.imports.countP (fun e => WellFormed e) ≤ (directives.flatMap names).length ∧
      ((∀ e ∈ table.imports, WellFormed e) ↔ ∀ u, .use u ∈ directives → u.comma = false) := by
  refine ⟨aliasTable known directives, h.ofSource_eq known file, ?_, ?_, ?_⟩
  · intro e he
    exact h.entry_cases he
  · exact (h.countP_aliasTable_le _).trans (countP_placed_le h.valid "")
  · constructor
    · intro hall u hu
      by_contra hcomma
      obtain ⟨e, he, hill⟩ := h.exists_of_comma hu (Bool.not_eq_false _ ▸ hcomma)
      exact hill (hall e he)
    · intro hplain e he
      rcases h.entry_cases he with hwell | ⟨u, hu, hcomma, -⟩
      · exact hwell
      · rw [hplain u hu] at hcomma
        cases hcomma

end Open

theorem Open.ofSource_entries_group :
    let names : List UseName :=
      [{ listed := { words := ["Note"], renamed := some ("AS", "N") } },
        { listed := { words := ["Sub\\Tag"] } },
        { kind := some "const", listed := { words := ["C"] } }]
    let directives : List Directive :=
      [.scope "namespace" ["App"] ';', .use { base := some ["\\Lib\\"], names, comma := true },
        .use { names := [{ listed := { words := ["Note"] } }] }]
    let source := "<?php\nnamespace App;\nuse \\Lib\\\x7bNote AS N, Sub\\Tag, const C,\x7d;\n" ++
      "use Note;\nclass Host \x7b\x7d\n"
    Open directives [] source ∧
      ∃ table, AliasTable.ofSource (· = "App\\Note") source none = .ok table ∧
        table.imports.countP (fun e => WellFormed e) ≤ 4 ∧ ¬ ∀ e ∈ table.imports, WellFormed e := by
  intro names directives source
  have hopen : Open directives [] source :=
    ⟨by decide, by decide,
      lexemes_of_chars (append_of_chars rfl rfl) (by decide +kernel)⟩
  obtain ⟨table, hsource, -, hcount, hiff⟩ := hopen.ofSource_entries (· = "App\\Note") none
  refine ⟨hopen, table, hsource, hcount, fun hall => ?_⟩
  have hplain := hiff.mp hall { base := some ["\\Lib\\"], names, comma := true }
    (List.mem_cons_of_mem _ List.mem_cons_self)
  cases hplain

/-- The comma behind the only name of a group leaves a second entry. -/
theorem ofSource_trailing_comma :
    AliasTable.ofSource (fun _ => false) "<?php\nuse A\\\x7bB,\x7d;\nclass Host \x7b\x7d\n" none =
        .ok { imports := [("A\\B", "B"), ("A\\", "")] } ∧
      ¬ WellFormed ("A\\", "") := by
  decide +kernel

end Directive

end Import

end DocAnnotations
