import DocAnnotations.Proofs.Import.EntryForm
import Mathlib.Data.List.Perm.Subperm

/-! Imports of functions and constants. Where they have a statement of their own they do not count.
In a group they count as classes. -/
namespace DocAnnotations.Import

open QualifiedName Text

variable {known : String → Bool}

/-- The class that a name is taken for: the word for its kind is the beginning of the class. -/
def UseName.asClass (n : UseName) : UseName where
  listed := { n.listed with words := [String.join n.read.words] }

namespace Directive

variable {directives : List Directive} {closing closing' : List Lexeme} {source source' : String}

/-- A statement without its functions and constants, if a name is left in it. -/
def classesOnly : Directive → Option Directive
  | skipped _ _ _ => none
  | use u =>
    if u.names.all (·.kind.isSome) then none
    else some (use { u with names := u.names.filter (·.kind.isNone) })
  | d => some d

/-- A statement with classes in place of its functions and constants, if it is one for classes. -/
def asClasses : Directive → Option Directive
  | skipped _ _ _ => none
  | use u => some (use { u with names := u.names.map UseName.asClass })
  | d => some d

/-- A function or a constant stands among the classes of a group. -/
def Mixed (d : Directive) : Prop :=
  ∃ n ∈ d.names, n.kind.isSome = true

instance (d : Directive) : Decidable d.Mixed :=
  inferInstanceAs (Decidable (∃ n ∈ d.names, _))

/-- No import replaces one in front of it. -/
def Distinct (known : String → Bool) (directives : List Directive) : Prop :=
  (placed directives).Pairwise fun i later =>
    ¬ later.2.Replaces known later.1 (i.2.qualified known i.1)

instance (known : String → Bool) (directives : List Directive) :
    Decidable (Distinct known directives) :=
  inferInstanceAs (Decidable (List.Pairwise _ _))

section Rewritten

variable {f : Directive → Option Directive} {first : AliasTable}

/-- Statements may be replaced by others that do the same, and left out where they do nothing. -/
theorem foldl_apply_filterMap (hf : ∀ d ∈ directives, ∀ table,
    (f d).elim table (·.statement.apply known table) = d.statement.apply known table) :
    ((directives.filterMap f).map statement).foldl (Statement.apply known) first =
      (directives.map statement).foldl (Statement.apply known) first := by
  induction directives generalizing first with
  | nil => rfl
  | cons d rest ih =>
    obtain ⟨hd, hrest⟩ := List.forall_mem_cons.mp hf
    rw [List.map_cons, List.foldl_cons, ← hd first, ← ih hrest, List.filterMap_cons]
    cases f d <;> rfl

theorem ofSource_filterMap (h : Open directives closing source)
    (h' : Open (directives.filterMap f) closing' source') (file : Option String)
    (hf : ∀ d ∈ directives, ∀ table,
      (f d).elim table (·.statement.apply known table) = d.statement.apply known table) :
    AliasTable.ofSource known source file = AliasTable.ofSource known source' file := by
  rw [h.ofSource_eq, h'.ofSource_eq, aliasTable, aliasTable, foldl_apply_filterMap hf]

end Rewritten

/-- A function or constant in a group is imported as the class it is taken for. -/
theorem apply_asClasses (d : Directive) (table : AliasTable) :
    (asClasses d).elim table (·.statement.apply known table) = d.statement.apply known table := by
  cases d with
  | other | scope | skipped => rfl
  | use u =>
    have hnames : (u.names.map UseName.asClass).map (fun n => n.read.under u.prefixed) =
        u.names.map fun n => n.read.under u.prefixed := by
      rw [List.map_map]
      refine List.map_congr_left fun n _ => ?_
      simp [UseName.asClass, UseName.read, Listed.under]
    have himports :
        (Statement.use (Use.list { u with names := u.names.map UseName.asClass })).imports =
          (Statement.use u.list).imports := by
      rw [Use.imports_list, Use.imports_list]
      exact congrArg (· ++ _) hnames
    exact congrArg (recordAll known table) himports

/-- Only statements of their own are left out where no group is mixed. -/
theorem apply_classesOnly {d : Directive} (hd : d.Valid) (hmixed : ¬ d.Mixed) (table : AliasTable) :
    (classesOnly d).elim table (·.statement.apply known table) =
      d.statement.apply known table := by
  cases d with
  | other | scope | skipped => rfl
  | use u =>
    have hplain : ∀ n ∈ u.names, n.kind.isNone = true := by
      intro n hn
      rw [Option.isNone_iff_eq_none, ← Option.not_isSome_iff_eq_none]
      exact fun hsome => hmixed ⟨n, hn, hsome⟩
    have hall : u.names.all (·.kind.isSome) = false := by
      obtain ⟨n, hn⟩ := List.exists_mem_of_ne_nil _ (Use.Valid.ne_nil hd)
      refine List.all_eq_false.mpr ⟨n, hn, fun hsome => hmixed ⟨n, hn, hsome⟩⟩
    rw [classesOnly, hall, if_neg Bool.false_ne_true, List.filter_eq_self.mpr hplain]
    rfl

section Count

/-- The imports of a statement. -/
def imports (d : Directive) : List UseStatement :=
  d.statement.imports

theorem length_placed (directives : List Directive) :
    (placed directives).length = (directives.flatMap imports).length := by
  have hany (scope : String) : (Statement.placed scope (directives.map statement)).length =
      (directives.flatMap imports).length := by
    induction directives generalizing scope with
    | nil => rfl
    | cons d rest ih => simp [Statement.placed, imports, ih]
  exact hany ""

/-- Where no import replaces another one, each of them has an entry. -/
theorem Distinct.length_placed_le (hdistinct : Distinct known directives)
    (h : Open directives closing source) :
    (placed directives).length ≤ (aliasTable known directives).imports.length := by
  have hnodup : ((placed directives).map fun i => i.2.entry known i.1).Nodup := by
    refine List.pairwise_map.mpr (hdistinct.imp fun {i later} hkeeps heq => hkeeps ?_)
    exact .inl (congrArg Prod.fst heq).symm
  have hsubset : (placed directives).map (fun i => i.2.entry known i.1) ⊆
      (aliasTable known directives).imports := by
    intro e he
    obtain ⟨i, hi, rfl⟩ := List.mem_map.mp he
    obtain ⟨before, after, hsplit⟩ := List.append_of_mem hi
    rw [Distinct, hsplit] at hdistinct
    have hafter := (List.pairwise_cons.mp (List.pairwise_append.mp hdistinct).2.1).1
    exact h.mem_aliasTable_iff.mpr ⟨i, ⟨before, after, hsplit, hafter⟩, rfl⟩
  rw [← List.length_map (fun i => i.2.entry known i.1)]
  exact (hnodup.subperm hsubset).length_le

theorem Open.length_aliasTable_le (h : Open directives closing source) :
    (aliasTable known directives).imports.length ≤ (directives.flatMap imports).length := by
  have hcount : (aliasTable known directives).imports.countP (fun _ => true) ≤ _ :=
    h.countP_aliasTable_le _
  rw [← length_placed]
  simpa using hcount

theorem length_imports_use (u : Use) :
    (use u).imports.length = u.names.length + u.remnant?.toList.length := by
  rw [imports, statement, Use.imports_list, List.length_append, List.length_map]

theorem length_imports_le (d : Directive) :
    ((classesOnly d).elim [] imports).length ≤ d.imports.length := by
  cases d with
  | other | scope | skipped => exact Nat.le_refl _
  | use u =>
    rw [classesOnly]
    split
    next => exact Nat.zero_le _
    next =>
      rw [Option.elim_some, length_imports_use, length_imports_use]
      exact Nat.add_le_add_right (List.length_filter_le _ _) _

theorem Mixed.length_imports_lt {d : Directive} (h : d.Mixed) :
    ((classesOnly d).elim [] imports).length < d.imports.length := by
  obtain ⟨n, hn, hkind⟩ := h
  cases d with
  | other | scope | skipped => cases hn
  | use u =>
    rw [classesOnly]
    split
    next =>
      rw [Option.elim_none, length_imports_use]
      exact Nat.lt_add_right _ (List.length_pos_of_mem hn)
    next =>
      have hfilter : (u.names.filter (·.kind.isNone)).length < u.names.length := by
        refine List.length_filter_lt_length_iff_exists.mpr ⟨n, hn, fun hnone => ?_⟩
        rw [Option.isNone_iff_eq_none] at hnone
        rw [hnone] at hkind
        cases hkind
      rw [Option.elim_some, length_imports_use, length_imports_use]
      exact Nat.add_lt_add_right hfilter _

theorem flatMap_imports_cons (d : Directive) (rest : List Directive) :
    ((d :: rest).filterMap classesOnly).flatMap imports =
      (classesOnly d).elim [] imports ++ (rest.filterMap classesOnly).flatMap imports := by
  rw [List.filterMap_cons]
  cases classesOnly d <;> rfl

theorem length_flatMap_imports_le (directives : List Directive) :
    ((directives.filterMap classesOnly).flatMap imports).length ≤
      (directives.flatMap imports).length := by
  induction directives with
  | nil => exact Nat.le_refl _
  | cons d rest ih =>
    have hd := length_imports_le d
    rw [flatMap_imports_cons, List.flatMap_cons, List.length_append, List.length_append]
    omega

theorem length_flatMap_imports_lt (h : ∃ d ∈ directives, d.Mixed) :
    ((directives.filterMap classesOnly).flatMap imports).length <
      (directives.flatMap imports).length := by
  obtain ⟨d, hd, hmixed⟩ := h
  obtain ⟨before, after, rfl⟩ := List.append_of_mem hd
  have hbefore := length_flatMap_imports_le before
  have hafter := length_flatMap_imports_le after
  have hlt := hmixed.length_imports_lt
  rw [List.filterMap_append, List.flatMap_append, List.flatMap_append, flatMap_imports_cons,
    List.flatMap_cons]
  simp only [List.length_append]
  omega

end Count

/-- Imports of functions and constants in statements of their own do not count. Among the classes of
a group each is imported as the class it is taken for, so that the table is another one without
them, where no other import replaces theirs. -/
theorem Open.ofSource_classesOnly (h : Open directives closing source)
    (h' : Open (directives.filterMap classesOnly) closing' source') (known : String → Bool)
    (file : Option String) :
    (∀ spelled closing'', Open (directives.filterMap asClasses) closing'' spelled →
      AliasTable.ofSource known source file = AliasTable.ofSource known spelled file) ∧
    ((∀ d ∈ directives, ¬ d.Mixed) →
      AliasTable.ofSource known source file = AliasTable.ofSource known source' file) ∧
    (Distinct known directives → (∃ d ∈ directives, d.Mixed) →
      AliasTable.ofSource known source file ≠ AliasTable.ofSource known source' file) := by
  refine ⟨fun spelled closing'' hspelled => ?_, fun hplain => ?_, fun hdistinct hmixed heq => ?_⟩
  · exact ofSource_filterMap h hspelled file fun d _ => apply_asClasses d
  · exact ofSource_filterMap h h' file fun d hd => apply_classesOnly (h.valid d hd) (hplain d hd)
  · rw [h.ofSource_eq, h'.ofSource_eq] at heq
    have htables : aliasTable known directives =
        aliasTable known (directives.filterMap classesOnly) := Except.ok.inj heq
    have hall := hdistinct.length_placed_le h
    have hkept : (aliasTable known (directives.filterMap classesOnly)).imports.length ≤ _ :=
      h'.length_aliasTable_le
    have hlt := length_flatMap_imports_lt hmixed
    rw [length_placed, htables] at hall
    omega

theorem Open.ofSource_classesOnly_mixed :
    let opening : List Directive :=
      [.scope "namespace" ["App"] ';', .skipped "use" "FUNCTION" [.word "f", .punct ',', .word "g"]]
    let note : UseName := { listed := { words := ["Note"], renamed := some ("as", "N") } }
    let const : UseName := { kind := some "const", listed := { words := ["C"] } }
    let group (names : List UseName) : Directive := .use { base := some ["Lib\\"], names }
    let source (statements : String) := "<?php\nnamespace App;\n" ++ statements ++
      "\nclass Host \x7b\x7d\n"
    let mixed := source "use FUNCTION f, g;\nuse Lib\\\x7bNote as N, const C\x7d;"
    let plain := source "use FUNCTION f, g;\nuse Lib\\\x7bNote as N\x7d;"
    let spelled := source "use Lib\\\x7bNote as N, constC\x7d;"
    let kept := source "use Lib\\\x7bNote as N\x7d;"
    Open (opening ++ [group [note, const]]) [] mixed ∧ Open (opening ++ [group [note]]) [] plain ∧
      AliasTable.ofSource (fun _ => false) mixed none =
        AliasTable.ofSource (fun _ => false) spelled none ∧
      AliasTable.ofSource (fun _ => false) mixed none ≠
        AliasTable.ofSource (fun _ => false) kept none ∧
      AliasTable.ofSource (fun _ => false) plain none =
        AliasTable.ofSource (fun _ => false) kept none := by
  intro opening note const group source mixed plain spelled kept
  have hsource {statements : String} {cs : List Char} (h : statements = String.ofList cs) :
      source statements = String.ofList ("<?php\nnamespace App;\n".toList ++ cs ++
        "\nclass Host \x7b\x7d\n".toList) :=
    append_of_chars (append_of_chars rfl h) rfl
  have hmixed : Open (opening ++ [group [note, const]]) [] mixed :=
    ⟨by decide, by decide, lexemes_of_chars (hsource rfl) (by decide +kernel)⟩
  have hplain : Open (opening ++ [group [note]]) [] plain :=
    ⟨by decide +kernel, by decide, lexemes_of_chars (hsource rfl) (by decide +kernel)⟩
  have hkept : Open ((opening ++ [group [note, const]]).filterMap classesOnly) [] kept :=
    ⟨by decide, by decide, lexemes_of_chars (hsource rfl) (by decide +kernel)⟩
  have hkept' : Open ((opening ++ [group [note]]).filterMap classesOnly) [] kept := hkept
  have hspelled : Open [.scope "namespace" ["App"] ';', group [note.asClass, const.asClass]] []
      spelled :=
    ⟨by decide +kernel, by decide, lexemes_of_chars (hsource rfl) (by decide +kernel)⟩
  obtain ⟨htaken, -, hne⟩ := hmixed.ofSource_classesOnly hkept (fun _ => false) none
  obtain ⟨-, heq, -⟩ := hplain.ofSource_classesOnly hkept' (fun _ => false) none
  refine ⟨hmixed, hplain, htaken spelled [] hspelled, hne ?_ ?_, heq ?_⟩
  · decide
  · decide
  · decide

/-- A function in a group is imported as a class. -/
theorem ofSource_mixed_ne :
    let source (names : String) := "<?php\nuse A\\\x7b" ++ names ++ "\x7d;\nclass Host \x7b\x7d\n"
    AliasTable.ofSource (fun _ => false) (source "function f, B") none =
        .ok { imports := [("A\\functionf", "functionf"), ("A\\B", "B")] } ∧
      AliasTable.ofSource (fun _ => false) (source "B") none =
        .ok { imports := [("A\\B", "B")] } := by
  intro source
  have hsource {names : String} {cs : List Char} (h : names = String.ofList cs) :
      source names = String.ofList
        ("<?php\nuse A\\\x7b".toList ++ cs ++ "\x7d;\nclass Host \x7b\x7d\n".toList) :=
    append_of_chars (append_of_chars rfl h) rfl
  exact ⟨(ofSource_of_chars none (hsource rfl)).trans (by decide +kernel),
    (ofSource_of_chars none (hsource rfl)).trans (by decide +kernel)⟩

end Directive

end DocAnnotations.Import
