import DocAnnotations.Proofs.Import.Statements
import DocAnnotations.Proofs.Reader.Request
import DocAnnotations.Proofs.Source.Scope

/-! The namespace and the imports that count in a class of a source. -/
namespace DocAnnotations.Reader

open Import QualifiedName Text

variable {source : String} {cls : SourceClass} {statements : List Import.Statement}
  {closing : List Lexeme} {table : AliasTable}

/-- The table has the imports of the statements that stay. In a class outside of namespaces it has
no namespace if the statements begin none. -/
structure ScopedBy (known : String → Bool) (statements : List Import.Statement) (cls : SourceClass)
    (table : AliasTable) : Prop where
  unscoped : cls.scope = none → (∀ s ∈ statements, ∀ name ∈ s.scope?, name = "") →
    table.scope = ""
  imports : ∀ e, e ∈ table.imports ↔
    ∃ i, Stays known (Statement.placed "" statements) i ∧ e = i.2.entry known i.1

/-- The table of a class in a namespace has that namespace. -/
theorem scope_of_computeTable {reader : Reader} {name : String}
    (h : reader.computeTable cls = .ok table) (hname : name ∈ cls.scope) : table.scope = name := by
  unfold computeTable at h
  cases hsource : AliasTable.ofSource reader.isKnown (reader.index.source cls.qualifiedName)
      cls.file with
  | error stop => simp [hsource, Except.map] at h
  | ok found =>
    rw [hsource] at h
    obtain rfl := Except.ok.inj h
    rw [inNamespace, Option.mem_def.mp hname]

theorem inNamespace_imports (cls : SourceClass) (table : AliasTable) :
    (inNamespace cls table).imports = table.imports := by
  unfold inNamespace
  split <;> rfl

theorem scopeAfter_eq_empty {statements : List Import.Statement}
    (h : ∀ s ∈ statements, ∀ name ∈ s.scope?, name = "") :
    Statement.scopeAfter "" statements = "" := by
  induction statements with
  | nil => rfl
  | cons s rest ih =>
    have hs : s.scope?.getD "" = "" := by
      cases hscope : s.scope? with
      | none => rfl
      | some name => exact h s (by simp) name hscope
    rw [Statement.scopeAfter, List.foldl_cons, hs]
    exact ih fun t ht => h t (by simp [ht])

theorem scopedBy_inNamespace (known : String → Bool) (h : Statement.Open statements closing source)
    (cls : SourceClass) : ScopedBy known statements cls
      (inNamespace cls (statements.foldl (Statement.apply known) {})) := by
  have himports (e : String × String) :
      e ∈ (statements.foldl (Statement.apply known) {}).imports ↔ _ :=
    Statement.mem_foldl_apply_iff fun s hs i hi => (h.named hs hi).isWritten
  have hscope : (statements.foldl (Statement.apply known) {}).scope = _ :=
    Statement.scope_foldl_apply statements
  refine ⟨fun hnone hglobal => ?_, fun e => ?_⟩
  · rw [inNamespace, hnone]
    exact hscope.trans (scopeAfter_eq_empty hglobal)
  · rw [inNamespace_imports, himports]
    simp

/-- Whatever a reader was asked for, it reads a class of a source in the namespace in which it is
declared among the statements of the source, with the imports in front of the first class there. How
sources are parsed into statements is left open. -/
theorem scopeOf_extracted {before : SourceIndex} (hbefore : before.Built) (source : String)
    (file : Option String) {later : List (String × Option String)}
    (registry : Registry) (typeNames : List String) (throwAll throwPrivileged : Bool)
    {requests : List Request} (hvalid : ∀ request ∈ requests, request.Valid) {cls : SourceClass}
    (hcls : cls ∈ (before.addSource source file).1)
    (hlater : before.Without cls.qualifiedName later)
    (hheld : ((before.addSource source file).2.addSources later).class? cls.qualifiedName =
      some cls) :
    let index := (before.addSource source file).2.addSources later
    let reader := requests.foldl Request.run
      { index, resolver := { registry, typeNames }, throwAll, throwPrivileged }
    Source.DeclaredIn (SourceIndex.shownPath file) none (before.parse source) cls.scope cls ∧
      (∀ scope, (scopeOf cls reader).1 = .ok scope →
        ∀ name ∈ cls.scope, scope.table.scope = name) ∧
      ∀ statements closing, Statement.Open statements closing source →
        ∃ scope, (scopeOf cls reader).1 = .ok scope ∧
          ScopedBy (fun name => registry.contains name || index.contains name) statements cls
            scope.table := by
  intro index reader
  have hbuilt : index.Built := (hbefore.addSource source file).addSources later
  have hcoherent := coherent_of_requests hbuilt registry typeNames throwAll throwPrivileged hvalid
  have hfresh := (scopeOf_leads (stable_coherent _ _).names hheld reader hcoherent).2
  have hsource : index.source cls.qualifiedName = source :=
    SourceIndex.source_addSources (hbuilt.dropLeading_qualifiedName hheld)
      (List.mem_map_of_mem hcls) hlater
  rw [hfresh]
  refine ⟨Source.declaredIn_of_mem_outline hcls, fun scope hscope name hname => ?_,
    fun statements closing hopen => ?_⟩
  · exact scope_of_computeTable (freshScope_eq_ok_iff.mp hscope).1 hname
  · rw [freshScope, computeTable, hsource, hopen.ofSource_eq]
    exact ⟨_, rfl, scopedBy_inNamespace _ hopen cls⟩

/-- Two blocks, in each of which a class is declared behind use statements. -/
def blocksSource : String :=
  "<?php\nnamespace App \x7b\nuse \\Lib\\\x7bNote, Tag as T\x7d;\nuse function f;\n" ++
    "final class First \x7b\x7d\n\x7d\nnamespace Other \x7b\nuse Vendor\\Map;\n" ++
    "class Second \x7b\x7d\n\x7d\n"

def blocksStatements : List Source.StatementSyntax :=
  [.other,
    .block (some "App")
      [.other, .other, .declaration { name := "First", startLine := 5, endLine := 5 }],
    .block (some "Other")
      [.other, .declaration { name := "Second", startLine := 9, endLine := 9 }]]

def thirdSource : String :=
  "<?php\nclass Third \x7b\x7d\n"

/-- The index that reads these two sources. -/
def blocksIndex : SourceIndex where
  parse source :=
    if source = blocksSource then blocksStatements
    else if source = thirdSource then
      [.other, .declaration { name := "Third", startLine := 2, endLine := 2 }]
    else []

/-- What stands in front of the first class of the first source. -/
def blocksOpening : List Import.Statement :=
  [.scope "namespace" ["App"] '{',
    .use
      { base := some ["\\Lib\\"]
        names := [{ words := ["Note"] }, { words := ["Tag"], renamed := some ("as", "T") }] },
    .skipped "use" "function" [.word "f"]]

theorem open_blocksSource : Statement.Open blocksOpening [] blocksSource :=
  ⟨by decide, by decide,
    lexemes_of_chars (append_of_chars (append_of_chars rfl rfl) rfl) (by decide +kernel)⟩

/-- The class that is declared in the second block. -/
def blocksSecond : SourceClass :=
  Source.classOf none (some "Other") none { name := "Second", startLine := 9, endLine := 9 }

theorem blocksSecond_mem : blocksSecond ∈ (blocksIndex.addSource blocksSource none).1 := by
  decide

theorem scopeOf_extracted_blocks :
    ∃ cls ∈ (blocksIndex.addSource blocksSource none).1, cls.qualifiedName = "Other\\Second" ∧
      ∃ scope, (scopeOf cls (Request.run
          { index := (blocksIndex.addSource blocksSource none).2.addSources [(thirdSource, none)] }
          (.annotationsOfClass "Other\\Second"))).1 = .ok scope ∧
        scope.table.scope = "Other" ∧ ("Lib\\Tag", "T") ∈ scope.table.imports := by
  have hname : blocksSecond.qualifiedName = "Other\\Second" := by decide
  have hnodup : ((blocksIndex.addSource blocksSource none).1.map (·.qualifiedName)).Nodup := by
    decide
  have hlater : blocksIndex.Without blocksSecond.qualifiedName [(thirdSource, none)] := by
    decide
  have hheld := @SourceIndex.class?_addSources blocksIndex blocksSource blocksSecond none _
    (by decide) hnodup blocksSecond_mem hlater
  have hvalid : ∀ request ∈ [Request.annotationsOfClass "Other\\Second"], request.Valid := by
    simp [Request.Valid]
  obtain ⟨-, hnamespace, hstatements⟩ := scopeOf_extracted .empty blocksSource none {} [] false true
    hvalid blocksSecond_mem hlater hheld
  obtain ⟨scope, hread, hscoped⟩ := hstatements blocksOpening [] open_blocksSource
  have hscope : scope.table.scope = "Other" := hnamespace scope hread _ rfl
  rw [List.foldl_cons, List.foldl_nil] at hread
  let tag := Listed.under "\\Lib\\" { words := ["Tag"], renamed := some ("as", "T") }
  have hplaced : Statement.placed "" blocksOpening =
      [("App", Listed.under "\\Lib\\" { words := ["Note"] }), ("App", tag)] := by decide
  have hstays (known : String → Bool) :
      Stays known (Statement.placed "" blocksOpening) ("App", tag) := ⟨[_], [], hplaced, nofun⟩
  exact ⟨blocksSecond, blocksSecond_mem, hname, scope, hread, hscope,
    (hscoped.imports _).mpr ⟨_, hstays _, by decide⟩⟩

/-- The second class does not have the import in its own block, but those in the other one. -/
theorem scopeOf_extracted_foreign :
    ∃ cls ∈ (blocksIndex.addSource blocksSource none).1,
      Source.DeclaredIn none none (blocksIndex.parse blocksSource) (some "Other") cls ∧
        (scopeOf cls { index := (blocksIndex.addSource blocksSource none).2 }).1.toOption.map
          (·.table) =
            some { scope := "Other", imports := [("Lib\\Note", "Note"), ("Lib\\Tag", "T")] } := by
  let index := (blocksIndex.addSource blocksSource none).2
  have hheld : index.class? blocksSecond.qualifiedName = some blocksSecond := by decide
  have hsource : index.source blocksSecond.qualifiedName = blocksSource := by decide
  have hfresh : (scopeOf blocksSecond { index }).1 = freshScope index {} blocksSecond :=
    (scopeOf_leads (stable_coherent index {}).names hheld _ (coherent_fresh index {} false true)).2
  refine ⟨blocksSecond, blocksSecond_mem, Source.declaredIn_of_mem_outline blocksSecond_mem, ?_⟩
  rw [hfresh, freshScope, computeTable, hsource, open_blocksSource.ofSource_eq]
  decide

end DocAnnotations.Reader
