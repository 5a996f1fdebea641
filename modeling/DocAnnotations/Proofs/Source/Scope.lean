import DocAnnotations.Source.Outline

/-! The namespace in which a class is declared among the statements of a source. -/
namespace DocAnnotations.Source

/-- The name in a namespace statement without a block, if this is one. -/
def begun? : StatementSyntax → Option (Option String)
  | .scope name => some name
  | .comment _ | .block _ _ | .declaration _ | .other => none

/-- The namespace behind statements that begin in the namespace `outer`: that of the last namespace
statement without a block among them. -/
def scopeBehind (outer : Option String) (statements : List StatementSyntax) : Option String :=
  (statements.filterMap begun?).getLast?.getD outer

/-- A class is declared in a namespace, among statements that begin in the namespace `outer`: by one
of them, in the namespace behind those before it, or in the block of a namespace statement. -/
inductive DeclaredIn (file : Option String) :
    Option String → List StatementSyntax → Option String → SourceClass → Prop where
  | among {outer : Option String} (before : List StatementSyntax) (cls : ClassSyntax)
      (after : List StatementSyntax) (doc : Option String) :
      DeclaredIn file outer (before ++ .declaration cls :: after) (scopeBehind outer before)
        (classOf file (scopeBehind outer before) doc cls)
  | inBlock {outer name scope : Option String} {inside : List StatementSyntax} {cls : SourceClass}
      (before after : List StatementSyntax) (hinside : DeclaredIn file name inside scope cls) :
      DeclaredIn file outer (before ++ .block name inside :: after) scope cls

variable {file outer scope : Option String} {statement : StatementSyntax}
  {statements : List StatementSyntax} {cls : SourceClass}

theorem scopeBehind_cons :
    scopeBehind outer (statement :: statements) =
      scopeBehind (scopeAfter outer statement) statements := by
  cases statement with
  | scope name => simp [scopeBehind, begun?, scopeAfter, List.getLast?_cons]
  | comment | block | declaration | other => rfl

/-- What is declared behind a statement is in the namespace that counts there. -/
theorem DeclaredIn.behind
    (h : DeclaredIn file (scopeAfter outer statement) statements scope cls) :
    DeclaredIn file outer (statement :: statements) scope cls := by
  generalize hnext : scopeAfter outer statement = next at h
  cases h with
  | among before syntaxOf after doc =>
    rw [← hnext, ← scopeBehind_cons]
    exact .among (statement :: before) syntaxOf after doc
  | inBlock before after hinside => exact .inBlock (statement :: before) after hinside

mutual

/-- The classes of a statement are declared by it, in the namespaces that they say. -/
theorem declaredIn_of_mem_classesIn {outer doc : Option String} (statement : StatementSyntax)
    (rest : List StatementSyntax) (h : cls ∈ classesIn file outer doc statement) :
    DeclaredIn file outer (statement :: rest) cls.scope cls := by
  match statement with
  | .block name inside => exact .inBlock [] rest (declaredIn_of_mem_classes inside h)
  | .declaration declared =>
    obtain rfl := List.mem_singleton.mp h
    exact .among [] declared rest doc
  | .comment _ | .scope _ | .other => cases h

theorem declaredIn_of_mem_classes {outer doc : Option String} (statements : List StatementSyntax)
    (h : cls ∈ classes file outer doc statements) :
    DeclaredIn file outer statements cls.scope cls := by
  match statements with
  | [] => cases h
  | statement :: rest =>
    rcases List.mem_append.mp h with h | h
    · exact declaredIn_of_mem_classesIn statement rest h
    · exact (declaredIn_of_mem_classes rest h).behind

end

/-- Every class of a source is declared in it, in the namespace that it says. -/
theorem declaredIn_of_mem_outline (h : cls ∈ outline file statements) :
    DeclaredIn file none statements cls.scope cls :=
  declaredIn_of_mem_classes statements h

end DocAnnotations.Source
