import DocAnnotations.AliasTable
import DocAnnotations.Import.Token
import DocAnnotations.ReadError
import DocAnnotations.Text.Lower

/-!
Namespace and use statements, read token by token into an alias table.
-/

namespace DocAnnotations.Import

open QualifiedName

/-- An import of a use statement as far as it has been read. In a group `base` is what stands
before the brace. -/
structure Clause where
  base : String := ""
  current : String := ""
  localName : Option String := none
  expectsLocal : Bool := false
  deriving DecidableEq, Repr

/-- Where the reader of statements stands. -/
inductive State where
  /-- Outside the statements that count; the flag says whether one may begin here. -/
  | outside (atStart : Bool)
  /-- In a namespace statement, with its name so far. -/
  | scope (name : String)
  /-- Behind the word `use`. -/
  | opened
  /-- In an import of functions or constants, which are no classes. -/
  | ignored
  /-- In an import of classes. -/
  | importing (clause : Clause)
  deriving DecidableEq, Repr

namespace Clause

/-- The imported name as it is written. -/
def written (clause : Clause) : String :=
  clause.base ++ clause.current

/-- The clause after one more name. -/
def addWord (clause : Clause) (word : String) : Clause :=
  if Text.lower word = "as" then { clause with expectsLocal := true }
  else if clause.expectsLocal then { clause with localName := some word, expectsLocal := false }
  else { clause with current := clause.current ++ word }

end Clause

/-- The qualified name of an import. A relative name is taken in the namespace if that class is
known. -/
def qualify (known : String → Bool) (scope written : String) : String :=
  let name := dropLeading written
  if !isAbsolute written && scope ≠ "" && known (below scope name) then below scope name else name

/-- Records an import. It comes last, so that later imports of a name win, and replaces an entry
for the same class under either name. -/
def record (known : String → Bool) (table : AliasTable) (clause : Clause) : AliasTable :=
  let written := Text.strip clause.written
  if written = "" then table
  else
    let qualified := qualify known table.scope written
    let others :=
      if qualified = dropLeading written then table.imports else table.imports.erase written
    let localName := clause.localName.getD (lastSegment qualified)
    { table with imports := others.erase qualified ++ [(qualified, localName)] }

/-- The state and table after a token of a use statement. -/
def stepImport (known : String → Bool) (file : Option String) (table : AliasTable) (clause : Clause)
    (token : Token) : Except ReadError (State × AliasTable) :=
  match token.lexeme with
  | .word w => .ok (.importing (clause.addWord w), table)
  | .punct ',' =>
    .ok (.importing { clause with current := "", localName := none }, record known table clause)
  | .punct '{' =>
    .ok (.importing { clause with base := clause.written, current := "" }, table)
  | .punct '}' =>
    if clause.base = "" then .error { cause := .unbalancedGroup token.line file }
    else
      .ok (.importing { clause with base := "", current := "", localName := none },
        record known table clause)
  | .punct ';' => .ok (.outside true, record known table clause)
  | .punct _ => .ok (.importing clause, table)

/-- Whether a statement may begin behind a token. -/
def endsStatement (lexeme : Lexeme) : Bool :=
  lexeme = .punct ';' || lexeme = .punct '{' || lexeme = .punct '}'

/-- The state behind a token outside the statements that count. -/
def stepOutside (atStart : Bool) (lexeme : Lexeme) : State :=
  match lexeme with
  | .word w =>
    if atStart && Text.lower w = "namespace" then .scope ""
    else if atStart && Text.lower w = "use" then .opened
    else .outside false
  | .punct _ => .outside (endsStatement lexeme)

/-- The state and table after a token. -/
def step (known : String → Bool) (file : Option String) (s : State × AliasTable) (token : Token) :
    Except ReadError (State × AliasTable) :=
  match s.1 with
  | .outside atStart => .ok (stepOutside atStart token.lexeme, s.2)
  | .scope name =>
    match token.lexeme with
    | .word w => .ok (.scope (name ++ w), s.2)
    | .punct c =>
      if c = ';' ∨ c = '{' then .ok (.outside true, { s.2 with scope := dropOuter name })
      else .ok (.scope name, s.2)
  | .opened =>
    match token.lexeme with
    | .word w =>
      if Text.lower w = "function" ∨ Text.lower w = "const" then .ok (.ignored, s.2)
      else stepImport known file s.2 {} token
    | .punct _ => stepImport known file s.2 {} token
  | .ignored => .ok (if token.lexeme = .punct ';' then .outside true else .ignored, s.2)
  | .importing clause => stepImport known file s.2 clause token

/-- The table at the end of the tokens. A namespace statement and an import of functions or
constants need their end. -/
def finish (s : State × AliasTable) : Except Abort AliasTable :=
  match s.1 with
  | .scope _ | .ignored => .error .unfinishedStatement
  | _ => .ok s.2

/-- The alias table of a list of tokens. -/
def tableOfTokens (known : String → Bool) (file : Option String) (tokens : List Token) :
    Except Abort AliasTable :=
  match tokens.foldlM (step known file) (.outside true, {}) with
  | .ok s => finish s
  | .error e => .error (.error e)

end DocAnnotations.Import
