import DocAnnotations.Source.Parser.Expression
import DocAnnotations.Source.Parser.Statement
import DocAnnotations.Source.Syntax

/-!
A parser of sources, which an index has unless it is given another one. Declarations inside of
functions and conditions are not looked for.
-/

namespace DocAnnotations.Source.Parser

open Parser.Tree

/-- Words in front of members. -/
def memberModifiers : List String :=
  ["abstract", "final", "public", "protected", "private", "static", "var", "readonly"]

/-- The text of a comment. -/
def comment? : Tree → Option String
  | .leaf token => if token.kind = .comment then some (String.ofList token.text) else none
  | .group _ _ _ => none

/-- Whether a member begins here, or the class body ends. -/
def atMember (trees : List Tree) : Bool :=
  match skipExtras trees with
  | [] => true
  | tree :: _ => tree.isGroup "#[" || tree.name?.isSome

/-- The member in front, and what follows it. It ends with a semicolon, or with a body or hooks
behind which the next member begins. -/
def cutMember : List Tree → List Tree × List Tree
  | [] => ([], [])
  | tree :: rest =>
    if tree.isPunct ";" ∨ (tree.isGroup "\x7b" ∧ atMember rest) then ([tree], rest)
    else
      let (member, following) := cutMember rest
      (tree :: member, following)

/-- What follows the modifiers of a member. A modifier may say in parentheses what it is for. -/
def afterModifiers (trees : List Tree) : List Tree :=
  (Statement.skipAttributes trees).dropWhile fun tree =>
    tree.isExtra || Statement.isOneOf memberModifiers tree || isSetOnly tree
where
  isSetOnly (tree : Tree) : Bool :=
    tree.isGroup "(" && tree.inside.any (·.isWord "set")

/-- The variables of the properties in a declaration: the first one of each part. -/
def variablesOf (trees : List Tree) : List String :=
  (splitCommas trees).filterMap fun part => part.findSome? variableText?

/-- The member in a class body. -/
def memberOf (trees : List Tree) : MemberSyntax :=
  match afterModifiers trees with
  | [] => .other
  | word :: rest =>
    if word.isWord "function" then
      match (rest.dropWhile fun tree => tree.isExtra || tree.isPunct "&").head?.bind name? with
      | some name => .method name (attributesOf trees) (startLine trees) (endLine trees)
      | none => .other
    else if Statement.isOneOf ["use", "case", "const"] word then .other
    else .properties (variablesOf (word :: rest)) (attributesOf trees) (startLine trees)
      (endLine trees)

/-- The members of a class body. The first argument bounds their number. -/
def membersOf : Nat → List Tree → List MemberSyntax
  | 0, _ => []
  | _, [] => []
  | fuel + 1, tree :: rest =>
    if tree.isExtra then ((comment? tree).elim .other .comment) :: membersOf fuel rest
    else
      let (member, following) := cutMember (tree :: rest)
      memberOf member :: membersOf fuel following

/-- The names behind `extends` that are not relative to the namespace. -/
def parentsOf (header : List Tree) : List String :=
  let names := (header.dropWhile (!isWord "extends" ·)).drop 1
  ((names.takeWhile fun tree => !(tree.isWord "implements" || tree.isGroup "\x7b")).filterMap
    name?).filter (!isRelative ·)

def classKindOf (word : Tree) : ClassKind :=
  if word.isWord "interface" then .interface
  else if word.isWord "trait" then .trait
  else if word.isWord "enum" then .enumeration
  else .plainClass

/-- The class that a statement declares. -/
def classOf? (trees : List Tree) : Option ClassSyntax :=
  (Statement.classHeader? trees).map fun (word, header) =>
    let body := ((header.find? (isGroup "\x7b")).map inside).getD []
    { kind := classKindOf word
      name := (header.head?.bind name?).getD ""
      parents := parentsOf (header.takeWhile (!isGroup "\x7b" ·))
      attributes := attributesOf trees
      body := membersOf body.length body
      startLine := startLine trees
      endLine := endLine trees }

/-- The statements that trees are. The first argument bounds their number. -/
def statementsOf : Nat → List Tree → List StatementSyntax
  | 0, _ => []
  | _, [] => []
  | fuel + 1, tree :: rest =>
    if tree.isExtra then ((comment? tree).elim .other .comment) :: statementsOf fuel rest
    else
      let (statement, following) := Statement.cut (tree :: rest)
      let first : StatementSyntax :=
        if tree.isWord "namespace" then
          let name := (statement.drop 1).findSome? name?
          match statement.find? (isGroup "\x7b") with
          | some block => .block name (statementsOf fuel block.inside)
          | none => .scope name
        else (classOf? statement).elim .other .declaration
      first :: statementsOf fuel following

/-- The statements of a source. -/
def parse (source : String) : List StatementSyntax :=
  let tokens := lex source
  statementsOf tokens.length (ofTokens tokens)

end DocAnnotations.Source.Parser
