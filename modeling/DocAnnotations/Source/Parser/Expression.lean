import DocAnnotations.Pieces
import DocAnnotations.Source.Expression
import DocAnnotations.Source.Parser.Tree

/-!
Reading native attributes and the expressions in them. Only the forms that arguments tell apart are
recognised; operators and calls are taken as a whole.
-/

namespace DocAnnotations.Source.Parser

open Parser.Tree

/-- Drops comments and markup at both ends. -/
def trimExtras (trees : List Tree) : List Tree :=
  ((skipExtras trees).reverse.dropWhile isExtra).reverse

/-- The parts between commas that hold anything. -/
def splitCommas (trees : List Tree) : List (List Tree) :=
  ((pieces (isPunct ",") trees).map trimExtras).filter (!·.isEmpty)

/-- Words that an operand does not begin with. -/
def operatorWords : List String :=
  ["new", "clone", "print", "yield", "throw", "include", "include_once", "require",
   "require_once", "fn", "function", "match", "not"]

/-- Whether an operand may begin with a tree. -/
def beginsOperand : Tree → Bool
  | .leaf token =>
    (token.kind = .word && !operatorWords.any token.isWord) || token.kind = .variableName
      || token.kind = .quoted
  | .group opening _ _ => opening.isPunct "(" || opening.isPunct "["

/-- Whether the trees select members, call and index, and do nothing else. -/
def onlySelects : List Tree → Bool
  | [] => true
  | tree :: rest =>
    if tree.isPunct "::" ∨ tree.isPunct "->" ∨ tree.isPunct "?->" then
      match rest with
      | [] => false
      | selected :: rest =>
        (selected.name?.isSome || selected.variableText?.isSome || selected.isGroup "\x7b")
          && onlySelects rest
    else (tree.isGroup "(" || tree.isGroup "[" || tree.isGroup "\x7b") && onlySelects rest

/-- Whether the trees are one operand with the members that it selects. -/
def isChain (trees : List Tree) : Bool :=
  match trees.filter (!isExtra ·) with
  | [] => false
  | first :: rest => beginsOperand first && onlySelects rest

/-- What stands before `::class`, if nothing stands between the two signs. -/
def classOwner? (trees : List Tree) : Option (List Char) :=
  match trees.reverse with
  | .leaf word :: .leaf sign :: _ =>
    let source := sourceText trees
    if word.text = "class".toList ∧ word.gap = [] ∧ sign.isPunct "::" ∧ isChain trees then
      some (Text.trim (source.take (source.length - 7)))
    else none
  | _ => none

def literalWords : List String := ["true", "false", "null"]

/-- The expression that is one token. -/
def expressionOfToken (token : Token) : Expression :=
  if token.kind = .quoted then .quoted token.text
  else if token.kind = .number ∨ literalWords.any token.isWord then .literal token.text
  else .other token.text

/-- The key and the value of an array element. A comment beside the arrow leaves the key alone to
be the value. -/
def splitArrow (trees : List Tree) : Option (List Tree) × List Tree :=
  match trees.span (!isPunct "=>" ·) with
  | (_, []) => (none, trees)
  | (key, _ :: value) =>
    if key.any (·.isWord "fn") then (none, trees)
    else if key.getLast?.any isExtra ∨ value.head?.any isExtra then (none, trimExtras key)
    else (some key, value)

/-- The items of an array, if the trees are one. -/
def arrayItems? (trees : List Tree) : Option (List Tree) :=
  match trees.filter (!isExtra ·) with
  | [items] => if items.isGroup "[" then some items.inside else none
  | [word, items] =>
    if word.isWord "array" ∧ items.isGroup "(" then some items.inside else none
  | _ => none

/-- Reads an expression. The first argument bounds the depth of arrays. -/
def expressionOf : Nat → List Tree → Expression
  | 0, trees => .other (sourceText trees)
  | depth + 1, trees =>
    match arrayItems? trees with
    | some items =>
      .array ((splitCommas items).map fun part =>
        let (key, v) := splitArrow part
        (key.map (expressionOf depth), expressionOf depth v)) (sourceText trees)
    | none =>
      match trees, classOwner? trees with
      | [.leaf token], _ => expressionOfToken token
      | _, some owner => .className owner (sourceText trees)
      | _, none => .other (sourceText trees)

/-- The label of an argument, and its value. -/
def splitLabel (trees : List Tree) : Option (List Char) × List Tree :=
  match trees with
  | .leaf token :: rest =>
    match skipExtras rest with
    | sign :: v =>
      if token.kind = .word ∧ sign.isPunct ":" then (some token.text, skipExtras v)
      else (none, trees)
    | [] => (none, trees)
  | _ => (none, trees)

/-- An argument from its trees. -/
def argumentOf (trees : List Tree) : Option (List Char) × Expression :=
  let (label, v) := splitLabel trees
  (label, expressionOf (tokensOf v).length v)

/-- Whether a name is relative to the namespace it stands in. -/
def isRelative (name : String) : Bool :=
  "namespace\\".toList.isPrefixOf (name.toList.map Char.toLower)

/-- An attribute from its trees. A relative name counts as none. -/
def attributeOf (trees : List Tree) : AttributeSyntax :=
  let parts := trees.filter (!isExtra ·)
  let name := (parts.head?.bind name?).getD ""
  { name := if isRelative name then "" else name
    arguments :=
      match parts.find? (isGroup "(") with
      | some list => (splitCommas list.inside).map argumentOf
      | none => [] }

/-- The native attributes in front of a declaration. -/
def attributesOf (trees : List Tree) : List AttributeSyntax :=
  ((trees.takeWhile fun tree => tree.isExtra || tree.isGroup "#[").filter (isGroup "#[")).flatMap
    fun list => (splitCommas list.inside).map attributeOf

end DocAnnotations.Source.Parser
