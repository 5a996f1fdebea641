import DocAnnotations.Import.Preamble
import DocAnnotations.Source.Parser.Tree

/-!
Where statements end. A statement is given by what follows it: conditions and loops take the
statements that they govern with them, whether these stand in braces or before an end word.
-/

namespace DocAnnotations.Source.Parser.Statement

open Parser.Tree

/-- Words that govern a statement behind a condition in parentheses. -/
def conditionWords : List String :=
  ["if", "elseif", "while", "for", "foreach", "switch", "declare"]

/-- Words that end the statements behind a condition and a colon. -/
def endWords : List String :=
  ["endif", "endwhile", "endfor", "endforeach", "endswitch", "enddeclare"]

def isOneOf (options : List String) (tree : Tree) : Bool :=
  options.any tree.isWord

/-- What follows the first semicolon. Markup ends a statement too, and is left. -/
def afterSemicolon : List Tree → List Tree
  | [] => []
  | tree :: rest =>
    if tree.isPunct ";" then rest
    else if tree.isMarkup then tree :: rest
    else afterSemicolon rest

/-- What follows the first group of the given kind. -/
def afterGroup (opening : String) (trees : List Tree) : List Tree :=
  (trees.dropWhile (!isGroup opening ·)).drop 1

/-- Drops native attributes, with comments between them. -/
def skipAttributes (trees : List Tree) : List Tree :=
  trees.dropWhile fun tree => tree.isExtra || tree.isGroup "#["

/-- Drops words, with comments between them. -/
def skipWords (options : List String) (trees : List Tree) : List Tree :=
  trees.dropWhile fun tree => tree.isExtra || isOneOf options tree

/-- The class word and what follows it, if a class declaration begins here. -/
def classHeader? (trees : List Tree) : Option (Tree × List Tree) :=
  match skipWords Import.modifiers (skipAttributes trees) with
  | word :: rest =>
    if isOneOf Import.declarationWords word ∧ (skipExtras rest).head?.any (·.name?.isSome) then
      some (word, skipExtras rest)
    else none
  | [] => none

/-- Whether a function with a name is declared here. -/
def declaresFunction (trees : List Tree) : Bool :=
  match skipAttributes trees with
  | word :: rest =>
    word.isWord "function" &&
      (rest.dropWhile fun tree => tree.isExtra || tree.isPunct "&").head?.any (·.name?.isSome)
  | [] => false

/-- What follows the colon of a label or case. -/
def afterColon : List Tree → List Tree
  | [] => []
  | tree :: rest => if tree.isPunct ":" ∨ tree.isPunct ";" then rest else afterColon rest

mutual

/-- What follows the statement in front. The first argument bounds the recursion. -/
def rest : Nat → List Tree → List Tree
  | 0, _ => []
  | _, [] => []
  | fuel + 1, first :: others =>
    if first.isGroup "\x7b" then others
    else if first.isWord "declare" ∧ (afterGroup "(" others).head?.any isMarkup then
      afterGroup "(" others
    else if isOneOf conditionWords first then afterCondition fuel others
    else if first.isWord "else" then rest fuel (skipExtras others)
    else if first.isWord "do" then afterSemicolon (rest fuel (skipExtras others))
    else if first.isWord "try" then afterHandlers fuel (afterGroup "\x7b" others)
    else if first.isWord "namespace" then
      afterScope others
    else if (classHeader? (first :: others)).isSome ∨ declaresFunction (first :: others) then
      afterGroup "\x7b" (first :: others)
    else if first.name?.isSome ∧ others.head?.any (·.isPunct ":") then others.drop 1
    else afterSemicolon (first :: others)

/-- What follows a condition and the statements that it governs. -/
def afterCondition : Nat → List Tree → List Tree
  | 0, _ => []
  | fuel + 1, trees =>
    match skipExtras (afterGroup "(" trees) with
    | [] => []
    | first :: others =>
      if first.isPunct ":" then afterBlock fuel (skipExtras others)
      else afterBranches fuel (rest fuel (first :: others))

/-- Takes the other branches of a condition along. -/
def afterBranches : Nat → List Tree → List Tree
  | 0, _ => []
  | fuel + 1, trees =>
    match skipExtras trees with
    | [] => trees
    | first :: others =>
      if first.isWord "elseif" ∨ first.isWord "else" then rest fuel (first :: others) else trees

/-- What follows the end word of the statements in front. -/
def afterBlock : Nat → List Tree → List Tree
  | 0, _ => []
  | _, [] => []
  | fuel + 1, first :: others =>
    if isOneOf endWords first then afterSemicolon others
    else if first.isWord "else" ∨ first.isWord "elseif" ∨ first.isWord "case"
        ∨ first.isWord "default" then
      afterBlock fuel (skipExtras (afterColon others))
    else afterBlock fuel (skipExtras (rest fuel (first :: others)))

/-- Takes the handlers of a try statement along. -/
def afterHandlers : Nat → List Tree → List Tree
  | 0, _ => []
  | fuel + 1, trees =>
    match skipExtras trees with
    | [] => trees
    | first :: others =>
      if first.isWord "catch" ∨ first.isWord "finally" then
        afterHandlers fuel (afterGroup "\x7b" others)
      else trees

/-- What follows a namespace statement, which ends with its block or a semicolon. -/
def afterScope : List Tree → List Tree
  | [] => []
  | tree :: others =>
    if tree.isPunct ";" ∨ tree.isGroup "\x7b" then others
    else if tree.isMarkup then tree :: others
    else afterScope others

end

/-- The statement in front, which begins with no comment, and what follows it. -/
def cut (trees : List Tree) : List Tree × List Tree :=
  let following := rest (4 * trees.length + 4) trees
  (trees.take (trees.length - following.length), following)

end DocAnnotations.Source.Parser.Statement
