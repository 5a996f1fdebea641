import DocAnnotations.Text.Blank
import DocAnnotations.Text.Lines

/-!
The preamble of a source file: the lines before the first one that begins a class declaration.
-/

namespace DocAnnotations.Import

open Text

/-- The letter that a character counts as where case is ignored. The long s and the dotted and
dotless i count as their plain forms. -/
def foldCase (c : Char) : Char :=
  if c = 'ſ' then 's' else if c = 'İ' ∨ c = 'ı' then 'i' else c.toLower

/-- Whether a word is one of the given words in any case. -/
def isOneOf (options : List String) (word : List Char) : Bool :=
  options.any fun o => o.toList = word.map foldCase

def modifiers : List String := ["abstract", "final", "readonly"]

def declarationWords : List String := ["class", "interface", "trait", "enum"]

/-- Whether a line begins a class declaration: modifiers, and then a declaration word with white
space behind it. -/
def beginsDeclaration (line : List Char) : Bool :=
  match (words line).dropWhile (isOneOf modifiers) with
  | [] => false
  | word :: rest =>
    isOneOf declarationWords word && (!rest.isEmpty || line.getLast?.any isBlank)

/-- The text before the first class declaration. -/
def preambleOf (cs : List Char) : List Char :=
  ((lines cs).takeWhile (!beginsDeclaration ·)).flatten

def preamble (source : String) : String :=
  String.ofList (preambleOf source.toList)

end DocAnnotations.Import
