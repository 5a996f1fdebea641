import DocAnnotations.Json.Text
import DocAnnotations.QualifiedName
import DocAnnotations.Source.Class
import DocAnnotations.Text.Blank

/-!
Expressions in native attributes, and how they are written as annotation arguments. Literals stay
as they are, class constants become the class names in quotes, arrays become groups in braces, and
everything else becomes its source text in quotes.
-/

namespace DocAnnotations.Source

/-- An argument of a native attribute. Each form knows its source text. -/
inductive Expression where
  /-- Text between quotes, which are part of the source text. -/
  | quoted (source : List Char)
  /-- A number, a truth value or null. -/
  | literal (source : List Char)
  /-- The name of a class: `owner` is what stands before `::class`. -/
  | className (owner source : List Char)
  | array (elements : List (Option Expression × Expression)) (source : List Char)
  | other (source : List Char)
  deriving Inhabited

/-- A native attribute as it is written. Arguments may have a label. -/
structure AttributeSyntax where
  name : String
  arguments : List (Option (List Char) × Expression)

namespace Expression

/-- A text after its key, if there is one. -/
def withKey (key : Option (List Char)) (text : List Char) : List Char :=
  match key with
  | some key => key ++ '=' :: text
  | none => text

/-- Texts with a comma and a space between them. -/
def commaSeparated (texts : List (List Char)) : List Char :=
  [',', ' '].intercalate texts

mutual

/-- The expression as an annotation argument. -/
def argumentText : Expression → List Char
  | quoted source => source
  | literal source => source
  | className owner _ => Json.writeText owner
  | array elements _ => '{' :: commaSeparated (elementTexts elements) ++ ['}']
  | other source => Json.writeText source

def elementTexts : List (Option Expression × Expression) → List (List Char)
  | [] => []
  | (none, v) :: rest => v.argumentText :: elementTexts rest
  | (some key, v) :: rest => withKey (some key.argumentText) v.argumentText :: elementTexts rest

end

/-- The text without its first and last character, if it has two. -/
def dropQuotes (source : List Char) : List Char :=
  if 2 ≤ source.length then source.tail.dropLast else source

/-- The expression as plain text: without quotes, and class names without their constant. -/
def plainText : Expression → List Char
  | quoted source => dropQuotes source
  | className owner _ => owner
  | literal source | array _ source | other source => source

end Expression

/-- The attribute with its arguments as argument text and as plain text. -/
def AttributeSyntax.toNative (attr : AttributeSyntax) : NativeAttribute :=
  let written := attr.arguments.map fun a => Expression.withKey a.1 a.2.argumentText
  let plain := (attr.arguments.map (·.2.plainText)).filter (· ≠ [])
  { name := QualifiedName.dropLeading attr.name
    arguments :=
      if written.isEmpty then ""
      else String.ofList ('(' :: Expression.commaSeparated written ++ [')'])
    text := String.ofList ([' '].intercalate plain) }

end DocAnnotations.Source
