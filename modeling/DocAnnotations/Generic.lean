import DocAnnotations.Declaration
import DocAnnotations.Text.Blank

/-!
Annotations without a type of their own, such as `@var int $id the identifier`. Their value is cut
into a type, a variable and a comment, and no character other than white space is lost.
-/

namespace DocAnnotations

/-- The parts of an annotation value. The parts before a variable are words when there are two or
more of them; one word alone is a type. -/
structure ValueParts where
  type : Option String := none
  variableName : Option String := none
  leadingWords : List String := []
  comment : Option String := none
  deriving DecidableEq, Repr, Inhabited

/-- An annotation that is kept as text, with the declaration it stands on. -/
structure Generic where
  name : String
  value : String
  parts : ValueParts
  key : Option DeclarationKey
  deriving DecidableEq, Repr, Inhabited

/-- What a name in an annotation stands for. It may stand for nothing. -/
abbrev TypeLookup := String → Option String

/-- The type that a single word names: what the look-up finds, or else the word. -/
def typeNamed (lookup : Option TypeLookup) (word : String) : String :=
  match lookup.bind (· word) with
  | some found => if found = "" then word else found
  | none => word

namespace ValueParts

open Text

/-- The text before the first `$`, and the text from there on. -/
def splitAtVariable (cs : List Char) : List Char × List Char :=
  cs.span (· ≠ '$')

/-- Parts of a value that holds a variable: `rest` starts with its `$`. One character after the
variable is its separator. -/
def aroundVariable (lookup : Option TypeLookup) (before rest : List Char) : ValueParts :=
  let leading := (words before).map String.ofList
  let comment := trim ((rest.dropWhile (!isBlank ·)).drop 1)
  { type := match leading with
      | [word] => some (typeNamed lookup word)
      | _ => none
    leadingWords := match leading with
      | [_] => []
      | several => several
    variableName := some (String.ofList (rest.takeWhile (!isBlank ·)))
    comment := if comment = [] then none else some (String.ofList comment) }

/-- Parts of a value without a variable: one word is a type and several are a comment. -/
def withoutVariable (lookup : Option TypeLookup) (cs : List Char) : ValueParts :=
  match words cs with
  | [] => {}
  | [word] => { type := some (typeNamed lookup (String.ofList word)) }
  | _ => { comment := some (String.ofList (trim cs)) }

/-- Cuts a value into its parts. -/
def ofValue (lookup : Option TypeLookup) (value : String) : ValueParts :=
  match splitAtVariable value.toList with
  | (cs, []) => withoutVariable lookup cs
  | (before, rest) => aroundVariable lookup before rest

/-- The names of the parts that are there, in alphabetical order. -/
def present (parts : ValueParts) : List String :=
  (if parts.comment.isSome then ["comment"] else [])
    ++ (if parts.leadingWords = [] then [] else ["pre_variable_parts"])
    ++ (if parts.type.isSome then ["type"] else [])
    ++ (if parts.variableName.isSome then ["variable"] else [])

end ValueParts

namespace Generic

/-- The annotation with this name and value, cut into parts. -/
def ofText (name value : String) (lookup : Option TypeLookup) (key : Option DeclarationKey) :
    Generic :=
  ⟨name, value, .ofValue lookup value, key⟩

/-- The word before the variable at a position that counts from one. -/
def part (g : Generic) (position : Int) : Option String :=
  if position < 1 then none else g.parts.leadingWords[position.toNat - 1]?

/-- The words before the variable under the names `part_1`, `part_2`, … -/
def numberedParts (g : Generic) : List (String × String) :=
  g.parts.leadingWords.zipIdx.map fun p => (s!"part_{p.2 + 1}", p.1)

end Generic

end DocAnnotations
