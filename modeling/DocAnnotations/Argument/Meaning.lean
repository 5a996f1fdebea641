import DocAnnotations.Argument.Term
import DocAnnotations.Json
import DocAnnotations.Text.Lower

/-!
What an argument text means: its value, and its JSON text. A group without keys is a list. A group
with keys is a map, and its elements without a key come first in it under the key `value`.
-/

namespace DocAnnotations.Argument

open Text

/-- The key for elements without a key. -/
def unkeyedName : String := "value"

/-- What a bare word spells. -/
inductive Scalar where
  | null
  | bool (b : Bool)
  | number
  | text
  deriving DecidableEq, Repr

/-- Why a word that is spelled like a number is none. -/
inductive NumberFault where
  | oversized
  | foreignDigit
  deriving DecidableEq, Repr

namespace Scalar

/-- Null and the truth values may be written in any case, and numbers with digits of any script. -/
def ofWord (word : String) : Scalar :=
  let small := lower word
  if small = "null" then .null
  else if small = "true" then .bool true
  else if small = "false" then .bool false
  else if Numeral.isNumeral isDecimalDigit word.toList then .number
  else .text

/-- The value of a word. -/
def value (word : String) : Value :=
  match ofWord word with
  | null => .null
  | bool b => .bool b
  | text => .text word
  | number =>
    match Numeral.cut Char.isDigit word.toList with
    | some (n, []) => n.value
    | _ => .text word

/-- What is wrong with a word as a number. The part up to the first digit of another script is
looked at first. -/
def fault? (word : String) : Option NumberFault :=
  match ofWord word, Numeral.cut Char.isDigit word.toList with
  | number, some (n, rest) =>
    if n.isOversized then some .oversized
    else if rest = [] then none
    else some .foreignDigit
  | _, _ => none

/-- The JSON text of a word. -/
def json (word : String) : List Char :=
  match ofWord word with
  | null => "null".toList
  | bool true => "true".toList
  | bool false => "false".toList
  | number => word.toList
  | text => Json.writeText word.toList

end Scalar

/-- The contents of a group: those without a key, and those with one. -/
structure Contents (α : Type) where
  unkeyed : List α
  keyed : List (String × α)

namespace Contents

variable {α : Type}

def ofElements (elements : List (Option String × α)) : Contents α :=
  { unkeyed := elements.filterMap fun e => if e.1.isNone then some e.2 else none
    keyed := elements.filterMap fun e => e.1.map (·, e.2) }

/-- The members of a map with these contents, where `list` makes one content of several. -/
def members (list : List α → α) (contents : Contents α) : List (String × α) :=
  match contents.unkeyed with
  | [] => contents.keyed
  | [one] => (unkeyedName, one) :: contents.keyed
  | several => (unkeyedName, list several) :: contents.keyed

/-- All contents, in the order in which they are written. -/
def all (contents : Contents α) : List α :=
  contents.unkeyed ++ contents.keyed.map (·.2)

end Contents

/-- The value of a group from the values of its elements. -/
def groupValue (elements : List (Option String × Value)) : Value :=
  let contents := Contents.ofElements elements
  if contents.keyed.isEmpty then .list contents.unkeyed
  else .map (Entries.ofPairs (contents.members .list))

/-- A list in JSON, from the JSON texts of its items. -/
def jsonList (items : List (List Char)) : List Char :=
  '[' :: (", ".toList).intercalate items ++ [']']

/-- A map in JSON, from the JSON texts of its members. -/
def jsonMap (members : List (String × List Char)) : List Char :=
  '{' :: (", ".toList).intercalate
    (members.map fun m => Json.writeText m.1.toList ++ ": ".toList ++ m.2) ++ ['}']

/-- The JSON text of a group from the JSON texts of its elements. -/
def groupJson (elements : List (Option String × List Char)) : List Char :=
  let contents := Contents.ofElements elements
  if contents.keyed.isEmpty then jsonList contents.unkeyed
  else jsonMap (contents.members jsonList)

namespace Term

mutual

/-- The value of a term. -/
def value : Term → Value
  | text s => .text s
  | word s => Scalar.value s
  | group _ elements => groupValue (elementValues elements)

def elementValues : List (Option String × Term) → List (Option String × Value)
  | [] => []
  | (key, term) :: rest => (key, term.value) :: elementValues rest

end

mutual

/-- The JSON text of a term. -/
def json : Term → List Char
  | text s => Json.writeText s.toList
  | word s => Scalar.json s
  | group _ elements => groupJson (elementJsons elements)

def elementJsons : List (Option String × Term) → List (Option String × List Char)
  | [] => []
  | (key, term) :: rest => (key, term.json) :: elementJsons rest

end

mutual

/-- What is wrong with the first number that is at fault, in the order of the JSON text. -/
def fault? : Term → Option NumberFault
  | text _ => none
  | word s => Scalar.fault? s
  | group _ elements => (Contents.ofElements (elementFaults elements)).all.findSome? id

def elementFaults : List (Option String × Term) → List (Option String × Option NumberFault)
  | [] => []
  | (key, term) :: rest => (key, term.fault?) :: elementFaults rest

end

end Term

end DocAnnotations.Argument
