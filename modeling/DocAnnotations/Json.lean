import DocAnnotations.Json.Text
import DocAnnotations.Numeral
import DocAnnotations.Text.Front

/-!
Reading JSON. A key that is repeated keeps its first place and takes its last value, and whole
numbers that are too long are refused.
-/

namespace DocAnnotations.Json

def isSpace (c : Char) : Bool :=
  c = ' ' || c = '\t' || c = '\n' || c = '\r'

def skipSpace (cs : List Char) : List Char :=
  cs.dropWhile isSpace

/-- The values that are written as words. Those for numbers that are none are accepted too. -/
def wordValues : List (String × Value) :=
  [("null", .null), ("true", .bool true), ("false", .bool false),
   ("NaN", .float ⟨0x7ff8000000000000⟩), ("Infinity", .float ⟨0x7ff0000000000000⟩),
   ("-Infinity", .float ⟨0xfff0000000000000⟩)]

def readWord (cs : List Char) : Option (Value × List Char) :=
  wordValues.findSome? fun w => (Text.dropFront? w.1.toList cs).map (w.2, ·)

def readNumber (cs : List Char) : Option (Value × List Char) :=
  match Numeral.cut Char.isDigit cs with
  | some (n, rest) => if n.isOversized then none else some (n.value, rest)
  | none => none

mutual

/-- Reads a value. The first argument bounds the depth of the recursion. -/
def readValue : Nat → List Char → Option (Value × List Char)
  | 0, _ => none
  | fuel + 1, cs =>
    match cs with
    | '"' :: cs => (readText cs).map fun p => (.text (String.ofList p.1), p.2)
    | '[' :: cs =>
      match skipSpace cs with
      | ']' :: rest => some (.list [], rest)
      | cs => (readItems fuel cs).map fun p => (.list p.1, p.2)
    | '{' :: cs =>
      match skipSpace cs with
      | '}' :: rest => some (.map [], rest)
      | cs => (readMembers fuel cs).map fun p => (.map (Entries.ofPairs p.1), p.2)
    | cs => (readWord cs).or (readNumber cs)

/-- Reads the items of a list, up to and with the bracket that closes it. -/
def readItems : Nat → List Char → Option (List Value × List Char)
  | 0, _ => none
  | fuel + 1, cs => do
    let (v, rest) ← readValue fuel cs
    match skipSpace rest with
    | ',' :: rest =>
      let (vs, rest) ← readItems fuel (skipSpace rest)
      return (v :: vs, rest)
    | ']' :: rest => return ([v], rest)
    | _ => none

/-- Reads the members of a map, up to and with the brace that closes it. -/
def readMembers : Nat → List Char → Option (List (String × Value) × List Char)
  | 0, _ => none
  | fuel + 1, cs => do
    let '"' :: cs := cs | none
    let (key, rest) ← readText cs
    let ':' :: rest := skipSpace rest | none
    let (v, rest) ← readValue fuel (skipSpace rest)
    match skipSpace rest with
    | ',' :: rest =>
      let (ms, rest) ← readMembers fuel (skipSpace rest)
      return ((String.ofList key, v) :: ms, rest)
    | '}' :: rest => return ([(String.ofList key, v)], rest)
    | _ => none

end

/-- The value that a JSON text stands for. Every second call reads a character, so twice the
length bounds the recursion. -/
def read? (text : String) : Option Value :=
  let cs := skipSpace text.toList
  match readValue (2 * cs.length + 1) cs with
  | some (v, rest) => if skipSpace rest = [] then some v else none
  | none => none

end DocAnnotations.Json
