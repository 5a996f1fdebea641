import DocAnnotations.Text.Hex

/-!
Text in JSON. It is written in ASCII: other characters become escapes of their UTF-16 units, and
reading joins the units again.
-/

namespace DocAnnotations.Json

open Text

/-- The UTF-16 units of a character. -/
def unitsOf (c : Char) : List Nat :=
  if c.toNat < 0x10000 then [c.toNat]
  else [0xd800 + (c.toNat - 0x10000) / 0x400, 0xdc00 + (c.toNat - 0x10000) % 0x400]

/-- A character inside quotes, without unprintable or non-ASCII characters. -/
def escape (c : Char) : List Char :=
  if c = '"' ∨ c = '\\' then ['\\', c]
  else if c = '\n' then ['\\', 'n']
  else if c = '\r' then ['\\', 'r']
  else if c = '\t' then ['\\', 't']
  else if c = '\x08' then ['\\', 'b']
  else if c = '\x0c' then ['\\', 'f']
  else if 0x20 ≤ c.toNat ∧ c.toNat < 0x7f then [c]
  else (unitsOf c).flatMap fun u => '\\' :: 'u' :: hexDigits 4 u

/-- A text in double quotes. -/
def writeText (cs : List Char) : List Char :=
  '"' :: cs.flatMap escape ++ ['"']

/-- The number that four hexadecimal digits stand for. -/
def hexUnit? (a b c d : Char) : Option Nat :=
  [a, b, c, d].foldlM (fun n c => (hexValue? c).map (16 * n + ·)) 0

/-- What a backslash and one character stand for. -/
def escapeValue? (c : Char) : Option Nat :=
  match c with
  | '"' | '\\' | '/' => some c.toNat
  | 'n' => some 0x0a
  | 'r' => some 0x0d
  | 't' => some 0x09
  | 'b' => some 0x08
  | 'f' => some 0x0c
  | _ => none

/-- Reads up to the closing quote. Gives code points and, for escapes, UTF-16 units, and what
follows the quote. -/
def readUnits : List Char → Option (List Nat × List Char)
  | [] => none
  | '"' :: cs => some ([], cs)
  | '\\' :: 'u' :: a :: b :: c :: d :: cs => do
    let u ← hexUnit? a b c d
    let (us, rest) ← readUnits cs
    return (u :: us, rest)
  | '\\' :: c :: cs => do
    let u ← escapeValue? c
    let (us, rest) ← readUnits cs
    return (u :: us, rest)
  | c :: cs =>
    if c.toNat < 0x20 ∨ c = '\\' then none
    else do
      let (us, rest) ← readUnits cs
      return (c.toNat :: us, rest)

/-- Joins UTF-16 units to characters. A unit that stands alone is no character. -/
def joinUnits : List Nat → Option (List Char)
  | [] => some []
  | u :: us =>
    if 0xd800 ≤ u ∧ u < 0xdc00 then
      match us with
      | v :: vs =>
        if 0xdc00 ≤ v ∧ v < 0xe000 then
          (joinUnits vs).map (Char.ofNat (0x10000 + (u - 0xd800) * 0x400 + (v - 0xdc00)) :: ·)
        else none
      | [] => none
    else if 0xdc00 ≤ u ∧ u < 0xe000 then none
    else (joinUnits us).map (Char.ofNat u :: ·)

/-- Reads a text whose opening quote has been read. -/
def readText (cs : List Char) : Option (List Char × List Char) := do
  let (units, rest) ← readUnits cs
  let text ← joinUnits units
  return (text, rest)

example : writeText ['a', '"', 'é', '😀', '\x01'] = "\"a\\\"\\u00e9\\ud83d\\ude00\\u0001\"".toList := by
  decide

example : readText "a\\\"\\u00e9\\ud83d\\ude00\" x".toList = some ("a\"é😀".toList, " x".toList) := by
  decide +kernel

end DocAnnotations.Json
