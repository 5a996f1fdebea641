import DocAnnotations.Files.Tree

/-!
Patterns for paths. A component may hold `*`, `?` and character sets, and the component `**` stands
for any number of folders.
-/

namespace DocAnnotations.Files

/-- A piece of a component pattern. -/
inductive Piece where
  | char (c : Char)
  | anyChar
  | anyText
  /-- A character between one of the pairs of bounds, or between none of them. -/
  | charSet (negated : Bool) (ranges : List (Char × Char))
  deriving DecidableEq, Repr

/-- A component of a pattern. -/
inductive Component where
  | name (s : String)
  | pieces (ps : List Piece)
  | parent
  | anyDepth
  /-- Behind a slash at the end: only folders match. -/
  | folderItself
  deriving DecidableEq, Repr

/-- Why a pattern cannot be used. -/
inductive GlobFault where
  | malformed
  | absolute
  /-- The pattern names nothing, or nothing but the folder itself. -/
  | unnamed (asFolder : Bool)
  deriving DecidableEq, Repr

namespace Piece

/-- The ranges that a character set lists. -/
def rangesOf : List Char → List (Char × Char)
  | a :: '-' :: b :: rest => (a, b) :: rangesOf rest
  | a :: rest => (a, a) :: rangesOf rest
  | [] => []

/-- The set between brackets, and how long it is with the closing bracket. A bracket that comes
first is part of the set. -/
def set? (cs : List Char) : Option (Piece × Nat) :=
  let negated := cs.head? = some '!'
  let body := if negated then cs.drop 1 else cs
  let kept := if body.head? = some ']' then 1 else 0
  let listed := (body.take kept) ++ (body.drop kept).takeWhile (· ≠ ']')
  if listed.length = body.length then none
  else
    some (.charSet negated (rangesOf listed), (if negated then 1 else 0) + listed.length + 1)

/-- The pieces of a component. The number is how many characters belong to a set before. -/
def ofChars (skip : Nat) : List Char → List Piece
  | [] => []
  | c :: cs =>
    match skip with
    | skip + 1 => ofChars skip cs
    | 0 =>
      if c = '*' then .anyText :: ofChars 0 cs
      else if c = '?' then .anyChar :: ofChars 0 cs
      else if c = '[' then
        match set? cs with
        | some (piece, n) => piece :: ofChars n cs
        | none => .char c :: ofChars 0 cs
      else .char c :: ofChars 0 cs

/-- Whether a character is one that a set allows. -/
def allows (negated : Bool) (ranges : List (Char × Char)) (c : Char) : Bool :=
  (ranges.any fun r => r.1 ≤ c && c ≤ r.2) != negated

/-- Whether the text or one of its ends has a property. -/
def anyTail (p : List Char → Bool) : List Char → Bool
  | [] => p []
  | c :: cs => p (c :: cs) || anyTail p cs

/-- Whether the pieces match a text as a whole. -/
def matchAll : List Piece → List Char → Bool
  | [], cs => cs.isEmpty
  | .char p :: ps, cs =>
    match cs with
    | [] => false
    | c :: cs => p = c && matchAll ps cs
  | .anyChar :: ps, cs =>
    match cs with
    | [] => false
    | _ :: cs => matchAll ps cs
  | .charSet negated ranges :: ps, cs =>
    match cs with
    | [] => false
    | c :: cs => allows negated ranges c && matchAll ps cs
  | .anyText :: ps, cs => anyTail (matchAll ps) cs

end Piece

namespace Component

def isWild (cs : List Char) : Bool :=
  cs.any fun c => c = '*' || c = '?' || c = '['

/-- Whether two asterisks stand side by side. -/
def hasDoubleStar : List Char → Bool
  | '*' :: '*' :: _ => true
  | _ :: cs => hasDoubleStar cs
  | [] => false

/-- A component of a pattern. Two asterisks are only allowed alone. -/
def ofText (s : String) : Except GlobFault Component :=
  if s = "**" then .ok .anyDepth
  else if s = ".." then .ok .parent
  else if hasDoubleStar s.toList then .error .malformed
  else if isWild s.toList then .ok (.pieces (Piece.ofChars 0 s.toList))
  else .ok (.name s)

end Component

namespace Glob

/-- The components of a pattern. -/
def parse (pattern : String) : Except GlobFault (List Component) := do
  let path := Path.ofText pattern
  if pattern = "" then throw .malformed
  if path.root ≠ "" then throw .absolute
  let asFolder := pattern.toList.getLast? = some '/'
  if path.components.isEmpty then throw (.unnamed asFolder)
  let components ← path.components.mapM Component.ofText
  return if asFolder then components ++ [.folderItself] else components

/-- The paths below `here` that match. Components before others match folders only. -/
def select (tree : Tree) : List Component → List String → List (List String)
  | [], here => [here]
  | component :: rest, here =>
    let fits (t : Tree) : Bool := rest.isEmpty || t.isFolder
    match component with
    | .folderItself => [here]
    | .parent => select tree rest (here ++ [".."])
    | .name s =>
      match tree.at? (here ++ [s]) with
      | some t => if fits t then select tree rest (here ++ [s]) else []
      | none => []
    | .pieces ps =>
      ((tree.at? here).map (·.entries)).getD [] |>.flatMap fun e =>
        if fits e.2 && Piece.matchAll ps e.1.toList then select tree rest (here ++ [e.1]) else []
    | .anyDepth =>
      (((tree.at? here).map (·.folders)).getD []).flatMap (fun below =>
        select tree rest (here ++ below)) |>.eraseDups

/-- The files that match a pattern, sorted by the components of their paths. -/
def files (tree : Tree) (pattern : String) :
    Except GlobFault (List (List String × List UInt8)) := do
  let components ← parse pattern
  let paths := (select tree components []).mergeSort componentsLE
  return paths.filterMap fun path =>
    match tree.at? path with
    | some (.file octets) => some (path, octets)
    | _ => none

end Glob

end DocAnnotations.Files
