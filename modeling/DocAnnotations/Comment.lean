import DocAnnotations.Comment.Arguments
import DocAnnotations.Comment.Decoration

/-!
The annotations of a doc comment. An annotation begins with an at sign at a word boundary that a
name follows. Parentheses directly after the name hold its arguments; else its value is the text up
to the next at sign at a word boundary. Annotations with parentheses inside an argument list become
its children, one level deep.
-/

namespace DocAnnotations.Comment

open Text

/-- Cuts a text at the first at sign at a word boundary. The flag says whether a boundary stands
before the text. -/
def splitAtSigil (boundary : Bool) : List Char → List Char × List Char
  | [] => ([], [])
  | c :: cs =>
    if c = '@' ∧ boundary then ([], c :: cs)
    else
      let (before, rest) := splitAtSigil (isBoundary c) cs
      (c :: before, rest)

theorem splitAtSigil_append (boundary : Bool) (cs : List Char) :
    (splitAtSigil boundary cs).1 ++ (splitAtSigil boundary cs).2 = cs := by
  induction cs generalizing boundary with
  | nil => rfl
  | cons c cs ih =>
    simp only [splitAtSigil]
    split
    · rfl
    · simp [ih]

theorem splitAtSigil_length_le (boundary : Bool) (cs : List Char) :
    (splitAtSigil boundary cs).2.length ≤ cs.length := by
  have h := congrArg List.length (splitAtSigil_append boundary cs)
  simp only [List.length_append] at h
  omega

/-- The fragment with this name and this text after it. -/
def fragment (name text : List Char) (children : List Fragment) : Fragment :=
  ⟨String.ofList name, String.ofList (trim text), children⟩

/-- The annotations of a text that is empty or begins with an at sign at a word boundary. -/
def fragmentsFrom (reader : ArgumentReader) : List Char → List Fragment
  | [] => []
  | _ :: cs =>
    match _hn : cutName cs with
    | none => fragmentsFrom reader (splitAtSigil false cs).2
    | some (name, rest) =>
      if rest.head? = some '(' then
        fragment name (reader.read rest).text (reader.read rest).children
          :: fragmentsFrom reader (splitAtSigil false (reader.read rest).rest).2
      else
        fragment name (splitAtSigil false rest).1 []
          :: fragmentsFrom reader (splitAtSigil false rest).2
termination_by cs => cs.length
decreasing_by
  · have := splitAtSigil_length_le false cs
    simp only [List.length_cons]
    omega
  · have h₁ := cutName_length _hn
    have h₂ := reader.rest_length_le rest
    have h₃ := splitAtSigil_length_le false (reader.read rest).rest
    simp only [List.length_cons]
    omega
  · have h₁ := cutName_length _hn
    have h₂ := splitAtSigil_length_le false rest
    simp only [List.length_cons]
    omega

/-- The annotations of a text. -/
def fragmentsOf (reader : ArgumentReader) (cs : List Char) : List Fragment :=
  fragmentsFrom reader (splitAtSigil true cs).2

/-- Reads an argument list as it is written. -/
def ArgumentReader.whole : ArgumentReader where
  read cs := ⟨(cutList 0 none cs).1, [], (cutList 0 none cs).2⟩
  rest_length_le := cutList_length_le 0 none

/-- A child in front of a text that begins behind an at sign: its text without the sign, and what
follows it. -/
def cutChild (cs : List Char) : Option (List Char × List Char) :=
  match cutName cs with
  | some (name, '(' :: rest) =>
    some (name ++ (cutList 0 none ('(' :: rest)).1, (cutList 0 none ('(' :: rest)).2)
  | _ => none

theorem cutChild_length_le {cs child rest : List Char} (h : cutChild cs = some (child, rest)) :
    rest.length ≤ cs.length := by
  simp only [cutChild] at h
  split at h
  · rename_i name list hn
    simp only [Option.some.injEq, Prod.mk.injEq] at h
    have h₁ := cutName_length hn
    have h₂ := cutList_length_le 0 none ('(' :: list)
    rw [← h.2]
    omega
  · simp at h

/-- The child at an at sign where one may begin, and what follows it. Only the first annotation of
its text counts. -/
def childAt (boundary : Bool) (quote : Option Char) (c : Char) (cs : List Char) :
    Option (Fragment × List Char) :=
  if c = '@' ∧ boundary ∧ quote.isNone then
    match cutChild cs with
    | some (child, rest) =>
      match fragmentsOf .whole ('@' :: child) with
      | first :: _ => some (first, rest)
      | [] => none
    | none => none
  else none

theorem childAt_length_le {boundary : Bool} {quote : Option Char} {c : Char} {cs rest : List Char}
    {child : Fragment} (h : childAt boundary quote c cs = some (child, rest)) :
    rest.length ≤ cs.length := by
  simp only [childAt] at h
  split at h
  · split at h
    · rename_i hc
      split at h
      · simp only [Option.some.injEq, Prod.mk.injEq] at h
        exact h.2 ▸ cutChild_length_le hc
      · simp at h
    · simp at h
  · simp at h

/-- Cuts off an argument list with a placeholder for each child, where `count` children came
before. -/
def cutChildren (level : Nat) (quote : Option Char) (boundary : Bool) (count : Nat) :
    List Char → ArgumentText
  | [] => ⟨[], [], []⟩
  | c :: cs =>
    match hc : childAt boundary quote c cs with
    | some (child, rest) =>
      (cutChildren level quote false (count + 1) rest).withChild count child
    | none =>
      if closesList level quote c then ⟨[c], [], cs⟩
      else
        (cutChildren (levelAfter level quote c) (quoteAfter quote c) (isBoundary c) count
          cs).withChar c
termination_by cs => cs.length
decreasing_by
  · have := childAt_length_le hc
    simp only [List.length_cons]
    omega
  · simp

theorem cutChildren_length_le (level : Nat) (quote : Option Char) (boundary : Bool) (count : Nat)
    (cs : List Char) : (cutChildren level quote boundary count cs).rest.length ≤ cs.length := by
  fun_induction cutChildren level quote boundary count cs with
  | case1 => simp
  | case2 _ _ _ _ _ _ _ _ hc ih =>
    have := childAt_length_le hc
    simp only [ArgumentText.rest_withChild, List.length_cons]
    omega
  | case3 => simp
  | case4 _ _ _ _ _ _ _ _ ih =>
    simp only [ArgumentText.rest_withChar, List.length_cons]
    omega

/-- Reads an argument list and takes its children out of it. -/
def ArgumentReader.withChildren : ArgumentReader where
  read := cutChildren 0 none false 0
  rest_length_le := cutChildren_length_le 0 none false 0

/-- The annotations of a comment in the order in which they stand. -/
def fragments (comment : String) : List Fragment :=
  fragmentsOf .withChildren (undecorate comment.toList)

end DocAnnotations.Comment
