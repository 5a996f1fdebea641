import DocAnnotations.Proofs.Comment.Written

/-! Where the annotations of a comment stand, and whether their argument lists are closed. -/
namespace DocAnnotations.Comment

open Text

/-- An annotation as it stands in a text: its name and all of the text behind it. -/
structure Occurrence where
  name : List Char
  behind : List Char
  deriving DecidableEq

namespace Occurrence

/-- The parenthesis of an argument list stands directly behind the name. -/
def HasList (o : Occurrence) : Prop :=
  o.behind.head? = some '('

instance (o : Occurrence) : Decidable o.HasList :=
  inferInstanceAs (Decidable (_ = _))

/-- The fragment that a reader of argument lists makes of an annotation. -/
def fragment (reader : ArgumentReader) (o : Occurrence) : Fragment :=
  if o.HasList then
    Comment.fragment o.name (reader.read o.behind).text (reader.read o.behind).children
  else Comment.fragment o.name (splitAtSigil false o.behind).1 []

/-- The text behind an annotation and its argument list. -/
def rest (reader : ArgumentReader) (o : Occurrence) : List Char :=
  if o.HasList then (reader.read o.behind).rest else o.behind

theorem rest_length_le (reader : ArgumentReader) (o : Occurrence) :
    (o.rest reader).length ≤ o.behind.length := by
  unfold rest
  split
  · exact reader.rest_length_le o.behind
  · exact Nat.le_refl _

end Occurrence

/-- The annotations of a text that is empty or begins with an at sign at a word boundary. -/
def occurrencesFrom (reader : ArgumentReader) : List Char → List Occurrence
  | [] => []
  | _ :: cs =>
    match _hn : cutName cs with
    | none => occurrencesFrom reader (splitAtSigil false cs).2
    | some (name, behind) =>
      ⟨name, behind⟩ ::
        occurrencesFrom reader (splitAtSigil false ((⟨name, behind⟩ : Occurrence).rest reader)).2
termination_by cs => cs.length
decreasing_by
  · have := splitAtSigil_length_le false cs
    simp only [List.length_cons]
    omega
  · have h₁ := cutName_length _hn
    have h₂ := Occurrence.rest_length_le reader ⟨name, behind⟩
    have h₃ := splitAtSigil_length_le false ((⟨name, behind⟩ : Occurrence).rest reader)
    simp only [List.length_cons] at h₂ ⊢
    omega

/-- The annotations of a comment in the order in which they stand. -/
def occurrences (comment : String) : List Occurrence :=
  occurrencesFrom .withChildren (splitAtSigil true (undecorate comment.toList)).2

theorem fragmentsFrom_of_none {reader : ArgumentReader} {c : Char} {cs : List Char}
    (h : cutName cs = none) :
    fragmentsFrom reader (c :: cs) = fragmentsFrom reader (splitAtSigil false cs).2 := by
  rw [fragmentsFrom]
  split
  next => rfl
  next hs => cases h.symm.trans hs

theorem fragmentsFrom_of_some {reader : ArgumentReader} {c : Char} {cs : List Char} {o : Occurrence}
    (h : cutName cs = some (o.name, o.behind)) :
    fragmentsFrom reader (c :: cs) =
      o.fragment reader :: fragmentsFrom reader (splitAtSigil false (o.rest reader)).2 := by
  rw [fragmentsFrom]
  split
  next hs => cases h.symm.trans hs
  next hs =>
    cases h.symm.trans hs
    by_cases hlist : o.behind.head? = some '('
    · simp [Occurrence.fragment, Occurrence.rest, Occurrence.HasList, hlist]
    · simp [Occurrence.fragment, Occurrence.rest, Occurrence.HasList, hlist]

theorem fragmentsFrom_eq_map (reader : ArgumentReader) (cs : List Char) :
    fragmentsFrom reader cs = (occurrencesFrom reader cs).map (·.fragment reader) := by
  fun_induction occurrencesFrom reader cs with
  | case1 => rw [fragmentsFrom]; rfl
  | case2 c cs hn ih => rw [fragmentsFrom_of_none hn, ih]
  | case3 c cs name behind hn ih =>
    rw [fragmentsFrom_of_some (o := ⟨name, behind⟩) hn, ih, List.map_cons]

theorem fragments_eq_map (comment : String) :
    fragments comment = (occurrences comment).map (·.fragment .withChildren) :=
  fragmentsFrom_eq_map _ _

theorem occurrencesFrom_of_some {reader : ArgumentReader} {c : Char} {cs : List Char}
    {o : Occurrence} (h : cutName cs = some (o.name, o.behind)) : occurrencesFrom reader (c :: cs) =
      o :: occurrencesFrom reader (splitAtSigil false (o.rest reader)).2 := by
  rw [occurrencesFrom]
  split
  next hs => cases h.symm.trans hs
  next hs => cases h.symm.trans hs; rfl

/-- What the scan of an argument list finds: its text with a placeholder for each child, the
children, the text behind it, and whether a parenthesis closed it. -/
structure ListScan where
  text : List Char
  children : List Occurrence
  rest : List Char
  closed : Bool

namespace ListScan

/-- Puts one more character in front. -/
def withChar (c : Char) (following : ListScan) : ListScan :=
  { following with text := c :: following.text }

/-- Puts the child with an index in front, and its placeholder into the text. -/
def withChild (index : Nat) (child : Occurrence) (following : ListScan) : ListScan :=
  { following with
    text := (Fragment.placeholder index).toList ++ following.text
    children := child :: following.children }

/-- The argument list, where children have become fragments. -/
def argumentText (scan : ListScan) : ArgumentText :=
  ⟨scan.text, scan.children.map (·.fragment .whole), scan.rest⟩

end ListScan

/-- The child at an at sign where one may begin, and what follows it. -/
def occurrenceAt (boundary : Bool) (quote : Option Char) (c : Char) (cs : List Char) :
    Option (Occurrence × List Char) :=
  if c = '@' ∧ boundary ∧ quote.isNone then
    match cutName cs with
    | some (name, '(' :: list) =>
      some (⟨name, '(' :: list⟩, (cutList 0 none ('(' :: list)).2)
    | _ => none
  else none

/-- A child begins at an at sign outside quotes, and an argument list stands behind its name. -/
structure BeginsChild (boundary : Bool) (quote : Option Char) (c : Char) (cs : List Char)
    (o : Occurrence) (rest : List Char) : Prop where
  sign : c = '@'
  boundary : boundary = true
  unquoted : quote = none
  name : cutName cs = some (o.name, o.behind)
  hasList : o.HasList
  rest : rest = (cutList 0 none o.behind).2

theorem beginsChild_of_occurrenceAt {boundary : Bool} {quote : Option Char} {c : Char}
    {cs rest : List Char} {o : Occurrence} (h : occurrenceAt boundary quote c cs = some (o, rest)) :
    BeginsChild boundary quote c cs o rest := by
  unfold occurrenceAt at h
  split at h
  next hbegin =>
    split at h
    next name list hn =>
      cases h
      exact ⟨hbegin.1, hbegin.2.1, by simpa using hbegin.2.2, hn, rfl, rfl⟩
    next => cases h
  next => cases h

theorem occurrenceAt_length_le {boundary : Bool} {quote : Option Char} {c : Char}
    {cs rest : List Char} {o : Occurrence} (h : occurrenceAt boundary quote c cs = some (o, rest)) :
    rest.length ≤ cs.length := by
  have hchild := beginsChild_of_occurrenceAt h
  have h₁ := cutName_length hchild.name
  have h₂ := cutList_length_le 0 none o.behind
  rw [hchild.rest]
  omega

/-- The scan of an argument list that takes its children out of it, where `count` children came
before. -/
def scanChildren (level : Nat) (quote : Option Char) (boundary : Bool) (count : Nat) :
    List Char → ListScan
  | [] => ⟨[], [], [], false⟩
  | c :: cs =>
    match hc : occurrenceAt boundary quote c cs with
    | some (o, rest) => (scanChildren level quote false (count + 1) rest).withChild count o
    | none =>
      if closesList level quote c then ⟨[c], [], cs, true⟩
      else
        (scanChildren (levelAfter level quote c) (quoteAfter quote c) (isBoundary c) count
          cs).withChar c
termination_by cs => cs.length
decreasing_by
  · have := occurrenceAt_length_le hc
    simp only [List.length_cons]
    omega
  · simp

/-- The scan of an argument list as it is written. -/
def scanList (level : Nat) (quote : Option Char) : List Char → ListScan
  | [] => ⟨[], [], [], false⟩
  | c :: cs =>
    if closesList level quote c then ⟨[c], [], cs, true⟩
    else (scanList (levelAfter level quote c) (quoteAfter quote c) cs).withChar c

theorem cutList_eq (level : Nat) (quote : Option Char) (cs : List Char) :
    cutList level quote cs = ((scanList level quote cs).text, (scanList level quote cs).rest) := by
  induction cs generalizing level quote with
  | nil => rfl
  | cons c cs ih =>
    rw [cutList, scanList]
    split
    · rfl
    · rw [ih]
      rfl

/-- What is cut off is cut off from itself as a whole. -/
theorem cutList_cutList (level : Nat) (quote : Option Char) (cs : List Char) :
    cutList level quote (cutList level quote cs).1 = ((cutList level quote cs).1, []) := by
  induction cs generalizing level quote with
  | nil => rfl
  | cons c cs ih =>
    rw [cutList]
    split
    next hc => rw [cutList, if_pos hc]
    next hc => rw [cutList, if_neg hc, ih]

theorem isName_of_cutName {cs name rest : List Char} (h : cutName cs = some (name, rest)) :
    IsName (String.ofList name) := by
  cases cs with
  | nil => cases h
  | cons c cs =>
    simp only [cutName] at h
    split at h
    next hc =>
      cases h
      have hall : ∀ c ∈ cs.takeWhile isNameChar, isNameChar c = true :=
        fun c hm => List.mem_takeWhile_imp hm
      simpa [IsName, cutName, hc] using hall
    next => cases h

/-- The text of a child holds one annotation, which is the child. -/
theorem fragmentsOf_child {cs name list : List Char} (h : cutName cs = some (name, '(' :: list)) :
    fragmentsOf .whole ('@' :: (name ++ (cutList 0 none ('(' :: list)).1)) =
      [(⟨name, '(' :: list⟩ : Occurrence).fragment .whole] := by
  have hopen : (cutList 0 none ('(' :: list)).1 = '(' :: (cutList 1 none list).1 := rfl
  have hread : ArgumentReader.whole.read ('(' :: (cutList 1 none list).1) =
      ⟨(cutList 0 none ('(' :: list)).1, [], []⟩ := by
    have hcut := cutList_cutList 0 none ('(' :: list)
    rw [hopen] at hcut
    simp only [ArgumentReader.whole, hcut, hopen]
  have hone := fragmentsOf_named (isName_of_cutName h) hread
  rw [String.toList_ofList] at hone
  rw [hopen, hone, Occurrence.fragment, if_pos (by rfl)]
  rfl

/-- A child is the fragment of its occurrence. -/
theorem childAt_eq (boundary : Bool) (quote : Option Char) (c : Char) (cs : List Char) :
    childAt boundary quote c cs =
      (occurrenceAt boundary quote c cs).map fun (o, rest) => (o.fragment .whole, rest) := by
  unfold childAt occurrenceAt cutChild
  split
  next =>
    cases hn : cutName cs with
    | none => rfl
    | some p =>
      obtain ⟨name, behind⟩ := p
      rcases behind with _ | ⟨d, list⟩
      · rfl
      · by_cases hd : d = '('
        · subst hd
          simp only [fragmentsOf_child hn]
          rfl
        · simp [hd]
  next => rfl

theorem cutChildren_eq (level : Nat) (quote : Option Char) (boundary : Bool) (count : Nat)
    (cs : List Char) : cutChildren level quote boundary count cs =
      (scanChildren level quote boundary count cs).argumentText := by
  fun_induction scanChildren level quote boundary count cs with
  | case1 => rw [cutChildren]; rfl
  | case2 level quote boundary count c cs o rest hc ih =>
    rw [cutChildren_child (by rw [childAt_eq, hc]; rfl), ih]
    rfl
  | case3 level quote boundary count c cs hc hclose =>
    rw [cutChildren_close (by rw [childAt_eq, hc]; rfl) hclose]
    rfl
  | case4 level quote boundary count c cs hc hclose ih =>
    rw [cutChildren_char (by rw [childAt_eq, hc]; rfl) hclose, ih]
    rfl

/-- The last character is the parenthesis that closes the list, and no character before it is. -/
inductive Enclosed : Nat → Option Char → List Char → Prop
  | last {level : Nat} {quote : Option Char} {c : Char} : closesList level quote c = true →
      Enclosed level quote [c]
  | cons {level : Nat} {quote : Option Char} {c : Char} {cs : List Char} :
      closesList level quote c = false →
      Enclosed (levelAfter level quote c) (quoteAfter quote c) cs → Enclosed level quote (c :: cs)

variable {level : Nat} {quote after : Option Char} {cs ds : List Char}

theorem Enclosed.of_cons {c : Char} (hc : closesList level quote c = false)
    (h : Enclosed level quote (c :: cs)) :
    Enclosed (levelAfter level quote c) (quoteAfter quote c) cs := by
  cases h with
  | last hclose => simp [hc] at hclose
  | cons _ h => exact h

theorem Enclosed.of_passive (hc : Passive quote cs after) (h : Enclosed level quote (cs ++ ds)) :
    Enclosed level after ds := by
  induction hc with
  | nil => exact h
  | cons hpassive _ ih =>
    have hbehind := h.of_cons (closesList_of_passive hpassive level)
    rw [levelAfter_of_passive hpassive] at hbehind
    exact ih hbehind

/-- What the scan passes over may stand in front. -/
theorem Enclosed.behind_passive (h : Passive quote cs after) (hd : Enclosed level after ds) :
    Enclosed level quote (cs ++ ds) := by
  induction h with
  | nil => exact hd
  | cons hc _ ih =>
    refine .cons (closesList_of_passive hc level) ?_
    rw [levelAfter_of_passive hc]
    exact ih hd

theorem passive_placeholder (n : Nat) : Passive none (Fragment.placeholder n).toList none := by
  have hall : "_child0123456789".toList.all isPlain = true := by decide
  exact passive_of_all (List.all_eq_true.mpr fun c hc =>
    List.all_eq_true.mp hall c (Fragment.mem_placeholder hc))

theorem enclosed_scanList (level : Nat) (quote : Option Char) (cs : List Char)
    (h : (scanList level quote cs).closed = true) :
    Enclosed level quote (scanList level quote cs).text := by
  induction cs generalizing level quote with
  | nil => cases h
  | cons c cs ih =>
    rw [scanList] at h ⊢
    split at h
    next hc =>
      rw [if_pos hc]
      exact .last hc
    next hc =>
      rw [if_neg hc]
      exact .cons (by simpa using hc) (ih _ _ h)

/-- A list that a parenthesis closes ends there, also when its children have become
placeholders. -/
theorem enclosed_scanChildren (level : Nat) (quote : Option Char) (boundary : Bool) (count : Nat)
    (cs : List Char) (h : (scanChildren level quote boundary count cs).closed = true) :
    Enclosed level quote (scanChildren level quote boundary count cs).text := by
  fun_induction scanChildren level quote boundary count cs with
  | case1 => cases h
  | case2 level quote boundary count c cs o rest hc ih =>
    obtain rfl := (beginsChild_of_occurrenceAt hc).unquoted
    exact .behind_passive (passive_placeholder count) (ih h)
  | case3 level quote boundary count c cs hc hclose => exact .last hclose
  | case4 level quote boundary count c cs hc hclose ih =>
    exact .cons (by simpa using hclose) (ih h)

end DocAnnotations.Comment
