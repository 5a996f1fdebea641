import DocAnnotations.Generic
import DocAnnotations.Proofs.Text
import Mathlib.Data.List.TakeDrop

/-! Cutting the value of an annotation into its parts loses white space only. -/
namespace DocAnnotations

namespace Text

/-- A text without the white space in it. -/
def inked (cs : List Char) : List Char :=
  cs.filter (!isBlank ·)

variable {cs ds : List Char}

theorem inked_append (cs ds : List Char) : inked (cs ++ ds) = inked cs ++ inked ds :=
  List.filter_append cs ds

theorem inked_of_not_blank (h : ∀ c ∈ cs, isBlank c = false) : inked cs = cs :=
  List.filter_eq_self.mpr fun c hc => by simp [h c hc]

theorem inked_dropWhile (cs : List Char) : inked (cs.dropWhile isBlank) = inked cs := by
  induction cs with
  | nil => rfl
  | cons c cs ih =>
    by_cases hc : isBlank c = true
    · simpa [inked, hc] using ih
    · simp [hc]

theorem inked_trim (cs : List Char) : inked (trim cs) = inked cs := by
  calc inked (trim cs)
      = (inked ((cs.dropWhile isBlank).reverse.dropWhile isBlank)).reverse := List.filter_reverse
    _ = (inked (cs.dropWhile isBlank).reverse).reverse := by rw [inked_dropWhile]
    _ = inked (cs.dropWhile isBlank) := by
      rw [inked, inked, List.filter_reverse, List.reverse_reverse]
    _ = inked cs := inked_dropWhile cs

/-- The character behind a run without white space is white space. -/
theorem inked_drop_separator (cs : List Char) :
    inked ((cs.dropWhile (!isBlank ·)).drop 1) = inked (cs.dropWhile (!isBlank ·)) := by
  have hhead := List.head?_dropWhile_not (!isBlank ·) cs
  cases hrest : cs.dropWhile (!isBlank ·) with
  | nil => rfl
  | cons b rest =>
    have hb : isBlank b = true := by simpa [hrest] using hhead
    simp [inked, hb]

theorem not_blank_of_mem_words {w : List Char} (hw : w ∈ words cs) :
    w ≠ [] ∧ ∀ c ∈ w, isBlank c = false := by
  induction hws : words cs generalizing cs with
  | nil => simp [hws] at hw
  | cons first ws ih =>
    obtain ⟨indent, rest, -, -, hne, hfirst, hrest, -⟩ := exists_of_words_eq_cons hws
    rw [hws] at hw
    rcases List.mem_cons.mp hw with rfl | hw
    · exact ⟨hne, hfirst⟩
    · exact ih (hrest ▸ hw) hrest

end Text

namespace ValueParts

open Text

/-- The texts of the parts in the order in which they stand in a value. -/
def inOrder (parts : ValueParts) : List String :=
  parts.type.toList ++ parts.leadingWords ++ parts.variableName.toList ++ parts.comment.toList

/-- The parts with another name for the type, if there is one. -/
def retyped (lookup : Option TypeLookup) (parts : ValueParts) : ValueParts :=
  { parts with type := parts.type.map (typeNamed lookup) }

/-- A variable stands at the first `$` of a text and goes on up to white space. -/
structure VariableIn (cs : List Char) (name : String) : Prop where
  stands : ∃ before after, cs = before ++ name.toList ++ after ∧ '$' ∉ before ∧
    ∀ c ∈ after.head?, isBlank c = true
  sigil : name.toList.head? = some '$'
  unbroken : ∀ c ∈ name.toList, isBlank c = false

/-- A text and the parts that it is cut into. -/
structure Cuts (cs : List Char) (parts : ValueParts) : Prop where
  /-- White space apart, the parts are the text. -/
  kept : inked (parts.inOrder.flatMap String.toList) = inked cs
  hasVariable : parts.variableName.isSome ↔ '$' ∈ cs
  atSigil : ∀ name ∈ parts.variableName, VariableIn cs name
  /-- Words come in front of a variable, and one word alone is a type. -/
  leading : parts.leadingWords ≠ [] →
    parts.variableName.isSome ∧ 2 ≤ parts.leadingWords.length ∧ parts.type = none
  areWords : ∀ word ∈ parts.leadingWords, word ≠ "" ∧ ∀ c ∈ word.toList, isBlank c = false
  /-- Without a variable there is a type or a comment, and not both. -/
  either : parts.variableName = none → parts.type = none ∨ parts.comment = none

variable {cs before rest : List Char}

theorem typeNamed_none (word : String) : typeNamed none word = word := rfl

theorem withoutVariable_retyped (lookup : Option TypeLookup) (cs : List Char) :
    withoutVariable lookup cs = (withoutVariable none cs).retyped lookup := by
  unfold withoutVariable
  split <;> rfl

theorem aroundVariable_retyped (lookup : Option TypeLookup) (before rest : List Char) :
    aroundVariable lookup before rest = (aroundVariable none before rest).retyped lookup := by
  simp only [aroundVariable, retyped]
  split <;> rfl

/-- One word is kept as the type, and several are kept as the comment. -/
theorem cuts_withoutVariable (h : '$' ∉ cs) : Cuts cs (withoutVariable none cs) := by
  have hwords := flatten_words cs
  unfold withoutVariable
  split
  next hnil =>
    rw [hnil] at hwords
    exact { kept := hwords, hasVariable := by simp [h], atSigil := nofun, leading := by simp,
            areWords := nofun, either := fun _ => .inl rfl }
  next word hword =>
    have hkept : inked word = inked cs := by
      rw [inked_of_not_blank (not_blank_of_mem_words (hword ▸ List.mem_singleton_self word)).2,
        inked, ← hwords, hword, List.flatten_singleton]
    exact { kept := by simpa [inOrder, typeNamed_none] using hkept, hasVariable := by simp [h],
            atSigil := nofun, leading := by simp, areWords := nofun, either := fun _ => .inr rfl }
  next =>
    exact { kept := by simpa [inOrder] using inked_trim cs, hasVariable := by simp [h],
            atSigil := nofun, leading := by simp, areWords := nofun, either := fun _ => .inl rfl }

/-- The words in front of a variable are its type if there is one of them, and else its leading
words. -/
theorem inked_leading (before rest : List Char) :
    inked (((aroundVariable none before rest).type.toList ++
      (aroundVariable none before rest).leadingWords).flatMap String.toList) = inked before := by
  have hwords : inked (((words before).map String.ofList).flatMap String.toList) =
      inked before := by
    have hflat : ((words before).map String.ofList).flatMap String.toList = inked before := by
      rw [inked, ← flatten_words]
      simp [List.flatMap_def, Function.comp_def]
    rw [hflat]
    simp [inked]
  simp only [aroundVariable]
  split
  next word hword => simpa [hword, typeNamed_none] using hwords
  next => simpa using hwords

/-- What stands behind the variable and its separator is the comment, if that is not empty. -/
theorem inked_comment (before rest : List Char) :
    inked ((aroundVariable none before rest).comment.toList.flatMap String.toList) =
      inked (rest.dropWhile (!isBlank ·)) := by
  have htrim := inked_trim ((rest.dropWhile (!isBlank ·)).drop 1)
  rw [inked_drop_separator] at htrim
  simp only [aroundVariable]
  generalize trim ((rest.dropWhile (!isBlank ·)).drop 1) = comment at htrim ⊢
  split
  next hnil => rw [← htrim, hnil]; rfl
  next => simpa using htrim

theorem variableIn_aroundVariable (h : '$' ∉ before) :
    VariableIn (before ++ '$' :: rest)
      (String.ofList (('$' :: rest).takeWhile (!isBlank ·))) where
  stands := by
    refine ⟨before, ('$' :: rest).dropWhile (!isBlank ·), ?_, h, fun c hc => ?_⟩
    · rw [String.toList_ofList, List.append_assoc, List.takeWhile_append_dropWhile]
    · have hhead := List.head?_dropWhile_not (!isBlank ·) ('$' :: rest)
      rw [Option.mem_def.mp hc] at hhead
      simpa using hhead
  sigil := by
    have hsigil : isBlank '$' = false := by decide
    simp [hsigil]
  unbroken c hc := by
    rw [String.toList_ofList] at hc
    simpa using List.all_eq_true.mp List.all_takeWhile c hc

/-- What stands in front of a variable, the variable, and what stands behind it are kept. -/
theorem cuts_aroundVariable (h : '$' ∉ before) :
    Cuts (before ++ '$' :: rest) (aroundVariable none before ('$' :: rest)) where
  kept := by
    have hvariable := List.takeWhile_append_dropWhile (p := (!isBlank ·)) (l := '$' :: rest)
    have hfront := inked_leading before ('$' :: rest)
    have hback := inked_comment before ('$' :: rest)
    have hname : (aroundVariable none before ('$' :: rest)).variableName =
        some (String.ofList (('$' :: rest).takeWhile (!isBlank ·))) := rfl
    calc inked ((aroundVariable none before ('$' :: rest)).inOrder.flatMap String.toList)
        = inked before ++ inked (('$' :: rest).takeWhile (!isBlank ·)) ++
            inked (('$' :: rest).dropWhile (!isBlank ·)) := by
          rw [inOrder, List.flatMap_append, List.flatMap_append, inked_append, inked_append, hfront,
            hback, hname]
          simp
      _ = inked (before ++ '$' :: rest) := by
          rw [List.append_assoc, ← inked_append, hvariable, inked_append]
  hasVariable := by simp [aroundVariable]
  atSigil name hname := by
    cases hname
    exact variableIn_aroundVariable h
  leading hne := by
    refine ⟨rfl, ?_⟩
    simp only [aroundVariable] at hne ⊢
    split at hne
    next => exact absurd rfl hne
    next several hmany =>
      generalize (words before).map String.ofList = leading at hne hmany
      rcases leading with _ | ⟨first, _ | ⟨second, others⟩⟩
      · exact absurd rfl hne
      · exact absurd rfl (hmany first)
      · exact ⟨by simp, rfl⟩
  areWords word hword := by
    simp only [aroundVariable] at hword
    split at hword
    next => cases hword
    next =>
      obtain ⟨w, hw, rfl⟩ := List.mem_map.mp hword
      have hw := not_blank_of_mem_words hw
      exact ⟨by simpa using hw.1, by simpa using hw.2⟩
  either hnone := by cases hnone

/-- Without a look-up, a value is cut into parts that lose nothing but white space. A look-up
changes the name of the type, if there is one, and no other part. -/
theorem ofValue_lossless (value : String) (lookup : Option TypeLookup) :
    Cuts value.toList (ofValue none value) ∧
      ofValue lookup value = (ofValue none value).retyped lookup := by
  have hsplit := List.takeWhile_append_dropWhile (p := (· ≠ '$')) (l := value.toList)
  have hbefore : '$' ∉ value.toList.takeWhile (· ≠ '$') := by
    intro hmem
    simpa using List.all_eq_true.mp List.all_takeWhile '$' hmem
  have hhead := List.head?_dropWhile_not (· ≠ '$') value.toList
  unfold ofValue splitAtVariable
  rw [List.span_eq_takeWhile_dropWhile]
  generalize value.toList.takeWhile (· ≠ '$') = before at hsplit hbefore
  generalize value.toList.dropWhile (· ≠ '$') = rest at hsplit hhead
  rw [← hsplit]
  cases rest with
  | nil =>
    rw [List.append_nil]
    exact ⟨cuts_withoutVariable hbefore, withoutVariable_retyped lookup before⟩
  | cons c rest =>
    obtain rfl : c = '$' := by simpa using hhead
    exact ⟨cuts_aroundVariable hbefore, aroundVariable_retyped lookup before ('$' :: rest)⟩

end ValueParts

end DocAnnotations
