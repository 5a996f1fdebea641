import DocAnnotations.Proofs.Argument.Spelling
import DocAnnotations.Proofs.Argument.Written
import DocAnnotations.Proofs.Json.Escape
import DocAnnotations.Source.Expression

/-! The arguments of native attributes, as they are read back from their argument text. -/
namespace DocAnnotations.Source

open Argument Text

namespace Expression

/-- Induction over expressions, with the hypothesis for the keys and values of an array. -/
@[elab_as_elim, induction_eliminator]
theorem induction {motive : Expression → Prop} (quoted : ∀ source, motive (.quoted source))
    (literal : ∀ source, motive (.literal source))
    (className : ∀ owner source, motive (.className owner source))
    (array : ∀ elements source, (∀ e ∈ elements, (∀ key ∈ e.1, motive key) ∧ motive e.2) →
      motive (.array elements source))
    (other : ∀ source, motive (.other source)) : ∀ e, motive e :=
  fun e => Expression.rec (motive_1 := motive)
    (motive_2 := fun es => ∀ e ∈ es, (∀ key ∈ e.1, motive key) ∧ motive e.2)
    (motive_3 := fun e => (∀ key ∈ e.1, motive key) ∧ motive e.2)
    (motive_4 := fun key => ∀ k ∈ key, motive k) quoted literal className array other (by simp)
    (fun e es he hes => List.forall_mem_cons.mpr ⟨he, hes⟩) (fun _ _ hkey hvalue => ⟨hkey, hvalue⟩)
    (by simp) (by simp) e

theorem elementTexts_eq_map (elements : List (Option Expression × Expression)) :
    elementTexts elements =
      elements.map fun e => withKey (e.1.map argumentText) e.2.argumentText := by
  induction elements with
  | nil => rfl
  | cons e elements ih =>
    obtain ⟨_ | key, value⟩ := e <;> simp [elementTexts, ih, withKey]

/-- The text of an expression without parts, where `name` says what stands for the name of a
class. -/
def text (name : List Char → List Char) : Expression → String
  | quoted source => String.ofList (dropQuotes source)
  | literal source => String.ofList source
  | className owner _ => String.ofList (name owner)
  | array _ _ => ""
  | other source => String.ofList (source.flatMap Json.escape)

mutual

/-- What an expression is read back as. -/
def term (name : List Char → List Char) : Expression → Term
  | literal source => .word (String.ofList source)
  | array elements _ => .group .curly (elementTerms name elements)
  | quoted source => .text (text name (quoted source))
  | className owner source => .text (text name (className owner source))
  | other source => .text (text name (other source))

def elementTerms (name : List Char → List Char) :
    List (Option Expression × Expression) → List (Option String × Term)
  | [] => []
  | (key, value) :: rest =>
    (key.map fun k => strip (text name k), value.term name) :: elementTerms name rest

end

theorem elementTerms_eq_map (name : List Char → List Char)
    (elements : List (Option Expression × Expression)) :
    elementTerms name elements =
      elements.map fun e => (e.1.map fun k => strip (k.text name), e.2.term name) := by
  induction elements with
  | nil => rfl
  | cons e elements ih => simp [elementTerms, ih]

mutual

/-- The names of the classes in an expression. -/
def owners : Expression → List (List Char)
  | className owner _ => [owner]
  | array elements _ => elementOwners elements
  | _ => []

def elementOwners : List (Option Expression × Expression) → List (List Char)
  | [] => []
  | (none, value) :: rest => value.owners ++ elementOwners rest
  | (some key, value) :: rest => key.owners ++ value.owners ++ elementOwners rest

end

theorem elementOwners_eq_flatMap (elements : List (Option Expression × Expression)) :
    elementOwners elements = elements.flatMap fun e => e.1.elim [] owners ++ e.2.owners := by
  induction elements with
  | nil => rfl
  | cons e elements ih =>
    obtain ⟨_ | key, value⟩ := e <;> simp [elementOwners, ih]

section Congr

variable {f g : List Char → List Char} {e : Expression}

theorem text_congr (h : ∀ owner ∈ e.owners, f owner = g owner) : e.text f = e.text g := by
  cases e with
  | className owner => rw [text, text, h owner (by simp [owners])]
  | quoted | literal | array | other => rfl

/-- Only the names of the classes in an expression count. -/
theorem term_congr (h : ∀ owner ∈ e.owners, f owner = g owner) : e.term f = e.term g := by
  induction e with
  | className => exact congrArg Term.text (text_congr h)
  | quoted | literal | other => rfl
  | array elements source ih =>
    rw [owners, elementOwners_eq_flatMap] at h
    have hin (e : Option Expression × Expression) (he : e ∈ elements) :
        ∀ owner ∈ e.1.elim [] owners ++ e.2.owners, f owner = g owner :=
      fun owner howner => h owner (List.mem_flatMap.mpr ⟨e, he, howner⟩)
    rw [term, term, elementTerms_eq_map, elementTerms_eq_map]
    refine congrArg _ (List.map_congr_left fun e he => ?_)
    have hvalue := (ih e he).2 fun owner howner => hin e he owner (by simp [howner])
    obtain ⟨_ | key, value⟩ := e
    · exact congrArg _ hvalue
    · have hkey : key.text f = key.text g :=
        text_congr fun owner howner => hin _ he owner (by simp [howner])
      simp only [Option.map_some, hkey, hvalue]

end Congr

/-- An expression without parts. -/
def IsScalar : Expression → Prop
  | array _ _ => False
  | _ => True

/-- Expressions whose argument text keeps to the rules of argument texts: texts without escapes and
without their own quotes, single words that are no malformed numbers, and class constants and other
code without quotes. -/
inductive Readable : Expression → Prop
  | quoted {q : Char} {cs : List Char} : Token.isQuote q = true → q ∉ cs →
      Clean (String.ofList cs) → Readable (quoted (q :: cs ++ [q]))
  | literal {source : List Char} : Bare (String.ofList source) →
      Scalar.fault? (String.ofList source) = none → Readable (literal source)
  | className {owner source : List Char} : '"' ∉ owner → Readable (className owner source)
  | array {elements : List (Option Expression × Expression)} {source : List Char} :
      (∀ e ∈ elements, ∀ key ∈ e.1, IsScalar key) → (∀ e ∈ elements, ∀ key ∈ e.1, Readable key) →
      (∀ e ∈ elements, Readable e.2) → Readable (array elements source)
  | other {source : List Char} : '"' ∉ source → Readable (other source)

/-- What is written for the name of a class. -/
def escaped (owner : List Char) : List Char :=
  owner.flatMap Json.escape

theorem lexes_writeText {cs : List Char} (hcs : '"' ∉ cs) :
    Lexes (Json.writeText cs) [.text (String.ofList (escaped cs))] := by
  have hwritten : ∀ d ∈ escaped cs, d = '\\' ∨ Json.IsPlain d := by
    intro d hd
    obtain ⟨c, hc, hd⟩ := List.mem_flatMap.mp hd
    obtain hd | hd | ⟨-, rfl⟩ := Json.of_mem_escape hd
    · exact .inl hd
    · exact .inr hd
    · exact absurd hc hcs
  have hquote : '"' ∉ (String.ofList (escaped cs)).toList := by
    rw [String.toList_ofList]
    intro hmem
    obtain hd | hd := hwritten _ hmem
    · cases hd
    · exact hd.ne_quote rfl
  have hclean : Clean (String.ofList (escaped cs)) := by
    intro d hd
    rw [String.toList_ofList] at hd
    have hlow : 0x20 ≤ d.toNat := by
      obtain rfl | hd := hwritten d hd
      · decide
      · exact hd.space_le
    refine ⟨?_, ?_, ?_⟩ <;> rintro rfl <;> revert hlow <;> decide
  have hlexes := lexes_enclosed rfl hquote hclean
  rwa [String.toList_ofList] at hlexes

/-- The text of a readable expression without parts is one token. -/
theorem lexes_scalar {e : Expression} (hscalar : e.IsScalar) (h : e.Readable) :
    ∃ token, Lexes e.argumentText [token] ∧ token.label? = some (e.text escaped) ∧
      (e.term escaped).Spelled [token] := by
  cases h with
  | @quoted q cs hq hcs hclean =>
    have hdrop : dropQuotes (q :: cs ++ [q]) = cs := by simp [dropQuotes]
    have hlexes := lexes_enclosed hq (by rwa [String.toList_ofList]) hclean
    rw [String.toList_ofList] at hlexes
    refine ⟨.text (String.ofList cs), hlexes, ?_, ?_⟩
    · rw [text, hdrop]
      rfl
    · rw [term, text, hdrop]
      exact .text _
  | literal hbare =>
    have hlexes := lexes_bare hbare
    rw [String.toList_ofList] at hlexes
    exact ⟨_, hlexes, rfl, .word _⟩
  | className howner => exact ⟨_, lexes_writeText howner, rfl, .text _⟩
  | array => exact hscalar.elim
  | other hsource => exact ⟨_, lexes_writeText hsource, rfl, .text _⟩

/-- The argument text of a readable expression is read as its term. -/
theorem spells_argumentText {e : Expression} (h : e.Readable) :
    Spells e.argumentText (e.term escaped) := by
  have hscalar (e : Expression) (he : e.IsScalar) (h : e.Readable) :
      Spells e.argumentText (e.term escaped) := by
    obtain ⟨token, hlexes, -, hspelled⟩ := lexes_scalar he h
    exact ⟨[token], hlexes, hspelled⟩
  induction e with
  | quoted | literal | className | other => exact hscalar _ trivial h
  | array elements source ih =>
    cases h with
    | array hscalars hkeys hvalues =>
      rw [argumentText, term, elementTexts_eq_map, elementTerms_eq_map]
      refine spells_group (fun e he => ?_) .curly
      -- A key has no parts, so the hypothesis is used for the value only.
      have hvalue := (ih e he).2 (hvalues e he)
      obtain ⟨_ | key, value⟩ := e
      · exact .unkeyed hvalue
      · obtain ⟨token, hlexes, hlabel, -⟩ :=
          lexes_scalar (hscalars _ he key rfl) (hkeys _ he key rfl)
        exact .keyed hlexes hlabel hvalue

theorem fault?_term {name : List Char → List Char} {e : Expression} (h : e.Readable) :
    (e.term name).fault? = none := by
  induction e with
  | quoted | className | other => rfl
  | literal => cases h with | literal _ hfault => exact hfault
  | array elements source ih =>
    cases h with
    | array _ _ hvalues =>
      rw [term, elementTerms_eq_map]
      exact fault?_group (List.forall_mem_map.mpr fun e he => (ih e he).2 (hvalues e he))

end Expression

namespace AttributeSyntax

open Expression

/-- The arguments as they are read back. -/
def terms (name : List Char → List Char) (attr : AttributeSyntax) : List (Option String × Term) :=
  attr.arguments.map fun a => (a.1.map String.ofList, a.2.term name)

/-- The values of the arguments, where `name` says what stands for the name of a class. -/
def contents (name : List Char → List Char) (attr : AttributeSyntax) : Contents Value :=
  .ofElements (attr.arguments.map fun a => (a.1.map String.ofList, (a.2.term name).value))

/-- The arguments with a label. Those without one come before them under a label of their own. -/
def named (name : List Char → List Char) (attr : AttributeSyntax) : Entries Value :=
  if (attr.contents name).keyed.isEmpty then []
  else Entries.ofPairs ((attr.contents name).members .list)

/-- The arguments if none has a label: a single value, or the list of several. -/
def unnamed (name : List Char → List Char) (attr : AttributeSyntax) : Value :=
  if (attr.contents name).keyed.isEmpty then
    match (attr.contents name).unkeyed with
    | [] => .null
    | [one] => one
    | several => .list several
  else .null

/-- The names of the classes in the arguments. -/
def owners (attr : AttributeSyntax) : List (List Char) :=
  attr.arguments.flatMap fun a => a.2.owners

/-- Labels are single words, and the arguments can be read. -/
structure Readable (attr : AttributeSyntax) : Prop where
  labels : ∀ a ∈ attr.arguments, ∀ label ∈ a.1, Bare (String.ofList label)
  arguments : ∀ a ∈ attr.arguments, a.2.Readable

variable {attr : AttributeSyntax}

theorem evaluateList_toNative (h : attr.Readable) (hne : attr.arguments ≠ [])
    (hd : (Term.group .round (attr.terms escaped)).depth ≤ checkBalance.maxNesting) :
    evaluateList attr.toNative.arguments =
      .ok (some (Term.group .round (attr.terms escaped)).value) := by
  have hspells : Spells ('(' :: commaSeparated
        (attr.arguments.map fun a => withKey a.1 a.2.argumentText) ++ [')'])
      (.group .round (attr.terms escaped)) := by
    refine spells_group (fun a ha => ?_) .round
    have hvalue := spells_argumentText (h.arguments a ha)
    obtain ⟨_ | label, value⟩ := a
    · exact .unkeyed hvalue
    · have hlabel := h.labels _ ha label rfl
      have hlexes := lexes_bare hlabel
      rw [String.toList_ofList] at hlexes
      have hkeyed := SpellsElement.keyed hlexes rfl hvalue
      rw [strip_of_not_blank fun c hc => (hlabel.2 c hc).1] at hkeyed
      exact hkeyed
  have hfault : (Term.group .round (attr.terms escaped)).fault? = none :=
    fault?_group (List.forall_mem_map.mpr fun a ha => fault?_term (h.arguments a ha))
  have harguments : attr.toNative.arguments = String.ofList ('(' :: (commaSeparated
      (attr.arguments.map fun a => withKey a.1 a.2.argumentText) ++ [')'])) := by
    simp [toNative, hne]
  rw [harguments]
  exact evaluateList_of_ofText (hspells.ofText hd) hfault

theorem value_terms (name : List Char → List Char) (attr : AttributeSyntax) :
    (Term.group .round (attr.terms name)).value =
      if (attr.contents name).keyed.isEmpty then .list (attr.contents name).unkeyed
      else .map (Entries.ofPairs ((attr.contents name).members .list)) := by
  have helements : Term.elementValues (attr.terms name) =
      attr.arguments.map fun a => (a.1.map String.ofList, (a.2.term name).value) := by
    simp [Term.elementValues_eq_map, terms, Function.comp_def]
  rw [Term.value, helements]
  rfl

theorem contents_congr {f g : List Char → List Char}
    (h : ∀ owner ∈ attr.owners, f owner = g owner) : attr.contents f = attr.contents g := by
  refine congrArg Contents.ofElements (List.map_congr_left fun a ha => ?_)
  have hterm : a.2.term f = a.2.term g :=
    term_congr fun owner howner => h owner (List.mem_flatMap.mpr ⟨a, ha, howner⟩)
  rw [hterm]

/-- The arguments of a native attribute are read back with the names of classes as they are written
in JSON, at every place. This is the name itself exactly if it has only plain characters. -/
theorem read_toNative (h : attr.Readable)
    (hd : (Term.group .round (attr.terms escaped)).depth ≤ checkBalance.maxNesting) :
    attributes attr.toNative.arguments = .ok (attr.named escaped) ∧
      positional attr.toNative.arguments = .ok (attr.unnamed escaped) ∧
        (∀ owner, escaped owner = owner ↔ ∀ c ∈ owner, Json.IsPlain c) ∧
          ((∀ owner ∈ attr.owners, ∀ c ∈ owner, Json.IsPlain c) →
            attr.contents escaped = attr.contents id) := by
  have hread : evaluateList attr.toNative.arguments =
      .ok (if attr.arguments = [] then none
        else some (Term.group .round (attr.terms escaped)).value) := by
    split
    next hne =>
      rw [toNative, hne]
      rfl
    next hne => exact evaluateList_toNative h hne hd
  have hnone : attr.arguments = [] → attr.contents escaped = ⟨[], []⟩ := by
    intro hne
    rw [contents, hne]
    rfl
  refine ⟨?_, ?_, fun owner => Json.flatMap_escape_eq_self_iff, fun hplain => contents_congr
    fun owner howner => Json.flatMap_escape_eq_self_iff.mpr (hplain owner howner)⟩
  · rw [attributes, hread, named]
    split
    next hne => simp [hnone hne, Except.map]
    next hne =>
      rw [value_terms]
      split <;> rfl
  · rw [positional, hread, unnamed]
    split
    next hne => simp [hnone hne, Except.map]
    next hne =>
      rw [value_terms]
      split
      · rcases (attr.contents escaped).unkeyed with _ | ⟨one, _ | ⟨other, rest⟩⟩ <;> rfl
      · rfl

/-- The name of a class is a key and a value, and the argument without a label comes first. -/
theorem read_toNative_nested :
    let thing : Expression := .className "Thing".toList "Thing::class".toList
    let map : Expression := .className "Lib\\Map".toList "Lib\\Map::class".toList
    let ones : Expression := .array [(none, .literal "1".toList)] "[1]".toList
    let maps : Expression := .array [(some map, ones)] "[Lib\\Map::class => [1]]".toList
    let attr : AttributeSyntax :=
      { name := "Note", arguments := [(none, thing), (some "of".toList, maps)] }
    attributes attr.toNative.arguments = .ok [("value", .text "Thing"),
      ("of", .map [("Lib\\\\Map", .list [.int 1])])] := by
  intro thing map ones maps attr
  have hmap : map.Readable := .className (by decide)
  have hone : Expression.Readable (.literal "1".toList) := .literal (by decide) (by decide +kernel)
  have hones : ones.Readable := .array (by simp) (by simp) (by simpa using hone)
  have hmaps : maps.Readable :=
    .array (by simp [map, IsScalar]) (by simpa using hmap) (by simpa using hones)
  have hthing : thing.Readable := .className (by decide)
  have hreadable : attr.Readable := by
    refine ⟨?_, by simpa [attr] using ⟨hthing, hmaps⟩⟩
    have hlabel : Bare (String.ofList "of".toList) := by decide
    simpa [attr] using hlabel
  have hdepth : (Term.group .round (attr.terms escaped)).depth ≤ checkBalance.maxNesting := by
    decide +kernel
  rw [(read_toNative hreadable hdepth).1]
  decide +kernel

/-- The backslash in the name of a class is doubled, and a letter outside ASCII is an escape. -/
theorem attributes_className :
    let thing : Expression := .className "Lib\\Thing".toList "Lib\\Thing::class".toList
    let accented : Expression := .className "É".toList "É::class".toList
    let attr : AttributeSyntax :=
      { name := "Note"
        arguments := [(some "name".toList, thing), (some "of".toList, accented)] }
    attributes attr.toNative.arguments =
        .ok [("name", .text "Lib\\\\Thing"), ("of", .text "\\u00c9")] ∧
      attr.named id = [("name", .text "Lib\\Thing"), ("of", .text "É")] := by
  intro thing accented attr
  constructor <;> decide +kernel

end AttributeSyntax

end DocAnnotations.Source
