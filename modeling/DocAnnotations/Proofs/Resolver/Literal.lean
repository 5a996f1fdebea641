import DocAnnotations.Proofs.Argument.Sketch
import DocAnnotations.Proofs.Comment.Parts
import DocAnnotations.Proofs.Resolver.Nested
import DocAnnotations.Proofs.Resolver.Origin

/-! What the attributes of an instance hold for the texts, words and children of its annotation. -/
namespace DocAnnotations.Resolver

open Argument Comment

/-- What stands for a text or word: a child if it reads like its placeholder, or else itself. -/
def seen (values : List Value) (l : Lexeme) : Value :=
  ((placeholders values).get? l.label).getD l.plain

/-- What a text or word means: the child that is written there, or itself. -/
def meant (values : List Value) (l : Lexeme) : Value :=
  match l.child? with
  | some n => values[n]?.getD .null
  | none => l.plain

/-- The attributes that are written, with the values of their texts and words. -/
def given (resolver : Resolver) (scope : Option NameScope) (leaf : Lexeme → Value)
    (sketches : Entries Sketch) : Entries Value :=
  qualifyTypeNames resolver.typeNames scope (sketches.mapContents fun _ w => w.value leaf)

section Substitute

variable (children : Entries Value)

theorem substitute_groupValue (elements : List (Option String × Value)) :
    substitute children (groupValue elements) =
      groupValue (elements.map fun e => (e.1, substitute children e.2)) := by
  have hlist (items : List Value) :
      Value.list (items.map (substitute children)) = substitute children (.list items) := by
    rw [substitute, substituteItems_eq_map]
  rw [groupValue, groupValue, Contents.ofElements_map]
  simp only [List.isEmpty_map]
  split
  · exact (hlist _).symm
  · rw [Contents.members_map hlist, Entries.ofPairs_map, substitute, substituteEntries_eq_map]
    rfl

/-- Children take the places of placeholders among the leaves. -/
theorem substitute_sketch (leaf : Lexeme → Value) (w : Sketch) :
    substitute children (w.value leaf) = w.value fun l => substitute children (leaf l) := by
  induction w with
  | text ps | word ps => rfl
  | group bracket elements ih =>
    rw [Sketch.value, Sketch.value, substitute_groupValue, Sketch.elementValues_eq_map,
      Sketch.elementValues_eq_map, List.map_map]
    exact congrArg _ (List.map_congr_left fun e he => congrArg _ (ih e he))

end Substitute

section Leaf

variable {values : List Value} {l : Lexeme} {n : Nat}

theorem exists_of_get?_placeholders {s : String} {v : Value}
    (h : (placeholders values).get? s = some v) : ∃ n < values.length, s = Fragment.placeholder n := by
  by_contra hne
  have hnone : (placeholders values).get? s = none :=
    get?_placeholders_of_ne fun n hn hs => hne ⟨n, hn, hs⟩
  rw [hnone] at h
  cases h

/-- A word stands for itself, or for a value without any text. -/
theorem scalar_value_cases (s : String) : Scalar.value s = .text s ∨ Scalar.value s = .null ∨
    (∃ b, Scalar.value s = .bool b) ∨ (∃ n, Scalar.value s = .int n) ∨
      ∃ x, Scalar.value s = .float x := by
  rw [Scalar.value]
  cases Scalar.ofWord s with
  | null => simp
  | bool b => simp
  | text => simp
  | number =>
    dsimp only
    split
    next n _ =>
      rw [Numeral.value]
      split <;> simp
    next => simp

theorem scalar_value_placeholder (n : Nat) :
    Scalar.value (Fragment.placeholder n) = .text (Fragment.placeholder n) := by
  rw [Scalar.value, (Fragment.plainWord_placeholder n).isText]

theorem substitute_value_word (s : String) : substitute (placeholders values) (Scalar.value s) =
    ((placeholders values).get? s).getD (Scalar.value s) := by
  cases h : (placeholders values).get? s with
  | some v =>
    obtain ⟨n, -, rfl⟩ := exists_of_get?_placeholders h
    rw [scalar_value_placeholder, substitute, h]
  | none =>
    obtain hv | hv | ⟨_, hv⟩ | ⟨_, hv⟩ | ⟨_, hv⟩ := scalar_value_cases s <;>
      simp [hv, substitute, h]

theorem substitute_plain (values : List Value) (l : Lexeme) :
    substitute (placeholders values) l.plain = seen values l := by
  cases l with
  | punct c | text ps => rfl
  | word ps => exact substitute_value_word _

theorem label_of_child? (h : l.child? = some n) : l.label = Fragment.placeholder n := by
  rw [Lexeme.label, Lexeme.token_of_child? h]
  rfl

/-- Where only children read like placeholders, every leaf gives what it means. -/
theorem seen_eq_meant (hchild : ∀ n, l.child? = some n → n < values.length)
    (h : ∀ n < values.length, l.label = Fragment.placeholder n → l.child? = some n) :
    seen values l = meant values l := by
  rw [seen, meant]
  cases hl : l.child? with
  | some n =>
    rw [label_of_child? hl, get?_placeholders]
    have hn := hchild n hl
    simp [hn]
  | none =>
    have hnone : (placeholders values).get? l.label = none :=
      get?_placeholders_of_ne fun n hn hs => by
        rw [h n hn hs] at hl
        cases hl
    rw [hnone]
    rfl

end Leaf

variable {resolver : Resolver} {scope : Option NameScope} {key : DeclarationKey} {type : String}
  {schema : Schema} {f : Fragment} {v : Value} {log : ReadLog}

theorem given_congr {leaf other : Lexeme → Value} {sketches : Entries Sketch}
    (h : ∀ e ∈ sketches, ∀ l ∈ e.2.leaves, leaf l = other l) :
    resolver.given scope leaf sketches = resolver.given scope other sketches :=
  congrArg _ (List.map_congr_left fun e he => congrArg _ (Sketch.value_congr (h e he)))

theorem used_eq_given (values : List Value) (sketches : Entries Sketch) :
    resolver.used scope (placeholders values)
        (sketches.mapContents fun _ w => w.value Lexeme.plain) =
      resolver.given scope (seen values) sketches := by
  rw [used, given, Entries.mapContents_mapContents]
  simp only [substitute_sketch, substitute_plain]

/-- An instance is made of the attributes that are remembered. -/
theorem recorded_of_convert (hs : resolver.registry.get? type = some schema)
    (h : (resolver.convert scope key type f log).1 = .ok v) (hv : v.isGeneric = false) :
    ∃ values attributes,
      List.Forall₂ (fun c v => (resolver.resolve scope key c {}).1 = .ok v) f.children values ∧
      attributesOf schema f.raw = .ok attributes ∧
      (resolver.convert scope key type f log).2.recorded key schema.name =
        some (resolver.used scope (placeholders values) attributes) ∧
      hydrateSchema schema key.text (resolver.used scope (placeholders values) attributes) =
        .ok v := by
  unfold convert at h ⊢
  simp only [hs] at h ⊢
  obtain ⟨values, middle, hvalues, hsettle⟩ := exists_of_bind_ok (Prod.ext h rfl)
  have hmade := attempt_of_settle (congrArg Prod.fst hsettle) hv
  unfold attempt at hmade
  cases ha : attributesOf schema f.raw with
  | error stop => rw [ha] at hmade; cases hmade
  | ok attributes =>
    refine ⟨values, attributes, forall₂_of_resolveAll _ _ _ (congrArg Prod.fst hvalues), rfl, ?_, ?_⟩
    · rw [bind_of_ok hvalues]
      exact recorded_settle ha middle
    · simp only [ha, bind, Except.bind, hydrate_apply] at hmade
      split at hmade
      next made _ => cases hmade; assumption
      next => cases hmade

/-- The attributes that an instance is made of, for every annotation of a comment and every child of
one. A text, a list element or a map value between quotes holds characters only; it is taken for a
child exactly if it reads like the placeholder of one. Where nothing but a child reads like its
placeholder, quoted texts stay what they are, and only children are replaced. -/
theorem convert_literals {comment : String} {ps : List Part} (hf : Annotates comment f ps)
    (hs : resolver.registry.get? type = some schema)
    (h : (resolver.convert scope key type f log).1 = .ok v) (hv : v.isGeneric = false) :
    ∃ values sketches attributes,
      List.Forall₂ (fun c v => (resolver.resolve scope key c {}).1 = .ok v) f.children values ∧
      Sketch.Gives schema.positional f.raw ps sketches ∧
      (∀ e ∈ sketches, ∀ qs, .text qs ∈ e.2.leaves → Lexeme.Written qs) ∧
      (resolver.convert scope key type f log).2.recorded key schema.name = some attributes ∧
      hydrateSchema schema key.text attributes = .ok v ∧
      attributes = resolver.given scope (seen values) sketches ∧
      ((∀ e ∈ sketches, ∀ l ∈ e.2.leaves, ∀ n < values.length,
          l.label = Fragment.placeholder n → l.child? = some n) →
        attributes = resolver.given scope (meant values) sketches) := by
  obtain ⟨values, attributes, hvalues, ha, hrecorded, hmade⟩ := recorded_of_convert hs h hv
  obtain ⟨sketches, hgives, rfl⟩ := Sketch.exists_gives hf.lex_eq ha
  rw [used_eq_given] at hrecorded hmade
  refine ⟨values, sketches, _, hvalues, hgives, fun e he qs hqs => ?_, hrecorded, hmade, rfl,
    fun hplain => given_congr fun e he l hl => ?_⟩
  · obtain ⟨ls, hls, hmem⟩ := hgives.mem_of_mem_leaves he hqs
    exact hf.written_of_text hls hmem
  · obtain ⟨ls, hls, hmem⟩ := hgives.mem_of_mem_leaves he hl
    refine seen_eq_meant (fun n hn => ?_) (hplain e he l hl)
    rw [← hvalues.length_eq]
    exact hf.lt_of_child? hls hmem hn

/-- The schema that a factory is registered with. -/
def schemaOf (f : Factory) : Schema :=
  ({ name := f.typeName, maker := .factory f } : Registration).schemaFor f

/-- Two types, where instances of one may hold instances of the other. -/
def outerAndInner : Resolver :=
  { registry := ⟨[("Outer", schemaOf .outer), ("Inner", schemaOf .inner)]⟩ }

/-- A quoted text beside a child. -/
theorem convert_literals_child :
    let comment := "/** @Outer(label=\"a\", inner=@Inner(x=1)) */"
    let key : DeclarationKey := { className := "Host" }
    let inner : Value := .object "Inner" [("x", .int 1)]
    let f : Fragment := ⟨"Outer", "(label=\"a\", inner=_child_0)", [⟨"Inner", "(x=1)", []⟩]⟩
    let outer : Value := .object "Outer" [("inner", inner), ("label", .text "a"), ("items", .list [])]
    ∃ ps values sketches attributes, Annotates comment f ps ∧
      (outerAndInner.convert none key "Outer" f {}).1 = .ok outer ∧
      List.Forall₂ (fun c v => (outerAndInner.resolve none key c {}).1 = .ok v) f.children values ∧
      Sketch.Gives (schemaOf .outer).positional f.raw ps sketches ∧
      (outerAndInner.convert none key "Outer" f {}).2.recorded key "Outer" = some attributes ∧
      attributes = outerAndInner.given none (meant values) sketches := by
  intro comment key inner f outer
  let o : Occurrence := ⟨"Outer".toList, "(label=\"a\", inner=@Inner(x=1)) ".toList⟩
  have hmem : o ∈ occurrences comment := by decide +kernel
  have hf : o.fragment .withChildren = f := by decide +kernel
  have hannotates : Annotates comment f o.parts := hf ▸ .whole hmem
  have hs : outerAndInner.registry.get? "Outer" = some (schemaOf .outer) := rfl
  have hconvert : (outerAndInner.convert none key "Outer" f {}).1 = .ok outer := by decide +kernel
  obtain ⟨values, sketches, attributes, hvalues, hgives, -, hsome, -, -, hmeant⟩ :=
    convert_literals hannotates hs hconvert rfl
  have hlex : ∃ ls, Lexeme.lex o.parts = .ok ls ∧ ∀ l ∈ ls, ∀ n < 1,
      l.label = Fragment.placeholder n → l.child? = some n := by
    exact ⟨[.punct '(', .word ("label".toList.map .char), .punct '=', .text [.char 'a'],
      .punct ',', .word ("inner".toList.map .char), .punct '=', .word [.child 0], .punct ')'],
      by decide +kernel, by decide⟩
  obtain ⟨ls, hls, hplain⟩ := hlex
  refine ⟨o.parts, values, sketches, attributes, hannotates, hconvert, hvalues, hgives, hsome,
    hmeant fun e he l hl n hn => ?_⟩
  obtain ⟨ls', hls', hmem⟩ := hgives.mem_of_mem_leaves he hl
  cases hls.symm.trans hls'
  rw [← hvalues.length_eq] at hn
  exact hplain l hmem n hn

/-- A quoted text that reads like a placeholder is taken for the child. -/
theorem convert_quoted_placeholder :
    let comment := "/** @Outer(label=\"_child_0\", inner=@Inner(x=1)) */"
    let key : DeclarationKey := { className := "Host" }
    let inner : Value := .object "Inner" [("x", .int 1)]
    let f : Fragment :=
      ⟨"Outer", "(label=\"_child_0\", inner=_child_0)", [⟨"Inner", "(x=1)", []⟩]⟩
    ∃ ps ls, Annotates comment f ps ∧ Lexeme.lex ps = .ok ls ∧
      ls[3]? = some (.text ("_child_0".toList.map .char)) ∧
      (outerAndInner.convert none key "Outer" f {}).1 =
        .ok (.object "Outer" [("inner", inner), ("label", inner), ("items", .list [])]) ∧
      (outerAndInner.convert none key "Outer" f {}).2.recorded key "Outer" =
        some [("label", inner), ("inner", inner)] := by
  intro comment key inner f
  let o : Occurrence := ⟨"Outer".toList, "(label=\"_child_0\", inner=@Inner(x=1)) ".toList⟩
  have hmem : o ∈ occurrences comment := by decide +kernel
  have hf : o.fragment .withChildren = f := by decide +kernel
  have hlex : Lexeme.lex o.parts = .ok [.punct '(', .word ("label".toList.map .char), .punct '=',
      .text ("_child_0".toList.map .char), .punct ',', .word ("inner".toList.map .char), .punct '=',
      .word [.child 0], .punct ')'] := by
    decide +kernel
  exact ⟨o.parts, _, hf ▸ .whole hmem, hlex, rfl, by decide +kernel, by decide +kernel⟩

end DocAnnotations.Resolver
