import DocAnnotations.Proofs.Source.Literal

/-! Nested arrays of literals in native attributes keep their structure. -/
namespace DocAnnotations.Source

open Argument Text

/-- The text that a key spells. -/
def keyName (pieces : List Piece) : String :=
  String.ofList (Literal.body pieces)

/-- Texts between single quotes that may be the keys of an array: each once, on a single line, with
nothing escaped and no white space around it. -/
structure ProperKeys (keys : List (List Piece)) : Prop where
  nodup : (keys.map keyName).Nodup
  proper : ∀ key ∈ keys, (Literal.text key).Proper
  plain : ∀ key ∈ keys, (Literal.text key).Plain
  trimmed : ∀ key ∈ keys, strip (keyName key) = keyName key

/-- An expression that is a literal without a sign, a list or a map, with its value. Arrays nest at
most as deep as the number says. -/
inductive Constant : Nat → Expression → Value → Prop
  | literal {n : Nat} {l : Literal} : l.Proper → l.Plain → ¬ l.IsSigned →
      Constant n l.form l.value
  | list {n : Nat} {items : List (Expression × Value)} {source : List Char} :
      (∀ i ∈ items, Constant n i.1 i.2) →
      Constant (n + 1) (.array (items.map fun i => (none, i.1)) source) (.list (items.map (·.2)))
  | map {n : Nat} {entries : List (List Piece × Expression × Value)} {source : List Char} :
      entries ≠ [] → ProperKeys (entries.map (·.1)) → (∀ e ∈ entries, Constant n e.2.1 e.2.2) →
      Constant (n + 1)
        (.array (entries.map fun e => (some (Literal.text e.1).form, e.2.1)) source)
        (.map (entries.map fun e => (keyName e.1, e.2.2)))

namespace ProperKeys

variable {keys : List (List Piece)} {key : List Piece}

theorem isScalar (key : List Piece) : (Literal.text key).form.IsScalar :=
  trivial

theorem readable (h : ProperKeys keys) (hkey : key ∈ keys) :
    (Literal.text key).form.Readable :=
  Literal.readable_form (h.proper key hkey) (h.plain key hkey)

theorem strip_text (h : ProperKeys keys) (hkey : key ∈ keys) :
    strip ((Literal.text key).form.text Expression.escaped) = keyName key := by
  have htext : (Literal.text key).form.text Expression.escaped = keyName key := by
    simp [Literal.form, Literal.source, Expression.text, Expression.dropQuotes, keyName]
  rw [htext]
  exact h.trimmed key hkey

end ProperKeys

namespace Constant

variable {n : Nat} {e : Expression} {v : Value}

theorem readable (h : Constant n e v) : e.Readable := by
  induction h with
  | literal hproper hplain => exact Literal.readable_form hproper hplain
  | list _ ih =>
    refine .array (List.forall_mem_map.mpr fun i _ key hkey => ?_)
      (List.forall_mem_map.mpr fun i _ key hkey => ?_) (List.forall_mem_map.mpr ih) <;> cases hkey
  | map _ hkeys _ ih =>
    refine .array (List.forall_mem_map.mpr fun e he key hkey => ?_)
      (List.forall_mem_map.mpr fun e he key hkey => ?_) (List.forall_mem_map.mpr ih) <;> cases hkey
    · exact ProperKeys.isScalar e.1
    · exact hkeys.readable (List.mem_map_of_mem he)

theorem value_term (h : Constant n e v) : (e.term Expression.escaped).value = v := by
  induction h with
  | literal hproper hplain hsigned =>
    rw [Literal.value_term_form hproper hplain, Literal.kept, if_neg hsigned]
  | @list _ items _ _ ih =>
    rw [Expression.term, Expression.elementTerms_eq_map, List.map_map]
    exact (value_unkeyed .curly (fun i => i.1.term Expression.escaped) items).trans
      (congrArg Value.list (List.map_congr_left ih))
  | @map _ entries _ hne hkeys _ ih =>
    let contents : List (String × Expression) := entries.map fun e => (keyName e.1, e.2.1)
    have hterms : Expression.elementTerms Expression.escaped
        (entries.map fun e => (some (Literal.text e.1).form, e.2.1)) =
          keyed (Expression.term Expression.escaped) contents := by
      rw [Expression.elementTerms_eq_map, keyed, List.map_map, List.map_map]
      refine List.map_congr_left fun e he => ?_
      have hkey := hkeys.strip_text (List.mem_map_of_mem he)
      simp [hkey]
    have hnodup : (contents.map (·.1)).Nodup := by
      simpa [contents, Function.comp_def] using hkeys.nodup
    rw [Expression.term, hterms, value_keyed (by simpa [contents] using hne) hnodup, List.map_map]
    exact congrArg Value.map (List.map_congr_left fun e he => by simp [ih e he])

theorem depth_term (h : Constant n e v) : (e.term Expression.escaped).depth ≤ n := by
  induction h with
  | literal => exact (Literal.depth_term_form _ _).trans_le (Nat.zero_le _)
  | list _ ih | map _ _ _ ih =>
    rw [Expression.term, Expression.elementTerms_eq_map]
    exact depth_group_le (List.forall_mem_map.mpr (List.forall_mem_map.mpr ih))

theorem yields (h : Constant n e v) : e.Yields n v :=
  ⟨h.readable, h.value_term, h.depth_term⟩

section Arguments

variable {name : String} {named : List (List Char × Expression × Value)}
  {together : List (Expression × Value)}

/-- Arguments that all have a label are read back as a map in their order, and arguments that all
lack one as their value or the list of their values. -/
theorem read_constants (hlabels : ∀ a ∈ named, Bare (String.ofList a.1))
    (hdistinct : (named.map (·.1)).Nodup) (hnamed : ∀ a ∈ named, Constant 31 a.2.1 a.2.2)
    (htogether : ∀ a ∈ together, Constant 31 a.1 a.2) :
    attributes (attributeOf name Prod.fst
        (named.map fun a => (some a.1, a.2))).toNative.arguments =
      .ok (named.map fun a => (String.ofList a.1, a.2.2)) ∧
    positional (attributeOf name Prod.fst (together.map (none, ·))).toNative.arguments =
      .ok (several (together.map (·.2))) := by
  have hlabelsNamed : labels (named.map fun a => (some a.1, a.2)) = named.map (·.1) := by
    simp [labels, List.filterMap_map]
  have hlabelsTogether : labels (together.map (none, ·)) = [] := by
    simp [labels, List.filterMap_map]
  have haloneTogether : alone (together.map (none, ·)) = together := by
    simp [alone, List.filterMap_map]
  have hnamedYielding : Yielding Prod.fst Prod.snd (named.map fun a => (some a.1, a.2)) :=
    ⟨hlabelsNamed ▸ List.forall_mem_map.mpr hlabels, hlabelsNamed ▸ hdistinct,
      List.forall_mem_map.mpr fun a ha => (hnamed a ha).yields⟩
  have htogetherYielding : Yielding Prod.fst Prod.snd (together.map (none, ·)) :=
    ⟨by simp [hlabelsTogether], by simp [hlabelsTogether],
      List.forall_mem_map.mpr fun a ha => (htogether a ha).yields⟩
  refine ⟨hnamedYielding.attributes_eq, ?_⟩
  rw [htogetherYielding.positional_eq hlabelsTogether, haloneTogether]

/-- A map with a list in it, and an empty list beside a text. -/
theorem read_constants_nested :
    let one : Literal := .int .none 1
    let yes : Literal := .bool true "True".toList
    let word : Literal := .text [.char 'x', .char '"']
    let key : Literal := .text [.char 'k']
    let list : Expression := .array [(none, one.form), (none, yes.form)] []
    let map : Expression := .array [(some key.form, list)] []
    let empty : Expression := .array [] []
    attributes (attributeOf "Note" Prod.fst [(some "of".toList, map,
        Value.map [("k", .list [.int 1, .bool true])])]).toNative.arguments =
      .ok [("of", .map [("k", .list [.int 1, .bool true])])] ∧
    positional (attributeOf "Note" Prod.fst [(none, empty, Value.list []),
        (none, word.form, Value.text "x\"")]).toNative.arguments =
      .ok (.list [.list [], .text "x\""]) := by
  intro one yes word key list map empty
  have hone : Constant 29 one.form (.int 1) :=
    .literal (l := one) (by decide) (by decide) (by decide)
  have hyes : Constant 29 yes.form (.bool true) :=
    .literal (l := yes) (by decide) (by decide) (by decide)
  have hword : Constant 31 word.form (.text "x\"") :=
    .literal (l := word) (by decide) (by decide) (by decide)
  have hlist : Constant 30 list (.list [.int 1, .bool true]) :=
    @Constant.list 29 [(one.form, .int 1), (yes.form, .bool true)] []
      (by simpa using ⟨hone, hyes⟩)
  have hkeys : ProperKeys [[Piece.char 'k']] :=
    ⟨by decide, by decide, by decide, by decide⟩
  have hmap : Constant 31 map (.map [("k", .list [.int 1, .bool true])]) :=
    @Constant.map 30 [([.char 'k'], list, .list [.int 1, .bool true])] [] (by simp) hkeys
      (by simpa using hlist)
  have hempty : Constant 31 empty (.list []) := @Constant.list 30 [] [] (by simp)
  exact @read_constants "Note" [("of".toList, map, .map [("k", .list [.int 1, .bool true])])]
    [(empty, .list []), (word.form, .text "x\"")]
    (by decide) (by decide) (by simpa using hmap) (by simpa using ⟨hempty, hword⟩)

/-- A wide space is a character of names, but not one of keys. -/
theorem attributes_wideSpace :
    let label := "a\u3000b".toList
    let one : Literal := .int .none 1
    label.all isNameChar = true ∧ Constant 31 one.form (.int 1) ∧
      attributes (attributeOf "Note" Prod.fst
        [(some label, one.form, Value.int 1)]).toNative.arguments =
          .ok [("a b", .int 1)] ∧
      String.ofList label ≠ "a b" := by
  intro label one
  have hone : one.Proper := by decide
  refine ⟨by decide +kernel, .literal hone (by decide) (by decide), ?_, by decide⟩
  subst label one
  decide +kernel

end Arguments

end Constant

end DocAnnotations.Source
