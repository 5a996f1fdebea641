import DocAnnotations.Proofs.Source.Expression

/-! What is read back of the arguments of a native attribute, by their labels. -/
namespace DocAnnotations

namespace Argument

/-- What several values without a label are together. -/
def several : List Value → Value
  | [] => .null
  | [one] => one
  | values => .list values

variable {elements : List (Option String × Value)}

/-- The values without a label. -/
def unlabelled (elements : List (Option String × Value)) : List Value :=
  (Contents.ofElements elements).unkeyed

theorem depth_group_le {bracket : Bracket} {elements : List (Option String × Term)} {n : Nat}
    (h : ∀ e ∈ elements, e.2.depth ≤ n) : (Term.group bracket elements).depth ≤ n + 1 := by
  have helements : elementsDepth elements ≤ n := by
    induction elements with
    | nil => exact Nat.zero_le n
    | cons e rest ih =>
      exact Nat.max_le.mpr ⟨h e (by simp), ih fun f hf => h f (by simp [hf])⟩
  exact Nat.succ_le_succ helements

theorem groupValue_labelled {entries : Entries Value} (hne : entries ≠ [])
    (hnodup : entries.keys.Nodup) :
    groupValue (entries.map fun e => (some e.1, e.2)) = .map entries := by
  simp [groupValue, ofElements_keyed, hne, Contents.members, Entries.ofPairs_of_nodup hnodup]

theorem eq_map_unlabelled (h : elements.filterMap (·.1) = []) :
    elements = (unlabelled elements).map (none, ·) := by
  induction elements with
  | nil => rfl
  | cons e rest ih =>
    obtain ⟨_ | label, v⟩ := e
    · have hrest := ih (by simpa using h)
      rw [unlabelled, Contents.ofElements_cons_none, List.map_cons]
      exact congrArg _ hrest
    · simp at h

theorem groupValue_unlabelled (values : List Value) :
    groupValue (values.map (none, ·)) = .list values := by
  simp [groupValue, ofElements_unkeyed]

end Argument

namespace Source

open Argument Expression

namespace AttributeSyntax

/-- The labels of the arguments with the values that are read back. -/
def elements (attr : AttributeSyntax) : List (Option String × Value) :=
  attr.arguments.map fun a => (a.1.map String.ofList, (a.2.term escaped).value)

variable {attr : AttributeSyntax}

theorem evaluateList_elements (h : attr.Readable)
    (hd : (Term.group .round (attr.terms escaped)).depth ≤ checkBalance.maxNesting) :
    evaluateList attr.toNative.arguments =
      .ok (if attr.arguments = [] then none else some (groupValue attr.elements)) := by
  split
  next hnil =>
    rw [toNative, hnil]
    rfl
  next hne =>
    have helements : Term.elementValues (attr.terms escaped) = attr.elements := by
      simp [Term.elementValues_eq_map, terms, elements, Function.comp_def]
    rw [evaluateList_toNative h hne hd, Term.value, helements]

theorem attributes_elements (h : attr.Readable)
    (hd : (Term.group .round (attr.terms escaped)).depth ≤ checkBalance.maxNesting) :
    attributes attr.toNative.arguments =
      .ok (match groupValue attr.elements with
        | .map entries => entries
        | _ => []) := by
  rw [attributes, evaluateList_elements h hd]
  split
  next hnil =>
    rw [elements, hnil]
    rfl
  next => cases groupValue attr.elements <;> rfl

theorem positional_elements (h : attr.Readable)
    (hd : (Term.group .round (attr.terms escaped)).depth ≤ checkBalance.maxNesting) :
    positional attr.toNative.arguments =
      .ok (match groupValue attr.elements with
        | .list values => several values
        | _ => .null) := by
  rw [positional, evaluateList_elements h hd]
  split
  next hnil =>
    rw [elements, hnil]
    rfl
  next =>
    cases groupValue attr.elements with
    | list values => rcases values with _ | ⟨one, _ | ⟨other, rest⟩⟩ <;> rfl
    | _ => rfl

end AttributeSyntax

/-- An expression that is read back as a value, from groups that nest no deeper than the number
says. -/
structure Expression.Yields (n : Nat) (e : Expression) (v : Value) : Prop where
  readable : e.Readable
  value : (e.term escaped).value = v
  depth : (e.term escaped).depth ≤ n

section Arguments

variable {α : Type} {name : String} {expression : α → Expression} {value : α → Value} {n : Nat}
  {arguments : List (Option (List Char) × α)}

/-- An attribute with the expressions of the given arguments. -/
def attributeOf (name : String) (expression : α → Expression)
    (arguments : List (Option (List Char) × α)) : AttributeSyntax :=
  { name, arguments := arguments.map fun a => (a.1, expression a.2) }

def labels (arguments : List (Option (List Char) × α)) : List (List Char) :=
  arguments.filterMap (·.1)

/-- The arguments without a label. -/
def alone (arguments : List (Option (List Char) × α)) : List α :=
  arguments.filterMap fun a => if a.1.isNone then some a.2 else none

/-- Arguments with distinct labels of one word each that are read back as values. -/
structure Yielding (expression : α → Expression) (value : α → Value)
    (arguments : List (Option (List Char) × α)) : Prop where
  bare : ∀ label ∈ labels arguments, Bare (String.ofList label)
  distinct : (labels arguments).Nodup
  yields : ∀ a ∈ arguments, (expression a.2).Yields (checkBalance.maxNesting - 1) (value a.2)

namespace Yielding

theorem readable (h : Yielding expression value arguments) :
    (attributeOf name expression arguments).Readable :=
  ⟨List.forall_mem_map.mpr fun a ha label hlabel =>
      h.bare label (List.mem_filterMap.mpr ⟨a, ha, hlabel⟩),
    List.forall_mem_map.mpr fun a ha => (h.yields a ha).readable⟩

theorem depth (h : Yielding expression value arguments) :
    (Term.group .round ((attributeOf name expression arguments).terms escaped)).depth ≤
      checkBalance.maxNesting :=
  depth_group_le (List.forall_mem_map.mpr (List.forall_mem_map.mpr fun a ha =>
    (h.yields a ha).depth))

theorem elements (h : Yielding expression value arguments) :
    (attributeOf name expression arguments).elements =
      arguments.map fun a => (a.1.map String.ofList, value a.2) := by
  rw [AttributeSyntax.elements, attributeOf, List.map_map]
  exact List.map_congr_left fun a ha => by simp [(h.yields a ha).value]

theorem unlabelled_elements (h : Yielding expression value arguments) :
    unlabelled (attributeOf name expression arguments).elements = (alone arguments).map value := by
  rw [h.elements, unlabelled, Contents.ofElements, alone, List.map_filterMap, List.filterMap_map]
  refine List.filterMap_congr fun a _ => ?_
  cases hlabel : a.1 <;> simp [hlabel]

theorem labels_elements (h : Yielding expression value arguments) :
    (attributeOf name expression arguments).elements.filterMap (·.1) =
      (labels arguments).map String.ofList := by
  rw [h.elements, labels, List.map_filterMap, List.filterMap_map]
  rfl

theorem nodup (h : Yielding expression value arguments) :
    ((labels arguments).map String.ofList).Nodup :=
  h.distinct.map fun _ _ heq => String.ofList_inj.mp heq

theorem elements_of_labels_eq_nil (h : Yielding expression value arguments)
    (hnone : labels arguments = []) :
    (attributeOf name expression arguments).elements =
      ((alone arguments).map value).map (none, ·) := by
  have helements : (attributeOf name expression arguments).elements = _ :=
    eq_map_unlabelled (by rw [h.labels_elements, hnone]; rfl)
  rwa [h.unlabelled_elements] at helements

/-- Arguments without any label are read back together. -/
theorem positional_eq (h : Yielding expression value arguments) (hnone : labels arguments = []) :
    positional (attributeOf name expression arguments).toNative.arguments =
      .ok (several ((alone arguments).map value)) := by
  rw [AttributeSyntax.positional_elements h.readable h.depth, h.elements_of_labels_eq_nil hnone,
    groupValue_unlabelled]

/-- Arguments that all have a label are read back in their order. -/
theorem attributes_eq {named : List (List Char × α)}
    (h : Yielding expression value (named.map fun a => (some a.1, a.2))) :
    attributes
        (attributeOf name expression (named.map fun a => (some a.1, a.2))).toNative.arguments =
      .ok (named.map fun a => (String.ofList a.1, value a.2)) := by
  have helements : (attributeOf name expression (named.map fun a => (some a.1, a.2))).elements =
      (named.map fun a => (String.ofList a.1, value a.2)).map fun e => (some e.1, e.2) := by
    rw [h.elements, List.map_map, List.map_map]
    rfl
  rw [AttributeSyntax.attributes_elements h.readable h.depth, helements]
  cases named with
  | nil => rfl
  | cons a rest =>
    have hkeys : Entries.keys ((a :: rest).map fun a => (String.ofList a.1, value a.2)) =
        (labels ((a :: rest).map fun a => (some a.1, a.2))).map String.ofList := by
      simp [Entries.keys, labels, Function.comp_def, List.filterMap_map]
    rw [groupValue_labelled (by simp) (hkeys ▸ h.nodup)]

end Yielding

end Arguments

end Source

end DocAnnotations
