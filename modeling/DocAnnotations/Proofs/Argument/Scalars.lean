import DocAnnotations.Proofs.Argument.Digits

/-! The bare words that stand for values in a term, and those that are spelled like numbers but are
none. -/
namespace DocAnnotations.Argument

open Text

theorem Contents.all_map {α β : Type} (f : α → β) (es : List (Option String × α)) :
    (ofElements (es.map fun e => (e.1, f e.2))).all = (ofElements es).all.map f := by
  simp [ofElements_map, all]

namespace Term

mutual

/-- The bare words that stand for values, in the order of the JSON text. -/
def scalars : Term → List String
  | text _ => []
  | word s => [s]
  | group _ elements => (Contents.ofElements (elementScalars elements)).all.flatten

def elementScalars : List (Option String × Term) → List (Option String × List String)
  | [] => []
  | (key, term) :: rest => (key, term.scalars) :: elementScalars rest

end

theorem elementScalars_eq_map (es : List (Option String × Term)) :
    elementScalars es = es.map fun e => (e.1, e.2.scalars) := by
  induction es with
  | nil => rfl
  | cons e es ih => simp [elementScalars, ih]

theorem scalars_group (bracket : Bracket) (elements : List (Option String × Term)) :
    (group bracket elements).scalars = (Contents.ofElements elements).all.flatMap scalars := by
  rw [scalars, elementScalars_eq_map, Contents.all_map, List.flatMap]

/-- The first fault in a list of terms is the first fault of their words. -/
theorem findSome?_fault? {ts : List Term}
    (h : ∀ t ∈ ts, t.fault? = t.scalars.findSome? Scalar.fault?) :
    ts.findSome? fault? = (ts.flatMap scalars).findSome? Scalar.fault? := by
  induction ts with
  | nil => rfl
  | cons t ts ih =>
    rw [List.forall_mem_cons] at h
    rw [List.findSome?_cons, List.flatMap_cons, List.findSome?_append, ← h.1, ih h.2]
    cases t.fault? <;> rfl

theorem fault?_eq_findSome? (t : Term) : t.fault? = t.scalars.findSome? Scalar.fault? := by
  induction t with
  | text => rfl
  | word s => simp [fault?, scalars]
  | group bracket elements ih =>
    rw [fault?, elementFaults_eq_map, Contents.all_map, List.findSome?_map, scalars_group]
    refine findSome?_fault? fun t ht => ?_
    obtain ⟨e, he, rfl⟩ := Contents.mem_all.mp ht
    exact ih e he

end Term

/-- The word is spelled like a number, but not with the digits that JSON has. -/
def ForeignNumber (word : String) : Prop :=
  Scalar.ofWord word = .number ∧ Numeral.isNumeral Char.isDigit word.toList = false

variable {word : String} {ws : List String}

theorem fault?_eq_oversized_iff : Scalar.fault? word = some .oversized ↔ ¬ ShortInteger word := by
  refine ⟨fun hf hshort => fault?_ne_oversized hshort hf, fun hshort => ?_⟩
  simp only [ShortInteger, not_forall, not_le] at hshort
  obtain ⟨hw, n, rest, hcut, hwhole, hlong⟩ := hshort
  simp [Scalar.fault?, hw, hcut, Numeral.isOversized, hwhole, hlong]

theorem not_foreignNumber_of_fault? (h : Scalar.fault? word = none) : ¬ ForeignNumber word := by
  rintro ⟨hw, hn⟩
  obtain ⟨⟨n, rest⟩, hcut⟩ := Option.isSome_iff_exists.mp
    (Numeral.isSome_cut_of_isNumeral Char.isDigit (Scalar.isNumeral_of_ofWord hw))
  simp only [Scalar.fault?, hw, hcut] at h
  split at h
  next => cases h
  next =>
    split at h
    next hrest => simp [Numeral.isNumeral, hcut, hrest] at hn
    next => cases h

theorem foreignNumber_of_fault? (h : Scalar.fault? word = some .foreignDigit) :
    ForeignNumber word := by
  unfold Scalar.fault? at h
  split at h
  next n rest hw hcut =>
    refine ⟨hw, ?_⟩
    cases rest with
    | nil => simp at h
    | cons c rest => simp [Numeral.isNumeral, hcut]
  next => cases h

/-- The first fault among words is a number that is too long. -/
def Overrun (ws : List String) : Prop :=
  ∃ before word after, ws = before ++ word :: after ∧ ¬ ShortInteger word ∧
    ∀ w ∈ before, ¬ ForeignNumber w

theorem findSome?_eq_oversized_iff :
    ws.findSome? Scalar.fault? = some .oversized ↔ Overrun ws := by
  constructor
  · intro h
    obtain ⟨before, word, after, rfl, hword, hbefore⟩ := List.findSome?_eq_some_iff.mp h
    exact ⟨before, word, after, rfl, fault?_eq_oversized_iff.mp hword,
      fun w hw => not_foreignNumber_of_fault? (hbefore w hw)⟩
  · rintro ⟨before, word, after, rfl, hword, hbefore⟩
    induction before with
    | nil => simp [fault?_eq_oversized_iff.mpr hword]
    | cons w before ih =>
      rw [List.forall_mem_cons] at hbefore
      rw [List.cons_append, List.findSome?_cons]
      cases hw : Scalar.fault? w with
      | none => exact ih hbefore.2
      | some fault =>
        cases fault with
        | oversized => rfl
        | foreignDigit => exact absurd (foreignNumber_of_fault? hw) hbefore.1

end DocAnnotations.Argument
