import DocAnnotations.Proofs.Json.Value

/-! The value of an argument and the value of its JSON text are the same. -/
namespace DocAnnotations.Argument

/-- Induction over terms, with the hypothesis for all elements of a group. -/
@[elab_as_elim, induction_eliminator]
theorem Term.induction {motive : Term → Prop} (text : ∀ s, motive (.text s))
    (word : ∀ s, motive (.word s))
    (group : ∀ bracket elements, (∀ e ∈ elements, motive e.2) → motive (.group bracket elements)) :
    ∀ t, motive t :=
  fun t => Term.rec (motive_1 := motive) (motive_2 := fun es => ∀ e ∈ es, motive e.2)
    (motive_3 := fun e => motive e.2) text word group (by simp)
    (fun e es he hes => by simpa using ⟨he, fun a b => hes (a, b)⟩) (fun _ _ h => h) t

namespace Term

theorem elementValues_eq_map (es : List (Option String × Term)) :
    elementValues es = es.map fun e => (e.1, e.2.value) := by
  induction es with
  | nil => rfl
  | cons e es ih => simp [elementValues, ih]

theorem elementJsons_eq_map (es : List (Option String × Term)) :
    elementJsons es = es.map fun e => (e.1, e.2.json) := by
  induction es with
  | nil => rfl
  | cons e es ih => simp [elementJsons, ih]

theorem elementFaults_eq_map (es : List (Option String × Term)) :
    elementFaults es = es.map fun e => (e.1, e.2.fault?) := by
  induction es with
  | nil => rfl
  | cons e es ih => simp [elementFaults, ih]

end Term

namespace Contents

variable {α β : Type}

@[simp]
theorem ofElements_cons_none (x : α) (es : List (Option String × α)) :
    ofElements ((none, x) :: es) =
      ⟨x :: (ofElements es).unkeyed, (ofElements es).keyed⟩ := by
  simp [ofElements]

@[simp]
theorem ofElements_cons_some (key : String) (x : α) (es : List (Option String × α)) :
    ofElements ((some key, x) :: es) =
      ⟨(ofElements es).unkeyed, (key, x) :: (ofElements es).keyed⟩ := by
  simp [ofElements]

theorem mem_all {es : List (Option String × α)} {x : α} :
    x ∈ (ofElements es).all ↔ ∃ e ∈ es, e.2 = x := by
  simp only [all, ofElements, List.mem_append, List.mem_filterMap, List.mem_map]
  constructor
  · rintro (⟨e, he, hx⟩ | ⟨p, ⟨e, he, hp⟩, rfl⟩)
    · exact ⟨e, he, by cases h : e.1 <;> simp_all⟩
    · exact ⟨e, he, by cases h : e.1 <;> simp_all; simp [← hp]⟩
  · rintro ⟨⟨key, x⟩, he, rfl⟩
    cases key with
    | none => exact Or.inl ⟨_, he, rfl⟩
    | some key => exact Or.inr ⟨(key, x), ⟨_, he, rfl⟩, rfl⟩

theorem ofElements_map (f : α → β) (es : List (Option String × α)) :
    ofElements (es.map fun e => (e.1, f e.2)) =
      ⟨(ofElements es).unkeyed.map f, (ofElements es).keyed.map fun m => (m.1, f m.2)⟩ := by
  induction es with
  | nil => rfl
  | cons e es ih =>
    obtain ⟨_ | key, x⟩ := e <;> simp [ih]

theorem members_map {f : α → β} {listA : List α → α} {listB : List β → β}
    (hlist : ∀ xs, listB (xs.map f) = f (listA xs)) (contents : Contents α) :
    (⟨contents.unkeyed.map f, contents.keyed.map fun m => (m.1, f m.2)⟩ : Contents β).members
      listB = (contents.members listA).map fun m => (m.1, f m.2) := by
  obtain ⟨_ | ⟨one, _ | ⟨other, rest⟩⟩, keyed⟩ := contents
  · rfl
  · rfl
  · have := hlist (one :: other :: rest)
    simp [members, ← this]

/-- What holds of all contents, and of lists of them, holds of the members of their map. -/
theorem forall_members {P : α → Prop} {list : List α → α}
    (hlist : ∀ xs, (∀ x ∈ xs, P x) → P (list xs)) {contents : Contents α}
    (h : ∀ x ∈ contents.all, P x) : ∀ m ∈ contents.members list, P m.2 := by
  have hkeyed : ∀ m ∈ contents.keyed, P m.2 := fun m hm =>
    h m.2 (List.mem_append_right _ (List.mem_map.mpr ⟨m, hm, rfl⟩))
  have hunkeyed : ∀ x ∈ contents.unkeyed, P x := fun x hx => h x (List.mem_append_left _ hx)
  obtain ⟨_ | ⟨one, _ | ⟨other, rest⟩⟩, keyed⟩ := contents
  · exact hkeyed
  · exact List.forall_mem_cons.mpr ⟨hunkeyed one List.mem_cons_self, hkeyed⟩
  · exact List.forall_mem_cons.mpr ⟨hlist _ hunkeyed, hkeyed⟩

/-- Contents whose values are related one by one, under the same keys. -/
structure Related (r : α → β → Prop) (c : Contents α) (d : Contents β) : Prop where
  unkeyed : List.Forall₂ r c.unkeyed d.unkeyed
  keyed : List.Forall₂ (fun m n => m.1 = n.1 ∧ r m.2 n.2) c.keyed d.keyed

theorem related_ofElements {r : α → β → Prop} {es : List (Option String × α)}
    {fs : List (Option String × β)} (h : List.Forall₂ (fun e f => e.1 = f.1 ∧ r e.2 f.2) es fs) :
    Related r (ofElements es) (ofElements fs) := by
  induction h with
  | nil => exact ⟨.nil, .nil⟩
  | @cons e f es fs h _ ih =>
    obtain ⟨key, x⟩ := e
    obtain ⟨_, y⟩ := f
    obtain ⟨rfl, hxy⟩ := h
    cases key with
    | none => simpa using ⟨.cons hxy ih.unkeyed, ih.keyed⟩
    | some key => simpa using ⟨ih.unkeyed, .cons ⟨rfl, hxy⟩ ih.keyed⟩

theorem Related.isEmpty_keyed {r : α → β → Prop} {c : Contents α} {d : Contents β}
    (h : Related r c d) : c.keyed.isEmpty = d.keyed.isEmpty := by
  obtain ⟨_, _⟩ := c
  obtain ⟨_, _⟩ := d
  cases h.keyed <;> rfl

/-- Members of related contents are related, if lists of them are. -/
theorem Related.members {r : α → β → Prop} {listA : List α → α} {listB : List β → β}
    {c : Contents α} {d : Contents β} (h : Related r c d)
    (hlist : ∀ {xs ys}, List.Forall₂ r xs ys → r (listA xs) (listB ys)) :
    List.Forall₂ (fun m n => m.1 = n.1 ∧ r m.2 n.2) (c.members listA) (d.members listB) := by
  obtain ⟨us, ks⟩ := c
  obtain ⟨vs, ls⟩ := d
  obtain ⟨hu, hk⟩ := h
  cases hu with
  | nil => exact hk
  | cons hx hxs =>
    cases hxs with
    | nil => exact .cons ⟨rfl, hx⟩ hk
    | cons hy hys => exact .cons ⟨rfl, hlist (.cons hx (.cons hy hys))⟩ hk

end Contents

theorem denotes_group {js : List (Option String × List Char)} {vs : List (Option String × Value)}
    (h : List.Forall₂ (fun j v => j.1 = v.1 ∧ Json.Denotes j.2 v.2) js vs) :
    Json.Denotes (groupJson js) (groupValue vs) := by
  have hc := Contents.related_ofElements h
  simp only [groupJson, groupValue, hc.isEmpty_keyed]
  split
  · exact Json.denotes_list hc.unkeyed
  · exact Json.denotes_map (hc.members Json.denotes_list)

theorem Scalar.isNumeral_of_ofWord {word : String} (h : Scalar.ofWord word = .number) :
    Numeral.isNumeral Text.isDecimalDigit word.toList = true := by
  by_contra hn
  simp only [Scalar.ofWord, hn, ↓reduceIte] at h
  split_ifs at h

theorem denotes_scalar {word : String} (h : Scalar.fault? word = none) :
    Json.Denotes (Scalar.json word) (Scalar.value word) := by
  unfold Scalar.fault? at h
  unfold Scalar.json Scalar.value
  cases hw : Scalar.ofWord word with
  | null => exact Json.denotes_null
  | bool b => cases b; exacts [Json.denotes_bool false, Json.denotes_bool true]
  | text => exact Json.denotes_text word
  | number =>
    obtain ⟨⟨n, rest⟩, hc⟩ := Option.isSome_iff_exists.mp
      (Numeral.isSome_cut_of_isNumeral Char.isDigit (Scalar.isNumeral_of_ofWord hw))
    simp only [hw, hc] at h ⊢
    split at h
    next => exact absurd h (by simp)
    next hsize =>
      split at h
      next hrest =>
        subst hrest
        exact Json.denotes_number hc (by simpa using hsize)
      next => exact absurd h (by simp)

theorem Term.exists_of_fault?_group {bracket : Bracket} {elements : List (Option String × Term)}
    {fault : NumberFault} (h : (group bracket elements).fault? = some fault) :
    ∃ e ∈ elements, e.2.fault? = some fault := by
  rw [Term.fault?, elementFaults_eq_map] at h
  obtain ⟨x, hx, rfl⟩ := List.exists_of_findSome?_eq_some h
  obtain ⟨_, hm, hf⟩ := Contents.mem_all.mp hx
  obtain ⟨e, he, rfl⟩ := List.mem_map.mp hm
  exact ⟨e, he, hf⟩

theorem Term.fault?_of_group {bracket : Bracket} {elements : List (Option String × Term)}
    (h : (group bracket elements).fault? = none) : ∀ e ∈ elements, e.2.fault? = none := by
  rw [Term.fault?, List.findSome?_eq_none_iff, elementFaults_eq_map] at h
  intro e he
  exact h _ (Contents.mem_all.mpr ⟨(e.1, e.2.fault?), List.mem_map.mpr ⟨e, he, rfl⟩, rfl⟩)

/-- The JSON text of a term denotes the value of the term, if no number is at fault. -/
theorem Term.denotes_json {t : Term} (h : t.fault? = none) : Json.Denotes t.json t.value := by
  induction t with
  | text s => exact Json.denotes_text s
  | word s => exact denotes_scalar h
  | group bracket elements ih =>
    rw [Term.json, Term.value, elementJsons_eq_map, elementValues_eq_map]
    apply denotes_group
    rw [List.forall₂_map_left_iff, List.forall₂_map_right_iff, List.forall₂_same]
    intro e he
    exact ⟨rfl, ih e he (Term.fault?_of_group h e he)⟩

end DocAnnotations.Argument
